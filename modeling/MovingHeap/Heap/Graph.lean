import MovingHeap.Heap.Access

/-! The graph of blocks that can be reached from some words. -/
namespace MovingHeap
namespace Heap

/-- Continues a walk with the words of `queue`; each takes one of `n` turns. -/
def walkFrom (h : Heap) :
    Nat → List Word → List (Ref × Option Block) → List (Ref × Option Block)
  | 0, _, seen => seen.reverse
  | _ + 1, [], seen => seen.reverse
  | n + 1, w :: queue, seen =>
    match w.ref? with
    | none => h.walkFrom n queue seen
    | some r =>
      if seen.any (·.1 = r) then h.walkFrom n queue seen
      else
        let b := h.lookup r
        h.walkFrom n (queue ++ b.elim [] Block.fields) ((r, b) :: seen)

def fieldCount (h : Heap) : Nat := h.blocks.foldl (fun n b => n + b.fields.length) 0

/-- The references that are met breadth first, each once, with the blocks they resolve to. A word
is met as often as it is given or is a field of a block, so the turns suffice. -/
def walk (h : Heap) (start : List Word) : List (Ref × Option Block) :=
  h.walkFrom (start.length + h.fieldCount) start []

end Heap
end MovingHeap

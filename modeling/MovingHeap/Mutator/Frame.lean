import MovingHeap.Mutator.Basic

/-!
Local roots. A root is a position on the stack of roots; a frame forgets, however its body ends,
the roots that were pushed inside.
-/
namespace MovingHeap

/-- A handle for a value on the stack of local roots. -/
structure Root where
  index : Nat
  deriving DecidableEq

namespace Heap

def rootValue (h : Heap) (r : Root) : Except Fault Word :=
  match h.roots[r.index]? with
  | some w => .ok w
  | none => .error .deadRoot

def setRoot (h : Heap) (r : Root) (w : Word) : Except Fault Heap :=
  if r.index < h.roots.length then .ok { h with roots := h.roots.set r.index w }
  else .error (.outOfRange h.roots.length r.index)

/-- Keeps the oldest `n` roots. -/
def truncateRoots (h : Heap) (n : Nat) : Heap := { h with roots := h.roots.take n }

end Heap

namespace Mutator

variable {α : Type}

def root (w : Word) : Mutator Root := fun h =>
  .ok ⟨h.roots.length⟩ { h with roots := h.roots ++ [w] }

def frame (body : Mutator α) : Mutator α := fun h =>
  match body h with
  | .ok a h' => .ok a (h'.truncateRoots h.roots.length)
  | .error e h' => .error e (h'.truncateRoots h.roots.length)

/-- Runs `body` with `held` rooted, and gives the held words as they are afterwards. -/
def holding (held : List Word) (body : Mutator Unit) : Mutator (List Word) := fun h =>
  match body { h with roots := h.roots ++ held } with
  | .ok _ h' => .ok (h'.roots.drop h.roots.length) (h'.truncateRoots h.roots.length)
  | .error e h' => .error e (h'.truncateRoots h.roots.length)

end Mutator

namespace Heap

@[simp]
theorem roots_truncateRoots (h : Heap) (n : Nat) : (h.truncateRoots n).roots = h.roots.take n := rfl

theorem rootValue_eq_ok_iff {h : Heap} {r : Root} {w : Word} :
    h.rootValue r = .ok w ↔ h.roots[r.index]? = some w := by
  unfold rootValue
  split <;> simp_all

theorem setRoot_eq_ok_iff {h h' : Heap} {r : Root} {w : Word} :
    h.setRoot r w = .ok h' ↔
      r.index < h.roots.length ∧ h' = { h with roots := h.roots.set r.index w } := by
  unfold setRoot
  split
  next hr => simp [hr, eq_comm]
  next hr => simp [hr]

end Heap
end MovingHeap

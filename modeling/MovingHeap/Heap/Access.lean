import MovingHeap.Heap.Basic

/-!
Reading and writing blocks. A reference resolves when it has the current epoch and a slot in use;
every other reference is stale or dangling, and using it is a fault.
-/
namespace MovingHeap
namespace Heap

/-- The position of the block that `r` refers to. -/
def index? (h : Heap) (r : Ref) : Option Nat :=
  if r.epoch = h.epoch ∧ h.start ≤ r.slot ∧ r.slot < h.next then some (r.slot - h.start)
  else none

def lookup (h : Heap) (r : Ref) : Option Block := (h.index? r).bind fun i => h.blocks[i]?

/-- Whether `r` has the current epoch and a slot not before the first: such a reference, if it
does not resolve, was never given out. -/
def isAhead (h : Heap) (r : Ref) : Bool := r.epoch == h.epoch && h.start ≤ r.slot

/-- The fault of using `r` where it does not resolve. -/
def invalid (h : Heap) (r : Ref) : Fault :=
  if h.isAhead r then .dangling r.slot h.start h.next else .stale r h.epoch

def resolve (h : Heap) (r : Ref) : Except Fault Block :=
  match h.lookup r with
  | some b => .ok b
  | none => .error (h.invalid r)

/-- The block that `w` refers to, or nothing for an immediate. -/
def block (h : Heap) (w : Word) : Except Fault (Option Block) :=
  match w.ref? with
  | some r => some <$> h.resolve r
  | none => .ok none

/-- Whether `w` is an immediate or resolves. -/
def isCurrent (h : Heap) (w : Word) : Bool :=
  match w.ref? with
  | some r => (h.lookup r).isSome
  | none => true

def tag (h : Heap) (w : Word) : Except Fault (Option Tag) := (·.map Block.tag) <$> h.block w

/-- Words of the block without its header; none for an immediate. -/
def size (h : Heap) (w : Word) : Except Fault Nat := (·.elim 0 Block.size) <$> h.block w

def bytes (h : Heap) (w : Word) : Except Fault (Option Bytes) :=
  (·.bind Block.bytes?) <$> h.block w

/-- Item `i` of a sequence. -/
def item {α : Type} (xs : List α) (i : Nat) : Except Fault α :=
  match xs[i]? with
  | some x => .ok x
  | none => .error (.outOfRange xs.length i)

def field (h : Heap) (w : Word) (i : Nat) : Except Fault Word :=
  match w.ref? with
  | some r => do item (← h.resolve r).fields i
  | none => .error (.immediateField i w)

/-- The block with item `i` replaced. -/
def overwrite (b : Block) (i : Nat) (x : Word) : Except Fault Block :=
  match b with
  | .string _ => .error .stringWrite
  | _ =>
    if i < b.fields.length then .ok (b.withFields (b.fields.set i x))
    else .error (.outOfRange b.fields.length i)

def setField (h : Heap) (w : Word) (i : Nat) (x : Word) : Except Fault Heap :=
  match w.ref? with
  | some r => do
    let b ← overwrite (← h.resolve r) i x
    return { h with blocks := h.blocks.setIfInBounds (r.slot - h.start) b }
  | none => .error (.immediateField i w)

/-- The shape of a value as diagnostics name it. -/
inductive Outline
  | int
  | dangling
  | stale
  | string
  | identity
  | tuple (size : Nat)
  deriving DecidableEq

def Outline.text : Outline → String
  | int => "int"
  | dangling => "dangling block"
  | stale => "stale block"
  | string => "string"
  | identity => "exception identity"
  | tuple size => s!"block(tag=0, size={size})"

def outline (h : Heap) (w : Word) : Outline :=
  match w.ref? with
  | none => .int
  | some r =>
    match h.lookup r with
    | none => if h.isAhead r then .dangling else .stale
    | some (.string _) => .string
    | some (.object _) => .identity
    | some (.tuple fields) => .tuple fields.length

theorem lookup_eq_some_iff {h : Heap} {r : Ref} {b : Block} :
    h.lookup r = some b ↔
      r.epoch = h.epoch ∧ h.start ≤ r.slot ∧ h.blocks[r.slot - h.start]? = some b := by
  unfold lookup index?
  split
  next hr => simp [hr]
  next hr =>
    simp only [Option.bind_none, reduceCtorEq, false_iff, not_and]
    intro he hs hb
    obtain ⟨hi, -⟩ := Array.getElem?_eq_some_iff.1 hb
    exact hr ⟨he, hs, by unfold next; omega⟩

theorem isCurrent_iff {h : Heap} {w : Word} :
    h.isCurrent w = true ↔ ∀ r, w.ref? = some r → ∃ b, h.lookup r = some b := by
  unfold isCurrent
  cases hw : w.ref? <;> simp [Option.isSome_iff_exists]

theorem resolve_eq_ok_iff {h : Heap} {r : Ref} {b : Block} :
    h.resolve r = .ok b ↔ h.lookup r = some b := by
  unfold resolve
  split <;> simp_all

end Heap
end MovingHeap

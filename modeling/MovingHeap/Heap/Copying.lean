import MovingHeap.Block

/-!
Copying the live blocks of one space into the next. Forwarding a word copies its block at most
once and leaves its new slot behind; scanning forwards the fields of what has been copied.
-/
namespace MovingHeap

/-- A copy in progress. A source block is taken when it is copied, and its new slot is noted. -/
structure Copying where
  source : Array (Option Block)
  forwarding : Array (Option Nat)
  target : Array Block := #[]
  sourceStart : Nat
  sourceEpoch : Nat
  targetStart : Nat
  targetEpoch : Nat

namespace Copying

/-- The position in the source that `w` refers to, if it belongs to the source. -/
def position? (c : Copying) (w : Word) : Option Nat :=
  match w.ref? with
  | none => none
  | some r =>
    if r.epoch = c.sourceEpoch ∧ c.sourceStart ≤ r.slot ∧
        r.slot - c.sourceStart < c.forwarding.size then
      some (r.slot - c.sourceStart)
    else none

/-- The word for a slot of the target. -/
def targetWord (c : Copying) (slot : Nat) : Word := .ofRef ⟨slot, c.targetEpoch⟩

/-- The new word for `w`. A word that belongs to no source block stays as it is. -/
def forward (w : Word) : StateM Copying Word := fun c =>
  match c.position? w with
  | none => (w, c)
  | some i =>
    match c.forwarding[i]?.join with
    | some slot => (c.targetWord slot, c)
    | none =>
      match c.source[i]?.join with
      | none => (w, c)
      | some b =>
        let slot := c.targetStart + c.target.size
        (c.targetWord slot,
          { c with
            source := c.source.setIfInBounds i none
            forwarding := c.forwarding.setIfInBounds i (some slot)
            target := c.target.push b })

/-- Forwards the fields of the target block at `i`. -/
def scanBlock (i : Nat) (c : Copying) : Copying :=
  match c.target[i]? with
  | none => c
  | some b =>
    let (fields, c) := (b.fields.mapM forward).run c
    { c with target := c.target.setIfInBounds i (b.withFields fields) }

/-- Scans the target from position `i` on, at most `n` blocks of it. -/
def scanFrom : Nat → Nat → Copying → Copying
  | 0, _, c => c
  | n + 1, i, c => if i < c.target.size then scanFrom n (i + 1) (c.scanBlock i) else c

/-- Scans the whole target, which never has more blocks than the source. -/
def scan (c : Copying) : Copying := scanFrom c.source.size 0 c

theorem forward_of_position?_eq_none {c : Copying} {w : Word} (h : c.position? w = none) :
    forward w c = (w, c) := by
  simp only [forward, h]

end Copying
end MovingHeap

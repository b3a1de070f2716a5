import MovingHeap.Mutator.Frame

/-!
Allocation. Words that go into a new block are rooted while room is made for it, so the block
gets them as they have moved.
-/
namespace MovingHeap
namespace Mutator

/-- One more than the largest size: sizes have 64 bits. -/
def sizeRange : Nat := 0x10000000000000000

/-- One more than the largest number of fields that memory can be asked for. -/
def fieldRange : Nat := 0x1000000000000000

/-- The live words and those asked for must add up to a size, if a limit needs their sum. -/
def checkLimitSum (words : Nat) : Mutator Unit := fun h =>
  if h.config.tuning.maxWords.isSome && sizeRange ≤ h.liveWords + words then
    .error (.fault .sizeOverflow) h
  else .ok () h

/-- The sums that decide on a collection must be sizes. The limit's is not formed where the budget
has decided already. -/
def checkBudgetSum (words : Nat) : Mutator Unit := fun h =>
  if sizeRange ≤ h.sinceCollection + words then .error (.fault .sizeOverflow) h
  else if h.isOverBudget words then .ok () h
  else checkLimitSum words h

/-- A block of `size` fields that hold unit. -/
def blank (tag : Tag) (size : Nat) : Block :=
  if tag = .object then .object (List.replicate size .unit) else .tuple (List.replicate size .unit)

theorem eq_unit_of_mem_blank {tag : Tag} {size : Nat} {w : Word}
    (hw : w ∈ (blank tag size).fields) : w = .unit := by
  unfold blank at hw
  split at hw <;> exact List.eq_of_mem_replicate hw

/-- A blank block. Its size is a number from outside, so it may be too large to be added up or to
be had. -/
def allocFields (tag : Tag) (size : Nat) : Mutator Word := do
  refuse (tag = .string) .stringFields
  checkBudgetSum (size + 1)
  makeRoom (size + 1)
  checkLimitSum (size + 1)
  checkLimit (size + 1)
  refuse (fieldRange ≤ size) .capacityOverflow
  push (blank tag size)

def allocString (bytes : Bytes) : Mutator Word := allocate (.string bytes)

def allocTuple (fields : List Word) : Mutator Word := do
  let fields ← holding fields (reserve (fields.length + 1))
  push (.tuple fields)

theorem allocTuple_apply (fields : List Word) (h : Heap) :
    allocTuple fields h =
      match holding fields (reserve (fields.length + 1)) h with
      | .ok moved h' => push (.tuple moved) h'
      | .error e h' => .error e h' := by
  simp only [allocTuple, bind, EStateM.bind]
  cases holding fields (reserve (fields.length + 1)) h <;> rfl

/-- A present option. -/
def allocSome (w : Word) : Mutator Word := allocTuple [w]

/-- An array of new strings. -/
def allocStringArray (items : List Bytes) : Mutator Word :=
  frame do
    let roots ← items.mapM fun bytes => do root (← allocString bytes)
    let strings ← roots.mapM fun r => read (·.rootValue r)
    allocTuple strings

end Mutator
end MovingHeap

import MovingHeap.Heap.Access
import MovingHeap.Heap.Collect
import MovingHeap.Heap.Named

/-!
Computations that use the heap. One that stops, by a raise or by a fault, leaves the heap as it
was when it stopped. Where slots run out in the midst of a change, the program is at its end, and
what is left of the heap then is of no meaning.
-/
namespace MovingHeap

abbrev Mutator := EStateM Stop Heap

namespace Mutator

variable {α : Type}

def raise (r : Raise) : Mutator α := throw (.raise r)

def fault (f : Fault) : Mutator α := throw (.fault f)

theorem raise_apply (r : Raise) (h : Heap) : (raise r : Mutator α) h = .error (.raise r) h := rfl

theorem bind_apply {σ β : Type} (m : EStateM Stop σ α) (k : α → EStateM Stop σ β) (s : σ) :
    (m >>= k) s =
      match m s with
      | .ok a s' => k a s'
      | .error e s' => .error e s' := by
  simp only [bind, EStateM.bind]
  cases m s <;> rfl

theorem tryCatch_apply {σ : Type} (m : EStateM Stop σ α) (handle : Stop → EStateM Stop σ α)
    (s : σ) :
    tryCatch m handle s =
      match m s with
      | .ok a s' => .ok a s'
      | .error e s' => handle e s' := by
  change EStateM.tryCatch m handle s = _
  delta EStateM.tryCatch
  cases m s <;> rfl

/-- Stops with the fault `f` where `c` holds. -/
def refuse (c : Prop) [Decidable c] (f : Fault) : Mutator Unit := if c then fault f else pure ()

/-- Looks at the heap. -/
def read (f : Heap → Except Fault α) : Mutator α := fun h =>
  match f h with
  | .ok a => .ok a h
  | .error e => .error (.fault e) h

/-- Replaces the heap. -/
def update (f : Heap → Except Fault Heap) : Mutator Unit := fun h =>
  match f h with
  | .ok h' => .ok () h'
  | .error e => .error (.fault e) h

def collect : Mutator Unit := update Heap.collect

/-- Puts a block into the next slot, without collecting. -/
def push (b : Block) : Mutator Word := fun h =>
  if maxSlot < h.next then .error (.fault .slotsExhausted) h
  else
    let (w, h') := h.place b
    .ok w h'

end Mutator

namespace Heap

/-- Whether an allocation of `words` words has to be preceded by a collection whatever the
limit says. -/
def isOverBudget (h : Heap) (words : Nat) : Bool :=
  h.config.tuning.stress || h.config.tuning.minorWords < h.sinceCollection + words

/-- Whether `words` more words would live beyond the limit. -/
def exceedsLimit (h : Heap) (words : Nat) : Bool :=
  h.config.tuning.maxWords.any fun most => most < h.liveWords + words

end Heap

namespace Mutator

/-- Collects if stress mode, the budget or the limit asks for it. -/
def makeRoom (words : Nat) : Mutator Unit :=
  update fun h => if h.isOverBudget words || h.exceedsLimit words then h.collect else .ok h

/-- Raises if `words` more words would live beyond the limit. -/
def checkLimit (words : Nat) : Mutator Unit := fun h =>
  if h.exceedsLimit words then .error (.raise h.outOfMemory) h else .ok () h

/-- Makes room for a block of `words` words, its header included. Block references that no root
holds are invalid afterwards. -/
def reserve (words : Nat) : Mutator Unit := do
  makeRoom words
  checkLimit words

/-- Makes room and places the block. The block's own fields are not rooted meanwhile. -/
def allocate (b : Block) : Mutator Word := do
  reserve b.words
  push b

theorem reserve_apply (words : Nat) (h : Heap) :
    reserve words h =
      match makeRoom words h with
      | .ok _ h' => checkLimit words h'
      | .error e h' => .error e h' := by
  simp only [reserve, bind, EStateM.bind]
  cases makeRoom words h <;> rfl

theorem allocate_apply (b : Block) (h : Heap) :
    allocate b h =
      match reserve b.words h with
      | .ok _ h' => push b h'
      | .error e h' => .error e h' := by
  simp only [allocate, bind, EStateM.bind]
  cases reserve b.words h <;> rfl

end Mutator
end MovingHeap

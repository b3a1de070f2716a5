import MovingHeap.Word
import MovingHeap.Text.Utf8

/-!
Ways in which an operation ends without a result: faults, which are misuse of the heap, and
raises, which divert to the managed side.
-/
namespace MovingHeap

/-- Misuse of the heap, by cause. -/
inductive Fault
  | stale (ref : Ref) (now : Nat)
  | dangling (slot first next : Nat)
  | immediateField (index : Nat) (word : Word)
  | outOfRange (length index : Nat)
  | stringWrite
  | stringFields
  | slotTooLarge
  | epochTooLarge
  | deadRoot
  | slotsExhausted
  | sizeOverflow
  | capacityOverflow
  deriving DecidableEq

/-- Whether a fault is for want of slots. -/
def Fault.isExhaustion : Fault → Bool
  | slotsExhausted | slotTooLarge => true
  | _ => false

def Fault.message : Fault → String
  | stale r now =>
    s!"stale block reference (slot {r.slot}, epoch {r.epoch}, heap at {now}): " ++
      "value was not rooted across a collection"
  | dangling slot first next =>
    s!"dangling block reference (slot {slot}, live slots {first}..{next})"
  | immediateField i w => s!"field {i} of immediate {w.text}"
  | outOfRange length i => s!"index out of bounds: the len is {length} but the index is {i}"
  | stringWrite => "set_field on a string block"
  | stringFields => "use alloc_string for strings"
  | slotTooLarge => "slot index exceeds 47 bits"
  | epochTooLarge => "epoch exceeds 15 bits"
  | deadRoot => "root outlived its frame"
  | slotsExhausted => "managed heap slot space exhausted"
  | sizeOverflow => "attempt to add with overflow"
  | capacityOverflow => "capacity overflow"

/-- A diversion to the managed side. `record` is a finished exception with arguments and
`constant` an identity raised alone; the other two carry a message. -/
inductive Raise
  | record (exn : Word)
  | constant (exn : Word)
  | failure (message : Bytes)
  | invalidArgument (message : String)
  deriving DecidableEq

def Raise.text : Raise → String
  | record exn => "exception raised: " ++ exn.text
  | constant exn => "constant exception raised: " ++ exn.text
  | failure message => "Failure: " ++ Utf8.lossy message
  | invalidArgument message => "Invalid_argument: " ++ message

inductive Stop
  | raise (r : Raise)
  | fault (f : Fault)
  deriving DecidableEq

/-- The word for `r`. The slot is checked before the epoch. -/
def Ref.word (r : Ref) : Except Fault Word :=
  if maxSlot < r.slot then .error .slotTooLarge
  else if maxEpoch < r.epoch then .error .epochTooLarge
  else .ok (.ofRef r)

theorem Ref.word_of_fits {r : Ref} (h : r.Fits) : r.word = .ok (.ofRef r) := by
  obtain ⟨hs, he⟩ := h
  rw [word, if_neg (Nat.not_lt.2 hs), if_neg (Nat.not_lt.2 he)]

end MovingHeap

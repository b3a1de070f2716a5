import MovingHeap.Heap.Exception
import MovingHeap.Mutator.Alloc

/-! Making exceptions, raising them, and turning a raise into the exception value it stands for. -/
namespace MovingHeap
namespace Mutator

variable {α : Type}

/-- A new exception identity. A number is used up only when the identity has been made. -/
def allocIdentity (name : String) : Mutator Word := do
  let text ← allocString (Utf8.encode name)
  let held ← holding [text] (reserve 3)
  let exn ← push (.object (held ++ [.ofInt (← get).nextIdentity]))
  modify fun h => { h with identities := h.nextIdentity }
  return exn

/-- The event of a raise, if events are recorded: it tells the name of the exception. -/
def noteRaise (traced : Bool) (exn : Word) : Mutator Unit :=
  if traced then do
    let _ ← read (·.exceptionName exn)
  else pure ()

/-- Raises the exception that is made of an identity and two arguments. -/
def raiseTwo (traced : Bool) (identity first second : Word) : Mutator α := do
  let exn ← allocTuple [identity, first, second]
  noteRaise traced exn
  raise (.record exn)

theorem raiseTwo_apply (traced : Bool) (identity first second : Word) (h : Heap) :
    (raiseTwo traced identity first second : Mutator α) h =
      match allocTuple [identity, first, second] h with
      | .ok exn h' =>
        match noteRaise traced exn h' with
        | .ok _ k => .error (.raise (.record exn)) k
        | .error e k => .error e k
      | .error e h' => .error e h' := by
  rw [raiseTwo, bind_apply]
  cases allocTuple [identity, first, second] h with
  | ok exn h' =>
    dsimp only
    rw [bind_apply]
    cases noteRaise traced exn h' <;> rfl
  | error e h' => rfl

def raiseOutOfMemory : Mutator α := do raise (← get).outOfMemory

/-- The value under `name`. -/
def named (name : Bytes) : Mutator Word := do
  match (← get).named name with
  | .ok w => return w
  | .error r => raise r

theorem named_apply (name : Bytes) (h : Heap) :
    named name h =
      match h.named name with
      | .ok w => .ok w h
      | .error r => .error (.raise r) h := by
  rw [named, bind_apply]
  change (match h.named name with
    | .ok w => pure w
    | .error r => raise r : Mutator Word) h = _
  cases h.named name <;> rfl

/-- A builtin exception with a message. -/
def allocMessage (which : Builtin) (message : Bytes) : Mutator Word := do
  let text ← allocString message
  let held ← holding [text] (reserve 3)
  push (.tuple ((← get).builtin which :: held))

/-- The exception of an allocation that may have been refused. -/
def orOutOfMemory (allocation : Mutator Word) : Mutator Word :=
  tryCatch allocation fun
    | .raise (.record exn) | .raise (.constant exn) => return exn
    | .raise _ => return (← get).builtin .outOfMemory
    | .fault f => fault f

theorem orOutOfMemory_apply (m : Mutator Word) (h : Heap) :
    orOutOfMemory m h =
      match m h with
      | .ok exn h' => .ok exn h'
      | .error (.raise (.record exn)) h' | .error (.raise (.constant exn)) h' => .ok exn h'
      | .error (.raise _) h' => .ok (h'.builtin .outOfMemory) h'
      | .error (.fault f) h' => .error (.fault f) h' := by
  rw [orOutOfMemory, tryCatch_apply]
  cases m h with
  | ok => rfl
  | error e h' =>
    cases e with
    | raise r => cases r <;> rfl
    | fault f => rfl

/-- The exception value that the managed side sees for a raise. A message that the heap cannot
hold gives way to the out-of-memory exception. -/
def realize : Raise → Mutator Word
  | .record exn | .constant exn => return exn
  | .failure message => orOutOfMemory (allocMessage .failure message)
  | .invalidArgument message =>
    orOutOfMemory (allocMessage .invalidArgument (Utf8.encode message))

/-- Puts an exception where the managed caller looks for one, in place of any earlier one. -/
def park (exn : Word) : Mutator Unit := modify fun h => { h with pending := some exn }

/-- Takes the pending exception. -/
def takePending : Mutator (Option Word) :=
  modifyGet fun h => (h.pending, { h with pending := none })

end Mutator
end MovingHeap

import MovingHeap.Client.Program
import MovingHeap.Client.Table
import MovingHeap.Entry

/-! The state of a running program, and how its operands are evaluated. -/
namespace MovingHeap.Client

structure Session where
  process : Process
  vars : Table Word := {}
  roots : Table Root := {}
  buffers : Table Buffer := {}
  arrays : Table BufferArray := {}
  /-- How many roots there were when the innermost frame was opened. -/
  frameStart : Nat := 0
  /-- Whether the events of raises are recorded. -/
  traced : Bool := false

/-- Why a step has no result. -/
inductive Interruption
  | undefined (operand : String)
  | mismatch (m : Mismatch)
  | stop (s : Stop)

abbrev SessionM := EStateM Interruption Session

namespace SessionM

variable {α : Type}

def undefined (operand : String) : SessionM α := throw (.undefined operand)

def call (c : Call α) : SessionM α := fun s =>
  match c s.process with
  | .ok a process => .ok a { s with process }
  | .error e process => .error (.stop e) { s with process }

def mutate (m : Mutator α) : SessionM α := call (.managed m)

def read (f : Heap → Except Fault α) : SessionM α := mutate (.read f)

def heap : SessionM Heap := return (← get).process.heap

def rootOf (handle : String) : SessionM Root := do
  match (← get).roots.get? handle with
  | some r => return r
  | none => undefined ("@" ++ handle)

def eval : Operand → SessionM Word
  | .word w => return w
  | .ref r => read fun _ => r.word
  | .var name => do
    match (← get).vars.get? name with
    | some w => return w
    | none => undefined ("$" ++ name)
  | .rooted handle => do
    let r ← rootOf handle
    read (·.rootValue r)
  | .builtin b => return (← heap).builtin b
  | .registered name => do
    match (← heap).named? (Utf8.encode name) with
    | some w => return w
    | none => undefined ("#" ++ name)

def evalAll (vs : List Operand) : SessionM (List Word) := vs.mapM eval

def evalRaise : RaiseForm → SessionM Raise
  | .record v => return .record (← eval v)
  | .constant v => return .constant (← eval v)
  | .failure message => return .failure message
  | .invalidArgument message => return .invalidArgument message

/-- A handle for `w`. -/
def narrow (s : Shape) (w : Word) : SessionM (Handle s) := do
  match ← read (·.narrow s w) with
  | .ok x => return x
  | .error m => throw (.mismatch m)

def evalTyped (s : Shape) (v : Typed) : SessionM (Handle s) := do
  let w ← eval v.operand
  if v.trusted then return ⟨w⟩ else narrow s w

/-- Keeps a word in a variable, if one is named. -/
def save (dest : Option String) (w : Word) : SessionM Word := do
  if let some name := dest then
    modify fun s => { s with vars := s.vars.insert name w }
  return w

def keepBuffer (keep : Option String) (b : Buffer) : SessionM Buffer := do
  if let some name := keep then
    modify fun s => { s with buffers := s.buffers.insert name b }
  return b

def keepArray (keep : Option String) (a : BufferArray) : SessionM BufferArray := do
  if let some name := keep then
    modify fun s => { s with arrays := s.arrays.insert name a }
  return a

def keepRoot (handle : String) (r : Root) : SessionM Unit :=
  modify fun s => { s with roots := s.roots.insert handle r }

end SessionM
end MovingHeap.Client

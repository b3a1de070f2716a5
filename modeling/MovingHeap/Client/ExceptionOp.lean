import MovingHeap.Client.Answer
import MovingHeap.Client.Session

/-! Steps on raises and exception values. -/
namespace MovingHeap.Client
open SessionM

/-- Keeps the record of a raise that has one. -/
def savingRecord {α : Type} (dest : Option String) (m : SessionM α) : SessionM α :=
  tryCatch m fun e => do
    if let .stop (.raise (.record exn)) := e then
      let _ ← save dest exn
    throw e

def ExceptionOp.run (dest : Option String) : ExceptionOp → SessionM Result
  | .raiseTwo identity first second => do
    let identity ← eval identity
    let first ← eval first
    let second ← eval second
    let traced := (← get).traced
    savingRecord dest (mutate (Mutator.raiseTwo traced identity first second))
  | .raiseOutOfMemory => mutate Mutator.raiseOutOfMemory
  | .raise form => do mutate (Mutator.raise (← evalRaise form))
  | .realize form => do
    return .word (← save dest (← mutate (Mutator.realize (← evalRaise form))))
  | .name v => do
    let w ← eval v
    return ((← read (·.exceptionName w)).map Result.text).getD .nothing
  | .args v chosen => do
    let w ← eval v
    let args ← read (·.exceptionArgs w)
    if let some arg := args[chosen]? then
      let _ ← save dest arg
    return .words args
  | .setPending v => do
    mutate (Mutator.park (← eval v))
    return .nothing
  | .takePending => do
    match ← mutate Mutator.takePending with
    | some w => return .word (← save dest w)
    | none => return .nothing

end MovingHeap.Client

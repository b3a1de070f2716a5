import MovingHeap.Client.Answer
import MovingHeap.Client.Session

/-! Steps that call the entry points. Native copies they give are read as C strings and freed. -/
namespace MovingHeap.Client
open SessionM

def visibleBytes (b : Option Buffer) : Result :=
  (b.map fun b => Result.bytes b.visible).getD .nothing

def EntryOp.run (dest : Option String) : EntryOp → SessionM Result
  | .allocate size => return .text (if ← call (Entry.allocate size) then "allocated" else "null")
  | .string v => do return visibleBytes (← call (Entry.string (← eval v)))
  | .stringOption v => do return visibleBytes (← call (Entry.stringOption (← eval v)))
  | .intOption v out => do
    let (written, out) ← call (Entry.intOption (← eval v) out)
    return .returned written out
  | .strings v measured cell => do
    let (a, length) ← call (Entry.strings (← eval v))
    return .copied a (if measured then length else cell)
  | .raiseTwo identity first second => do
    let identity ← eval identity
    let first ← eval first
    let second ← eval second
    call (Entry.raiseTwo (← get).traced identity first second)
    return .nothing
  | .raiseOutOfMemory => do
    call Entry.raiseOutOfMemory
    return .nothing
  | .named name => return .bits (← save dest (← call (Entry.named name)))
  | .isPending => return .count (if ← call Entry.isPending then 1 else 0)
  | .takeException => return .bits (← save dest (← call Entry.takeException))

end MovingHeap.Client

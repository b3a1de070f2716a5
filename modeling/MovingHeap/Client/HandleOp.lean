import MovingHeap.Client.Answer
import MovingHeap.Client.Session

/-! Steps that read through handles. -/
namespace MovingHeap.Client
open SessionM

def HandleOp.run (dest : Option String) : HandleOp → SessionM Result
  | .narrow v shape => do
    let x ← SessionM.narrow shape (← eval v)
    return .handle x.text (← save dest x.word)
  | .int v => return .number (← evalTyped .int v).value
  | .string v => do
    let x ← evalTyped .string v
    return .string (← read fun h => x.bytes h)
  | .option v payload => do
    let x ← evalTyped (.option payload) v
    match ← read fun h => x.payload h with
    | some y =>
      let _ ← save dest y.word
      return .option x.isAbsent (some y.text)
    | none => return .option x.isAbsent none
  | .element v shape i => do
    let x ← evalTyped (.array shape) v
    let y ← read fun h => x.element h i
    let _ ← save dest y.word
    return .text y.text
  | .elements v shape => do
    let x ← evalTyped (.array shape) v
    let ys ← read fun h => x.elements h
    return .elements (ys.map Handle.text)

end MovingHeap.Client

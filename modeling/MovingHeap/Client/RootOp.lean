import MovingHeap.Client.Answer
import MovingHeap.Client.Session

/-! Steps on local and named roots. -/
namespace MovingHeap.Client
open SessionM

def RootOp.run (dest : Option String) : RootOp → SessionM Result
  | .root v handle => do
    keepRoot handle (← mutate (Mutator.root (← eval v)))
    return .nothing
  | .rootAll vs handles => do
    let roots ← (← evalAll vs).mapM fun w => mutate (Mutator.root w)
    (handles.zip roots).forM fun (handle, r) => keepRoot handle r
    return .nothing
  | .set v handle => do
    let w ← eval v
    let r ← rootOf handle
    mutate (Mutator.update (·.setRoot r w))
    return .nothing
  | .view handle shape => do
    let r ← rootOf handle
    let x : Handle shape := ⟨← read (·.rootValue r)⟩
    return .text x.text
  | .frameLength => do
    let s ← get
    return .frameLength (s.process.heap.roots.length - s.frameStart)
  | .register v name => do
    let w ← eval v
    let old := (← heap).named? name
    mutate (modify (·.register name w))
    return (old.map Result.word).getD .nothing
  | .unregister name => do
    let old := (← heap).named? name
    mutate (modify (·.unregister name))
    return (old.map Result.word).getD .nothing
  | .named name => do
    match (← heap).named? name with
    | some w => return .word (← save dest w)
    | none => return .nothing
  | .namedOrRaise name => return .word (← save dest (← mutate (Mutator.named name)))

end MovingHeap.Client

import MovingHeap.Client.EntryOp
import MovingHeap.Client.ExceptionOp
import MovingHeap.Client.HandleOp
import MovingHeap.Client.HeapOp
import MovingHeap.Client.NativeOp
import MovingHeap.Client.RootOp

/-!
Running a program. Behind a boundary, the first step that raises ends the body, through all the
frames between; elsewhere the program goes on after a raise, and after a fault it always does.
-/
namespace MovingHeap.Client

def Op.run (dest : Option String) : Op → SessionM Result
  | .heap op => op.run dest
  | .root op => op.run dest
  | .exception op => op.run dest
  | .handle op => op.run dest
  | .native op => op.run
  | .entry op => op.run dest

/-- The answer for a step that was interrupted. -/
def Interruption.answer : Interruption → Answer
  | .undefined operand => .undefined operand
  | .mismatch m => .mismatch m
  | .stop (.raise r) => .raised r
  | .stop (.fault f) => .faulted f

/-- What ends a body behind a boundary. -/
def Interruption.raise? : Interruption → Option Raise
  | .mismatch m => some m.toRaise
  | .stop (.raise r) => some r
  | _ => none

/-- The answer of a computation, and its raise if it ended in one. -/
def answering (m : SessionM Answer) : StateM Session (Answer × Option Raise) := fun s =>
  match m s with
  | .ok a s => ((a, none), s)
  | .error e s => ((e.answer, e.raise?), s)

def Session.stats (s : Session) : Stats where
  collections := s.process.heap.collections
  allocated := s.process.heap.allocated
  liveBlocks := s.process.heap.blocks.size
  liveWords := s.process.heap.liveWords
  epoch := s.process.heap.epoch
  localRoots := s.process.heap.roots.length
  pending := s.process.heap.pending.isSome
  nativeAllocations := s.process.memory.allocations

/-- Opens a frame and gives back the start of the one around it. -/
def openFrame : StateM Session Nat :=
  modifyGet fun s => (s.frameStart, { s with frameStart := s.process.heap.roots.length })

/-- Drops the innermost frame, inside the one that starts at `outer`. -/
def dropFrame (outer : Nat) : StateM Session Unit :=
  modify fun s =>
    { s with
      frameStart := outer
      process.heap := s.process.heap.truncateRoots s.frameStart }

mutual

/-- The reply to a step, and the raise that it ended in. -/
def Step.run (guarded : Bool) : Step → StateM Session (Reply × Option Raise)
  | .op o dest => do
    let (answer, raised) ← answering (.done <$> o.run dest)
    return (.mk answer (← get).stats, raised)
  | .frame body => do
    let outer ← openFrame
    let (steps, raised) ← Step.runAll guarded body
    dropFrame outer
    return (.mk (.frame steps raised) (← get).stats, raised)
  | .attempt body dest => do
    let (steps, raised) ← Step.runAll true body
    let (answer, _) ← answering do
      let exn ← raised.mapM fun r => SessionM.mutate (Mutator.realize r)
      if let some exn := exn then
        let _ ← SessionM.save dest exn
      return .attempted steps exn
    return (.mk answer (← get).stats, none)
  | .park body => do
    let (steps, raised) ← Step.runAll true body
    let (answer, _) ← answering do
      if let some r := raised then
        SessionM.mutate do Mutator.park (← Mutator.realize r)
      return .parked steps raised.isNone
    return (.mk answer (← get).stats, none)

/-- The replies to the steps of a body, and the raise that ended it. -/
def Step.runAll (guarded : Bool) : List Step → StateM Session (List Reply × Option Raise)
  | [] => return ([], none)
  | step :: rest => do
    let (reply, raised) ← step.run guarded
    if guarded && raised.isSome then return ([reply], raised)
    let (replies, raised) ← Step.runAll guarded rest
    return (reply :: replies, raised)

end

/-- A session with a fresh heap. -/
def Session.new (config : Config) : Session := { process := { heap := .new config } }

/-- The counters at the start, and the replies to the steps. -/
def runProgram (config : Config) (steps : List Step) : Stats × List Reply :=
  let s := Session.new config
  (s.stats, ((Step.runAll false steps).run s).1.1)

end MovingHeap.Client

import MovingHeap.Native.Buffer
import MovingHeap.Shape

/-! What a program gets back for its steps. -/
namespace MovingHeap.Client

/-- The result of a step that came to its end. -/
inductive Result
  | nothing
  | word (w : Word)
  | bits (w : Word)
  | flag (b : Bool)
  | count (n : Nat)
  | number (n : Int)
  | text (s : String)
  | bytes (bs : Bytes)
  | block (b : Block)
  | words (ws : List Word)
  | graph (start : List Word) (blocks : List (Ref × Option Block))
  | config (c : Config)
  | frameLength (n : Nat)
  | handle (text : String) (w : Word)
  | string (bs : Bytes)
  | option (isAbsent : Bool) (payload : Option String)
  | elements (texts : List String)
  | buffer (b : Buffer)
  | array (a : BufferArray)
  | stored (written : Bool) (out : Int)
  | mapped (seen : Nat) (a : Option BufferArray)
  | mapStopped (seen : Nat) (s : Stop)
  | returned (written : Bool) (out : Option Int)
  | copied (a : Option BufferArray) (length : Nat)

/-- The counters of a heap and of native memory. -/
structure Stats where
  collections : Nat
  allocated : Nat
  liveBlocks : Nat
  liveWords : Nat
  epoch : Nat
  localRoots : Nat
  pending : Bool
  nativeAllocations : Nat

mutual

/-- A step's answer, and the counters after it. -/
inductive Reply
  | mk (answer : Answer) (stats : Stats)

inductive Answer
  | done (r : Result)
  | raised (r : Raise)
  | mismatch (m : Mismatch)
  | undefined (operand : String)
  | faulted (f : Fault)
  | frame (steps : List Reply) (raised : Option Raise)
  | attempted (steps : List Reply) (exn : Option Word)
  | parked (steps : List Reply) (returned : Bool)

end

end MovingHeap.Client

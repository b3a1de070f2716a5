import MovingHeap.Process

/-!
Entry points for native callers. They take words as they come; a raise stays behind as the
pending exception, and the caller gets a null result.
-/
namespace MovingHeap

/-- The name and version under which callers know the entry points. -/
def interfaceName : String := "interop"

def interfaceVersion : Nat := 1

namespace Entry

/-- Whether the memory was had. -/
def allocate (size : Nat) : Call Bool := do
  return (← Call.park (Call.native fun h => Native.allocate h size)).isSome

def string (w : Word) : Call (Option Buffer) :=
  Call.park do
    let x ← Call.narrow .string w
    Call.native fun h => Native.ofString h x

def stringOption (w : Word) : Call (Option Buffer) := do
  let copied ← Call.park do
    let x ← Call.narrow (.option .string) w
    Call.native fun h => Native.ofStringOption h x
  return copied.join

/-- Whether a number was written, and what `out` holds afterwards; `out` is missing where the
caller passes no place for it. -/
def intOption (w : Word) (out : Option Int) : Call (Bool × Option Int) := do
  let stored ← Call.park do
    let x ← Call.narrow (.option .int) w
    match out with
    | none => Call.raise (.invalidArgument "null output pointer")
    | some n => Call.managed (Mutator.read fun h => x.storeInt h n)
  match stored with
  | some (written, n) => return (written, some n)
  | none => return (false, out)

/-- The array and its length. -/
def strings (w : Word) : Call (Option BufferArray × Nat) := do
  let copied ← Call.park do
    let x ← Call.narrow (.array .string) w
    Call.native fun h => Native.ofStrings h x
  return (copied.join, copied.join.elim 0 BufferArray.length)

def raiseTwo (traced : Bool) (identity first second : Word) : Call Unit := do
  let _ : Option Unit ← Call.park (Call.managed (Mutator.raiseTwo traced identity first second))

def raiseOutOfMemory : Call Unit := do
  let _ : Option Unit ← Call.park (Call.managed Mutator.raiseOutOfMemory)

/-- The value under a name that is read as a C string; a null name is an error. -/
def named (name : Option Bytes) : Call Word := do
  let found ← Call.park do
    match name with
    | none => Call.raise (.invalidArgument "null name")
    | some bytes => Call.managed (Mutator.named (cString bytes))
  return found.getD .unit

def isPending : Call Bool := do
  return (← get).heap.pending.isSome

/-- The pending exception, or unit. -/
def takeException : Call Word := do
  return (← Call.managed Mutator.takePending).getD .unit

end Entry
end MovingHeap

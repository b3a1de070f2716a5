import MovingHeap.Mutator.Exception
import MovingHeap.Native.Conversion

/-!
A heap together with native memory, and the two ways in which native code is entered from the
managed side: its raises come back as exception values, or are parked as the pending exception.
-/
namespace MovingHeap

structure Process where
  heap : Heap
  memory : NativeMemory := {}

abbrev Call := EStateM Stop Process

namespace Call

variable {α : Type}

/-- Works on the heap. -/
def managed (m : Mutator α) : Call α := fun p =>
  match m p.heap with
  | .ok a heap => .ok a { p with heap }
  | .error e heap => .error e { p with heap }

/-- Works on native memory and reads the heap. -/
def native (n : Heap → Native Unit α) : Call α := fun p =>
  match n p.heap (p.memory, ()) with
  | .ok a (memory, _) => .ok a { p with memory }
  | .error e (memory, _) => .error e { p with memory }

def raise (r : Raise) : Call α := throw (.raise r)

/-- The result of `body`, or the exception value of its raise. -/
def attempt (body : Call α) : Call (Except Word α) :=
  tryCatch (.ok <$> body) fun
    | .raise r => .error <$> managed (Mutator.realize r)
    | .fault f => throw (.fault f)

/-- The result of `body`; its raise is parked, and there is no result. -/
def park (body : Call α) : Call (Option α) := do
  match ← attempt body with
  | .ok a => return some a
  | .error exn =>
    managed (Mutator.park exn)
    return none

/-- A handle for `w`; a word of another shape raises. -/
def narrow (s : Shape) (w : Word) : Call (Handle s) := do
  match ← managed (Mutator.read (·.narrow s w)) with
  | .ok x => return x
  | .error m => raise m.toRaise

end Call
end MovingHeap

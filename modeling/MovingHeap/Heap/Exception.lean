import MovingHeap.Heap.Access

/-!
Exception values. An identity is an object with a name and a number; it is an exception by
itself, and a tuple that begins with it is an exception with arguments.
-/
namespace MovingHeap
namespace Heap

/-- Whether `w` refers to an object. -/
def isObject (h : Heap) (w : Word) : Except Fault Bool := do
  return (← h.tag w) = some .object

/-- The identity of the exception `exn`, if it is one. -/
def identity? (h : Heap) (exn : Word) : Except Fault (Option Word) := do
  match ← h.block exn with
  | some (.object _) => return some exn
  | some (.tuple (first :: _)) => return if ← h.isObject first then some first else none
  | _ => return none

def exceptionName (h : Heap) (exn : Word) : Except Fault (Option String) := do
  match ← h.identity? exn with
  | none => return none
  | some id => return (← h.bytes (← h.field id 0)).map Utf8.lossy

/-- An identity raised alone has no arguments. -/
def exceptionArgs (h : Heap) (exn : Word) : Except Fault (List Word) := do
  match ← h.identity? exn with
  | none => return []
  | some id =>
    let fields := (← h.block exn).elim [] Block.fields
    return if id = exn then [] else fields.drop 1

end Heap
end MovingHeap

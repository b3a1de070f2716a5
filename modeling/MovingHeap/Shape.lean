import MovingHeap.Heap.Access

/-!
Shapes of values, and handles that carry the shape a word was checked against. A handle is as
short-lived as its word: a collection makes it stale.
-/
namespace MovingHeap

inductive Shape
  | any
  | int
  | string
  | option (payload : Shape)
  | array (element : Shape)
  deriving DecidableEq

/-- The name of a shape in reports. -/
def Shape.kind : Shape → String
  | any => "value"
  | int => "int"
  | string => "string"
  | option _ => "option"
  | array _ => "array"

structure Handle (s : Shape) where
  word : Word
  deriving DecidableEq

/-- A word that has not the shape it should have. -/
structure Mismatch where
  expected : Shape
  found : Heap.Outline
  deriving DecidableEq

def Mismatch.text (m : Mismatch) : String := s!"expected {m.expected.kind}, found {m.found.text}"

def Mismatch.toRaise (m : Mismatch) : Raise := .invalidArgument m.text

namespace Heap

/-- Whether `w` has a shape. Block references inside are followed as they stand. -/
def hasShape (h : Heap) : Shape → Word → Except Fault Bool
  | .any, _ => .ok true
  | .int, w => .ok w.isImmediate
  | .string, w => do return (← h.tag w) = some .string
  | .option s, w =>
    if w.isAbsent then .ok true
    else do
      match ← h.block w with
      | some (.tuple [x]) => h.hasShape s x
      | _ => return false
  | .array s, w => do
    match ← h.block w with
    | some (.tuple fields) => fields.allM (h.hasShape s)
    | _ => return false

/-- Wraps `w` if it has the shape `s`. A word that does not resolve is refused unread. -/
def narrow (h : Heap) (s : Shape) (w : Word) : Except Fault (Except Mismatch (Handle s)) := do
  if h.isCurrent w then
    if ← h.hasShape s w then return .ok ⟨w⟩
  return .error ⟨s, h.outline w⟩

end Heap

namespace Handle

variable {s : Shape}

/-- The word, inside the name of its wrapper. -/
def text (x : Handle s) : String :=
  match s with
  | .any => x.word.text
  | .int => s!"MlInt({x.word.text})"
  | .string => s!"MlString({x.word.text})"
  | .option _ => s!"MlOption({x.word.text})"
  | .array _ => s!"MlArray({x.word.text})"

def value (x : Handle .int) : Int := x.word.payload

/-- Nothing for a word that is no string. -/
def bytes (h : Heap) (x : Handle .string) : Except Fault Bytes := (·.getD []) <$> h.bytes x.word

def isAbsent (x : Handle (.option s)) : Bool := x.word.isAbsent

def payload (h : Heap) (x : Handle (.option s)) : Except Fault (Option (Handle s)) :=
  if x.isAbsent then .ok none else do return some ⟨← h.field x.word 0⟩

def length (h : Heap) (x : Handle (.array s)) : Except Fault Nat := h.size x.word

def element (h : Heap) (x : Handle (.array s)) (i : Nat) : Except Fault (Handle s) := do
  return ⟨← h.field x.word i⟩

def elements (h : Heap) (x : Handle (.array s)) : Except Fault (List (Handle s)) := do
  (List.range (← x.length h)).mapM (x.element h)

end Handle
end MovingHeap

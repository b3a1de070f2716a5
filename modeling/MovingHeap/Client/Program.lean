import MovingHeap.Mutator.Frame
import MovingHeap.Shape

/-!
Programs of a client: steps that name the values, roots and native copies they work on, and
bodies of steps inside frames or behind a boundary.
-/
namespace MovingHeap.Client

/-- A value, as a program names it. -/
inductive Operand
  | word (w : Word)
  | ref (r : Ref)
  | var (name : String)
  | rooted (name : String)
  | builtin (b : Builtin)
  | registered (name : String)

inductive RaiseForm
  | record (v : Operand)
  | constant (v : Operand)
  | failure (message : Bytes)
  | invalidArgument (message : String)

/-- Blocks and words. -/
inductive HeapOp
  | bind (v : Operand)
  | bits (v : Operand)
  | equal (a b : Operand)
  | allocFields (size : Nat) (tag : Tag)
  | allocString (bytes : Bytes)
  | allocTuple (vs : List Operand)
  | allocSome (v : Operand)
  | allocStringArray (items : List Bytes)
  | allocIdentity (name : String)
  | field (v : Operand) (i : Nat)
  | setField (v x : Operand) (i : Nat)
  | block (v : Operand)
  | lookup (v : Operand)
  | tag (v : Operand)
  | size (v : Operand)
  | bytes (v : Operand)
  | outline (v : Operand)
  | isCurrent (v : Operand)
  | graph (vs : List Operand)
  | collect (times : Nat)
  | config

/-- Local and named roots. -/
inductive RootOp
  | root (v : Operand) (handle : String)
  | rootAll (vs : List Operand) (handles : List String)
  | set (v : Operand) (handle : String)
  | view (handle : String) (shape : Shape)
  | frameLength
  | register (v : Operand) (name : Bytes)
  | unregister (name : Bytes)
  | named (name : Bytes)
  | namedOrRaise (name : Bytes)

/-- Raises and exception values. -/
inductive ExceptionOp
  | raiseTwo (identity first second : Operand)
  | raiseOutOfMemory
  | raise (form : RaiseForm)
  | realize (form : RaiseForm)
  | name (v : Operand)
  | args (v : Operand) (chosen : Nat)
  | setPending (v : Operand)
  | takePending

/-- A value that is to be used at a shape: checked against it, or taken on trust. -/
structure Typed where
  operand : Operand
  trusted : Bool

/-- Reading through handles. -/
inductive HandleOp
  | narrow (v : Operand) (shape : Shape)
  | int (v : Typed)
  | string (v : Typed)
  | option (v : Typed) (payload : Shape)
  | element (v : Typed) (shape : Shape) (i : Nat)
  | elements (v : Typed) (shape : Shape)

/-- What an element of an array becomes. -/
inductive Rendering
  | string
  | decimal
  | outline

/-- Copies in native memory; `keep` names the copy for later steps. A mapping may be told to raise
at the element of some number. -/
inductive NativeOp
  | string (v : Typed) (keep : Option String)
  | stringOption (v : Typed) (keep : Option String)
  | storeInt (v : Typed) (out : Int)
  | int (v : Typed)
  | strings (v : Typed) (keep : Option String)
  | map (v : Typed) (element : Shape) (rendering : Rendering)
      (failure : Option (Nat × RaiseForm)) (keep : Option String)
  | allocate (size : Nat)
  | copy (bytes : Bytes) (keep : Option String)
  | recall (name : String)
  | text (name : String)
  | item (name : String) (i : Nat)
  | free (name : String)
  | retake (name : String)

/-- Calls of the entry points. -/
inductive EntryOp
  | allocate (size : Nat)
  | string (v : Operand)
  | stringOption (v : Operand)
  | intOption (v : Operand) (out : Option Int)
  | strings (v : Operand) (measured : Bool) (cell : Nat)
  | raiseTwo (identity first second : Operand)
  | raiseOutOfMemory
  | named (name : Option Bytes)
  | isPending
  | takeException

inductive Op
  | heap (op : HeapOp)
  | root (op : RootOp)
  | exception (op : ExceptionOp)
  | handle (op : HandleOp)
  | native (op : NativeOp)
  | entry (op : EntryOp)

/-- One step. `dest` names the variable that takes the result. -/
inductive Step
  | op (op : Op) (dest : Option String)
  | frame (body : List Step)
  | attempt (body : List Step) (dest : Option String)
  | park (body : List Step)

end MovingHeap.Client

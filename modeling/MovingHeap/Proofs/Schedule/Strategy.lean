import MovingHeap.Heap.Exception
import MovingHeap.Mutator.Exception
import MovingHeap.Proofs.Collection.Order
import MovingHeap.Shape

/-!
Clients of a heap, and what they observe. A client keeps what it wants to keep in the roots, under
names or as the pending exception. What it reads or makes it holds until the next allocation; words
come from there only, and from immediates.
-/
namespace MovingHeap

/-- A word that a client passes on. -/
inductive Argument
  | int (n : Int)
  | held (i : Nat)
  deriving DecidableEq

/-- Unit stands in for a word that is not held. -/
def Argument.word (held : List Word) : Argument → Word
  | int n => .ofInt n
  | .held i => held[i]?.getD .unit

/-- The raise with `w` for its word, if it has one. -/
def Raise.withWord (w : Word) : Raise → Raise
  | record _ => record w
  | constant _ => constant w
  | r => r

/-- What a client can ask of a heap. -/
inductive Request
  | allocFields (tag : Tag) (size : Nat)
  | allocString (bytes : Bytes)
  | allocTuple (xs : List Argument)
  | allocSome (x : Argument)
  | allocStringArray (items : List Bytes)
  | allocIdentity (name : String)
  | raiseTwo (traced : Bool) (identity first second : Argument)
  | realize (r : Raise) (x : Argument)
  | raiseOutOfMemory
  | field (x : Argument) (i : Nat)
  | setField (x : Argument) (i : Nat) (y : Argument)
  | tag (x : Argument)
  | size (x : Argument)
  | bytes (x : Argument)
  | narrow (s : Shape) (x : Argument)
  | exceptionName (x : Argument)
  | exceptionArgs (x : Argument)
  | root (x : Argument)
  | rootValue (r : Root)
  | setRoot (r : Root) (x : Argument)
  | openFrame
  | closeFrame
  | register (name : Bytes) (x : Argument)
  | unregister (name : Bytes)
  | lookup (name : Bytes)
  | named (name : Bytes)
  | park (x : Argument)
  | takePending
  | forget

/-- What an answer says besides the words in it. -/
inductive Fact
  | none
  | root (r : Root)
  | tag (t : Option Tag)
  | size (n : Nat)
  | bytes (bs : Option Bytes)
  | name (s : Option String)
  | mismatch (m : Mismatch)
  | raise (r : Raise)
  deriving DecidableEq

namespace Request

/-- Whether the request may collect; a client holds nothing from before afterwards. -/
def allocates : Request → Bool
  | allocFields .. | allocString _ | allocTuple _ | allocSome _ | allocStringArray _
  | allocIdentity _ | raiseTwo .. | realize .. => true
  | _ => false

/-- The words that are still held after the request. -/
def kept (held : List Word) (r : Request) : List Word :=
  match r with
  | forget => []
  | r => if r.allocates then [] else held

/-- Carries the request out for a client that holds `held` and has opened `frames`, of which each
is known by the number of roots before it. Gives a fact and new words to hold. -/
def run (held : List Word) (frames : List Nat) : Request → Mutator (Fact × List Word)
  | allocFields t n => return (.none, [← Mutator.allocFields t n])
  | allocString bs => return (.none, [← Mutator.allocString bs])
  | allocTuple xs => return (.none, [← Mutator.allocTuple (xs.map (·.word held))])
  | allocSome x => return (.none, [← Mutator.allocSome (x.word held)])
  | allocStringArray items => return (.none, [← Mutator.allocStringArray items])
  | allocIdentity name => return (.none, [← Mutator.allocIdentity name])
  | raiseTwo traced identity first second =>
    Mutator.raiseTwo traced (identity.word held) (first.word held) (second.word held)
  | realize r x => return (.none, [← Mutator.realize (r.withWord (x.word held))])
  | raiseOutOfMemory =>
    Mutator.read fun h => return (.raise h.outOfMemory.form, h.outOfMemory.words)
  | field x i => Mutator.read fun h => return (.none, [← h.field (x.word held) i])
  | setField x i y => do
    Mutator.update (·.setField (x.word held) i (y.word held))
    return (.none, [])
  | tag x => Mutator.read fun h => return (.tag (← h.tag (x.word held)), [])
  | size x => Mutator.read fun h => return (.size (← h.size (x.word held)), [])
  | bytes x => Mutator.read fun h => return (.bytes (← h.bytes (x.word held)), [])
  | narrow s x => Mutator.read fun h => do
    match ← h.narrow s (x.word held) with
    | .ok y => return (.none, [y.word])
    | .error m => return (.mismatch m, [])
  | exceptionName x => Mutator.read fun h => return (.name (← h.exceptionName (x.word held)), [])
  | exceptionArgs x => Mutator.read fun h => return (.none, ← h.exceptionArgs (x.word held))
  | root x => return (.root (← Mutator.root (x.word held)), [])
  | rootValue r => Mutator.read fun h => return (.none, [← h.rootValue r])
  | setRoot r x => do
    Mutator.update (·.setRoot r (x.word held))
    return (.none, [])
  | openFrame | forget => return (.none, [])
  | closeFrame => do
    modify fun h => h.truncateRoots (frames.headD h.roots.length)
    return (.none, [])
  | register name x => do
    let old := (← get).named? name
    modify (·.register name (x.word held))
    return (.none, old.toList)
  | unregister name => do
    let old := (← get).named? name
    modify (·.unregister name)
    return (.none, old.toList)
  | lookup name => Mutator.read fun h => return (.none, (h.named? name).toList)
  | named name => Mutator.read fun h =>
    match h.named name with
    | .ok w => return (.none, [w])
    | .error r => return (.raise r.form, r.words)
  | park x => do
    Mutator.park (x.word held)
    return (.none, [])
  | takePending => return (.none, (← Mutator.takePending).toList)

/-- The frames that are open after the request was made of `h`. -/
def framesAfter (h : Heap) (frames : List Nat) : Request → List Nat
  | openFrame => h.roots.length :: frames
  | closeFrame => frames.tail
  | _ => frames

end Request

/-- A word as it can be told from others: an immediate, or the number of a block. -/
inductive Item
  | immediate (w : Word)
  | block (n : Nat)
  deriving DecidableEq

structure Node where
  tag : Tag
  bytes : Option Bytes
  fields : List Item
  deriving DecidableEq

/-- Everything that can be reached, with the blocks numbered breadth first. -/
structure Picture where
  nodes : List Node
  roots : List Item
  registry : List (Bytes × Item)
  builtins : List Item
  pending : Option Item
  held : List Item
  deriving DecidableEq

namespace Heap

/-- `w` by its place in `order`. -/
def itemOf (h : Heap) (order : List Nat) (w : Word) : Item :=
  match h.slot? w with
  | some s => .block (order.idxOf s)
  | none => .immediate w

/-- The block in slot `s`, if there is one. -/
def nodeAt (h : Heap) (order : List Nat) (s : Nat) : Option Node :=
  (h.blockAt? s).map fun b => ⟨b.tag, b.bytes?, b.fields.map (h.itemOf order)⟩

/-- The picture of what the roots and the words `held` reach. -/
def picture (h : Heap) (held : List Word) : Picture :=
  let order := ({ h with roots := h.roots ++ held } : Heap).survivors
  { nodes := order.filterMap (h.nodeAt order)
    roots := h.roots.map (h.itemOf order)
    registry := h.registry.entries.map fun e => (e.1, h.itemOf order e.2)
    builtins := h.builtins.words.map (h.itemOf order)
    pending := h.pending.map (h.itemOf order)
    held := held.map (h.itemOf order) }

/-- Collects `n` times. -/
def collectTimes : Nat → Heap → Except Fault Heap
  | 0, h => .ok h
  | n + 1, h => do (← h.collect).collectTimes n

end Heap

/-- What a client sees of a request: a fault that ends it, or a fact, how many words are new, and
the picture. -/
inductive Observation
  | answer (fact : Fact) (fresh : Nat) (picture : Picture)
  | fault (f : Fault)
  deriving DecidableEq

/-- A heap in use. -/
structure Usage where
  heap : Heap
  held : List Word := []
  frames : List Nat := []

namespace Usage

/-- Makes a request. The heap is out of use after a fault. -/
def perform (r : Request) (s : Usage) : Observation × Option Usage :=
  match r.run s.held s.frames s.heap with
  | .ok (fact, ws) heap =>
    let held := r.kept s.held ++ ws
    (.answer fact ws.length (heap.picture held),
      some { heap, held, frames := r.framesAfter s.heap s.frames })
  | .error (.raise e) heap =>
    (.answer (.raise e.form) e.words.length (heap.picture e.words),
      some { heap, held := e.words, frames := s.frames })
  | .error (.fault f) _ => (.fault f, none)

/-- Collects `n` times between two requests, if nothing is held. -/
def collect (n : Nat) (s : Usage) : Except Fault Usage :=
  if s.held = [] then do return { s with heap := ← s.heap.collectTimes n } else .ok s

/-- Collects `n` times, and then makes a request. -/
def advance (n : Nat) (r : Request) (s : Usage) : Observation × Option Usage :=
  match s.collect n with
  | .ok s => s.perform r
  | .error f => (.fault f, none)

end Usage

/-- A client's way to choose a request by what it has seen. -/
abbrev Strategy := List Observation → Request

namespace Strategy

/-- What the client sees in its first requests, and the heap as it is then in use. There are `extra
i` more collections before request `i`. -/
def run (c : Strategy) (extra : Nat → Nat) (s : Usage) : Nat → List Observation × Option Usage
  | 0 => ([], some s)
  | n + 1 =>
    match c.run extra s n with
    | (seen, none) => (seen, none)
    | (seen, some s) =>
      let (o, s) := s.advance (extra n) (c seen)
      (seen ++ [o], s)

/-- What the client sees of a new heap in its first `n` requests. -/
def observe (c : Strategy) (config : Config) (extra : Nat → Nat) (n : Nat) : List Observation :=
  (c.run extra { heap := .new config } n).1

end Strategy
end MovingHeap

import MovingHeap.Block
import MovingHeap.Config
import MovingHeap.Fault
import MovingHeap.Registry

/-! The heap: one space of blocks in consecutive slots, its roots, and its counters. -/
namespace MovingHeap

/-- Exceptions that every heap has from the start. -/
inductive Builtin
  | outOfMemory
  | failure
  | invalidArgument
  | notFound
  deriving DecidableEq

def Builtin.name : Builtin → String
  | outOfMemory => "Out_of_memory"
  | failure => "Failure"
  | invalidArgument => "Invalid_argument"
  | notFound => "Not_found"

/-- The identities of the builtin exceptions. -/
structure Identities where
  outOfMemory : Word := .unit
  failure : Word := .unit
  invalidArgument : Word := .unit
  notFound : Word := .unit
  deriving DecidableEq

namespace Identities

def get (ids : Identities) : Builtin → Word
  | .outOfMemory => ids.outOfMemory
  | .failure => ids.failure
  | .invalidArgument => ids.invalidArgument
  | .notFound => ids.notFound

def mapM {m : Type → Type} [Monad m] (f : Word → m Word) (ids : Identities) : m Identities := do
  let outOfMemory ← f ids.outOfMemory
  let failure ← f ids.failure
  let invalidArgument ← f ids.invalidArgument
  let notFound ← f ids.notFound
  return { outOfMemory, failure, invalidArgument, notFound }

end Identities

/-- The slots in use are `start`, `start + 1`, and so on, one for each block. Slots are never
used twice: a collection moves the blocks to the slots after the last one. -/
structure Heap where
  config : Config
  blocks : Array Block := #[]
  start : Nat := 0
  epoch : Nat := 0
  /-- Local roots, oldest first. -/
  roots : List Word := []
  registry : Registry := {}
  builtins : Identities := {}
  pending : Option Word := none
  /-- How many exception identities have been numbered. -/
  identities : Nat := 0
  /-- Words allocated since the last collection. -/
  sinceCollection : Nat := 0
  liveWords : Nat := 0
  /-- Words allocated since the heap was made. -/
  allocated : Nat := 0
  collections : Nat := 0

namespace Heap

/-- The slot of the next block. -/
def next (h : Heap) : Nat := h.start + h.blocks.size

def builtin (h : Heap) (b : Builtin) : Word := h.builtins.get b

/-- Puts a block into the next slot. -/
def place (h : Heap) (b : Block) : Word × Heap :=
  (.ofRef ⟨h.next, h.epoch⟩,
    { h with
      blocks := h.blocks.push b
      sinceCollection := h.sinceCollection + b.words
      liveWords := h.liveWords + b.words
      allocated := h.allocated + b.words })

def nextIdentity (h : Heap) : Nat := h.identities + 1

/-- Makes the identity block of a builtin: its name and its number. -/
def define (h : Heap) (b : Builtin) : Word × Heap :=
  let (name, h) := h.place (.string (Utf8.encode b.name))
  let number := h.nextIdentity
  { h with identities := number }.place (.object [name, .ofInt number])

/-- A heap that holds the builtin exceptions and nothing else. -/
def new (config : Config) : Heap :=
  let (outOfMemory, h) := define { config } .outOfMemory
  let (failure, h) := h.define .failure
  let (invalidArgument, h) := h.define .invalidArgument
  let (notFound, h) := h.define .notFound
  let registry : Registry :=
    if config.registerOutOfMemory then
      h.registry.insert (Utf8.encode Builtin.outOfMemory.name) outOfMemory
    else h.registry
  { h with builtins := { outOfMemory, failure, invalidArgument, notFound }, registry }

theorem next_place (h : Heap) (b : Block) : (h.place b).2.next = h.next + 1 := by
  simp only [place, next, Array.size_push]
  omega

end Heap
end MovingHeap

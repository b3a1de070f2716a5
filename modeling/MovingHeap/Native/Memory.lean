import MovingHeap.Heap.Named
import MovingHeap.Native.Buffer

/-!
Native memory, of which account is kept of the requests, and of the regions that were served with
what was written there. Whether a request is served is up to the memory. A computation in it may
carry a state `σ` of its own and may read a heap, which it cannot change.
-/
namespace MovingHeap

/-- Bytes of a pointer. -/
def pointerSize : Nat := 8

/-- What a region is filled with, from its start. -/
inductive Filling
  | text (bytes : Bytes)
  | pointers (places : List Nat)

def Filling.size : Filling → Nat
  | text bytes => bytes.length
  | pointers places => places.length * pointerSize

/-- A region of native memory that covers what it is filled with. -/
structure Region where
  size : Nat
  filling : Filling := .text []
  fits : filling.size ≤ size := by exact Nat.zero_le _

/-- A filling that the region does not cover is not written. -/
def Region.fill (r : Region) (filling : Filling) : Region :=
  if fits : filling.size ≤ r.size then { size := r.size, filling, fits } else r

structure NativeMemory where
  /-- The regions that were served so far, by place; those that were given back stay on record. -/
  regions : Array Region := #[]
  /-- Requests so far, whether they were served or not. -/
  requests : Nat := 0
  /-- Whether the request with a number is refused if it is for so many bytes. -/
  refuses : Nat → Nat → Bool := fun _ size => 0x800000000000 < size

namespace NativeMemory

/-- Requests served so far. -/
def allocations (m : NativeMemory) : Nat := m.regions.size

/-- No object is larger. -/
def largest : Nat := 0x7FFFFFFFFFFFFFFF

/-- Whether the request with this number is served, for so many bytes. -/
def grants (m : NativeMemory) (number size : Nat) : Bool :=
  size ≤ largest && !m.refuses number size

/-- A request is served, at the next place. -/
def serve (m : NativeMemory) (size : Nat) : NativeMemory :=
  { m with regions := m.regions.push { size }, requests := m.requests + 1 }

/-- A request is not served. -/
def refuse (m : NativeMemory) : NativeMemory := { m with requests := m.requests + 1 }

def write (m : NativeMemory) (place : Nat) (filling : Filling) : NativeMemory :=
  { m with regions := m.regions.modify place (·.fill filling) }

end NativeMemory

abbrev Native (σ : Type) := EStateM Stop (NativeMemory × σ)

namespace Native

variable {σ α : Type}

def read (r : Except Fault α) : Native σ α := fun s =>
  match r with
  | .ok a => .ok a s
  | .error e => .error (.fault e) s

/-- Asks for `size` bytes and gives the place of the region; nothing counts as one byte. A refusal
raises the out-of-memory exception of `h`. -/
def allocate (h : Heap) (size : Nat) : Native σ Nat := fun s =>
  if s.1.grants s.1.requests (max size 1) then
    .ok s.1.regions.size (s.1.serve (max size 1), s.2)
  else .error (.raise h.outOfMemory) (s.1.refuse, s.2)

def write (place : Nat) (filling : Filling) : Native σ Unit :=
  modify fun s => (s.1.write place filling, s.2)

/-- A buffer that holds `bytes`. -/
def copy (h : Heap) (bytes : Bytes) : Native σ Buffer := do
  let place ← allocate h (bytes.length + 1)
  let b : Buffer := { place, bytes }
  write place (.text b.terminated)
  return b

end Native
end MovingHeap

import MovingHeap.Native.Memory
import MovingHeap.Shape

/-! Copies of managed data in native memory. -/
namespace MovingHeap

/-- The number of 32 signed bits that agrees with `n` in the low bits. -/
def narrowInt (n : Int) : Int := Int.bmod n 0x100000000

namespace Native

variable {σ : Type} {s : Shape}

def ofString (h : Heap) (x : Handle .string) : Native σ Buffer := do
  copy h (← read (x.bytes h))

def ofStringOption (h : Heap) (x : Handle (.option .string)) : Native σ (Option Buffer) := do
  match ← read (x.payload h) with
  | none => return none
  | some y => return some (← ofString h y)

/-- A request is never larger than the largest number of 64 bits. -/
def arraySize (length : Nat) : Nat := min (length * pointerSize) 0xFFFFFFFFFFFFFFFF

/-- Converts the elements in order, up to the first that raises. An empty array needs no
memory. -/
def mapArray (h : Heap) (x : Handle (.array s)) (f : Handle s → Native σ Buffer) :
    Native σ (Option BufferArray) := do
  let length ← read (x.length h)
  if length = 0 then return none
  let place ← allocate h (arraySize length)
  let items ← (List.range length).mapM fun i => do f (← read (x.element h i))
  write place (.pointers (items.map Buffer.place))
  return some { place, items }

def ofStrings (h : Heap) (x : Handle (.array .string)) : Native σ (Option BufferArray) :=
  mapArray h x (ofString h)

end Native

namespace Handle

/-- The payload of an integer option. -/
def int? (h : Heap) (x : Handle (.option .int)) : Except Fault (Option Int) :=
  (·.map Handle.value) <$> x.payload h

/-- The number that `out` holds after the payload, if there is one, was written to it. -/
def storeInt (h : Heap) (x : Handle (.option .int)) (out : Int) : Except Fault (Bool × Int) := do
  match ← x.int? h with
  | some n => return (true, narrowInt n)
  | none => return (false, out)

end Handle
end MovingHeap

import MovingHeap.Text.Quoted

/-! Buffers of native memory. Readers of C strings see a buffer up to its first zero byte. -/
namespace MovingHeap

/-- A buffer that owns its bytes and a terminator after them. -/
structure Buffer where
  /-- Where it is in native memory. -/
  place : Nat
  bytes : Bytes
  deriving DecidableEq

/-- What a reader of C strings sees. -/
def cString (bs : Bytes) : Bytes := bs.takeWhile (· != 0)

/-- The order of two C strings, by their bytes. -/
def compareCStrings (a b : Bytes) : Ordering :=
  if cString a < cString b then .lt
  else if cString b < cString a then .gt
  else .eq

namespace Buffer

def terminated (b : Buffer) : Bytes := b.bytes ++ [0]

def visible (b : Buffer) : Bytes := cString b.bytes

def length (b : Buffer) : Nat := b.bytes.length

/-- The buffer as it is known after it was given away and taken back: its length is measured. -/
def retaken (b : Buffer) : Buffer := { b with bytes := b.visible }

def text (b : Buffer) : String := s!"NativeString({Quoted.text (Utf8.lossy b.bytes)})"

end Buffer

/-- An array of pointers to buffers. -/
structure BufferArray where
  /-- Where the pointers are in native memory. -/
  place : Nat
  items : List Buffer
  deriving DecidableEq

namespace BufferArray

def length (a : BufferArray) : Nat := a.items.length

/-- The C string at position `i`. -/
def item? (a : BufferArray) (i : Nat) : Option Bytes := a.items[i]?.map Buffer.visible

def text (a : BufferArray) : String :=
  "[" ++ ", ".intercalate (a.items.map fun b => Quoted.bytes b.visible) ++ "]"

end BufferArray

theorem zero_notMem_cString (bs : Bytes) : 0 ∉ cString bs := by
  intro h
  have hz := List.all_eq_true.1 (List.all_takeWhile (l := bs) (p := (· != 0))) 0 h
  simp at hz

end MovingHeap

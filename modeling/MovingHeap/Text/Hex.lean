import MovingHeap.Text.Utf8

/-! Lower-case hexadecimal digits of bytes and 64-bit words. -/
namespace MovingHeap.Hex

def digit (n : Nat) : Char := Nat.digitChar (n % 16)

def byte (b : UInt8) : List Char := [digit (b.toNat / 16), digit b.toNat]

def bytes (bs : Bytes) : String :=
  String.ofList (bs.foldl (fun read b => digit b.toNat :: digit (b.toNat / 16) :: read) []).reverse

/-- Sixteen digits, highest first. -/
def word (w : UInt64) : String :=
  String.ofList ((List.range 16).reverse.map fun i => digit (w.toNat >>> (4 * i)))

end MovingHeap.Hex

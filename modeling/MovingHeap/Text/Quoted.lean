import MovingHeap.Text.Hex

/-! Quoted forms for diagnostics, of text and of byte strings. -/
namespace MovingHeap.Quoted

/-- A quote, a backslash and the control characters are escaped. -/
def char (c : Char) : List Char :=
  match c with
  | '\x00' => ['\\', '0']
  | '\t' => ['\\', 't']
  | '\n' => ['\\', 'n']
  | '\r' => ['\\', 'r']
  | '"' => ['\\', '"']
  | '\\' => ['\\', '\\']
  | c =>
    if c.toNat < 0x20 ∨ c.toNat = 0x7F then
      "\\u\x7b".toList ++ Nat.toDigits 16 c.toNat ++ ['\x7d']
    else [c]

/-- Bytes outside printable ASCII are written in hexadecimal. -/
def byte (b : UInt8) : List Char :=
  match Char.ofNat b.toNat with
  | '\t' => ['\\', 't']
  | '\n' => ['\\', 'n']
  | '\r' => ['\\', 'r']
  | '"' => ['\\', '"']
  | '\x27' => ['\\', '\x27']
  | '\\' => ['\\', '\\']
  | c => if 0x20 ≤ c.toNat ∧ c.toNat < 0x7F then [c] else ['\\', 'x'] ++ Hex.byte b

def text (s : String) : String := String.ofList ('"' :: s.toList.flatMap char ++ ['"'])

def bytes (bs : Bytes) : String := String.ofList ('"' :: bs.flatMap byte ++ ['"'])

end MovingHeap.Quoted

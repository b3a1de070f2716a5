/-!
UTF-8 over lists of bytes: encoding, decoding with each malformed stretch reported once, and
cutting at character boundaries.
-/
namespace MovingHeap

/-- A string of bytes of any content. -/
abbrev Bytes := List UInt8

namespace Utf8

def encode (s : String) : Bytes := s.toList.flatMap String.utf8EncodeChar

/-- A character that has begun: the range of its next byte, how many bytes follow that one,
and the bits read so far. -/
structure Pending where
  low : Nat
  high : Nat
  more : Nat
  bits : Nat

/-- What has been read, latest first, with `none` for a malformed stretch. -/
structure Decoder where
  read : List (Option Char) := []
  pending : Option Pending := none

namespace Decoder

/-- The characters of several bytes that `b` can begin. The range of the second byte shuts out
overlong forms, surrogates and what lies beyond the last code point. -/
def lead? (b : Nat) : Option Pending :=
  if 0xC2 ≤ b ∧ b ≤ 0xDF then some ⟨0x80, 0xBF, 0, b - 0xC0⟩
  else if b = 0xE0 then some ⟨0xA0, 0xBF, 1, 0⟩
  else if b = 0xED then some ⟨0x80, 0x9F, 1, 0xD⟩
  else if 0xE1 ≤ b ∧ b ≤ 0xEF then some ⟨0x80, 0xBF, 1, b - 0xE0⟩
  else if b = 0xF0 then some ⟨0x90, 0xBF, 2, 0⟩
  else if b = 0xF4 then some ⟨0x80, 0x8F, 2, 4⟩
  else if 0xF1 ≤ b ∧ b ≤ 0xF3 then some ⟨0x80, 0xBF, 2, b - 0xF0⟩
  else none

/-- Reads a byte where a character has to begin. -/
def start (read : List (Option Char)) (b : Nat) : Decoder :=
  if b < 0x80 then ⟨some (Char.ofNat b) :: read, none⟩
  else match lead? b with
    | some p => ⟨read, some p⟩
    | none => ⟨none :: read, none⟩

/-- A byte that cannot continue the character begun ends a malformed stretch and is read anew. -/
def feed (d : Decoder) (b : UInt8) : Decoder :=
  match d.pending with
  | none => start d.read b.toNat
  | some p =>
    if p.low ≤ b.toNat ∧ b.toNat ≤ p.high then
      let bits := p.bits * 64 + b.toNat % 64
      match p.more with
      | 0 => ⟨some (Char.ofNat bits) :: d.read, none⟩
      | more + 1 => ⟨d.read, some ⟨0x80, 0xBF, more, bits⟩⟩
    else start (none :: d.read) b.toNat

def finish (d : Decoder) : List (Option Char) :=
  match d.pending with
  | none => d.read.reverse
  | some _ => (none :: d.read).reverse

end Decoder

/-- The characters of `bs` in order, with `none` for each malformed stretch. -/
def decode (bs : Bytes) : List (Option Char) := (bs.foldl Decoder.feed {}).finish

def isValid (bs : Bytes) : Bool := (decode bs).all Option.isSome

/-- The text of `bs`, with a replacement character for each malformed stretch. -/
def lossy (bs : Bytes) : String :=
  String.ofList ((decode bs).map (·.getD (Char.ofNat 0xFFFD)))

def isContinuation (b : UInt8) : Bool := 0x80 ≤ b && b < 0xC0

/-- Whether a character can begin or the text end at position `i`. -/
def isBoundary (bs : Bytes) (i : Nat) : Bool :=
  i == 0 || i == bs.length || (bs[i]?).any fun b => !isContinuation b

/-- The last boundary that is not after the given position. -/
def lastBoundary (bs : Bytes) : Nat → Nat
  | 0 => 0
  | i + 1 => if isBoundary bs (i + 1) then i + 1 else lastBoundary bs i

/-- At most `limit` bytes of `bs`; characters are kept whole where `bs` is valid. -/
def cut (bs : Bytes) (limit : Nat) : Bytes :=
  if bs.length ≤ limit then bs
  else if isValid bs then bs.take (lastBoundary bs limit)
  else bs.take limit

theorem lastBoundary_le (bs : Bytes) (i : Nat) : lastBoundary bs i ≤ i := by
  induction i with
  | zero => simp [lastBoundary]
  | succ i ih =>
    rw [lastBoundary]
    split <;> omega

theorem length_cut_le (bs : Bytes) (limit : Nat) : (cut bs limit).length ≤ limit := by
  have h := lastBoundary_le bs limit
  unfold cut
  split
  · assumption
  · split <;> simp only [List.length_take] <;> omega

end Utf8
end MovingHeap

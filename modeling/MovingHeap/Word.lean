/-!
Tagged 64-bit words. A word is an immediate integer or a block reference; main statements say
that decoding inverts encoding on both sides.
-/
namespace MovingHeap

/-- Where a block is: its slot, and the epoch in which the reference was given out. -/
structure Ref where
  slot : Nat
  epoch : Nat
  deriving DecidableEq, Inhabited

/-- The largest slot a word can hold; slots have 47 bits. -/
def maxSlot : Nat := 0x7FFFFFFFFFFF

/-- The largest epoch a word can hold; epochs have 15 bits. -/
def maxEpoch : Nat := 0x7FFF

/-- A reference that a word can hold. -/
def Ref.Fits (r : Ref) : Prop := r.slot ≤ maxSlot ∧ r.epoch ≤ maxEpoch

instance (r : Ref) : Decidable r.Fits := inferInstanceAs (Decidable (_ ∧ _))

def Ref.text (r : Ref) : String := s!"Block(slot={r.slot}, epoch={r.epoch})"

/-- A value as it crosses the boundary. With bit 0 set it is an integer in bits 1 to 63; with
bit 0 clear, bits 1 to 47 hold a slot and bits 48 to 62 an epoch. Bit 63 of a reference means
nothing but counts in comparisons. -/
structure Word where
  bits : UInt64
  deriving DecidableEq, Inhabited

namespace Word

/-- The immediate for `n`, of which the low 63 bits are kept. -/
def ofInt (n : Int) : Word := ⟨UInt64.ofInt (2 * n + 1)⟩

/-- The reference word for `r`; faithful when `r` fits. -/
def ofRef (r : Ref) : Word := ⟨UInt64.ofNat (r.epoch * 0x1000000000000 + r.slot * 2)⟩

def unit : Word := ofInt 0

def ofBool (b : Bool) : Word := ofInt (if b then 1 else 0)

/-- The absent option is the word of unit. -/
def absent : Word := unit

def isImmediate (w : Word) : Bool := w.bits.toNat % 2 == 1

def isAbsent (w : Word) : Bool := w == absent

/-- Bits 1 to 63 as a signed number, whatever the word is. -/
def payload (w : Word) : Int := Int.bmod (w.bits.toNat / 2 : Nat) 0x8000000000000000

/-- The slot and epoch bits, whatever the word is. -/
def place (w : Word) : Ref :=
  ⟨w.bits.toNat / 2 % 0x800000000000, w.bits.toNat / 0x1000000000000 % 0x8000⟩

def int? (w : Word) : Option Int := if w.isImmediate then some w.payload else none

def ref? (w : Word) : Option Ref := if w.isImmediate then none else some w.place

def text (w : Word) : String :=
  if w.isImmediate then s!"Int({w.payload})" else w.place.text

@[simp]
theorem isImmediate_ofInt (n : Int) : (ofInt n).isImmediate = true := by
  simp only [isImmediate, ofInt, UInt64.ofInt, UInt64.toNat_ofNat', beq_iff_eq]
  omega

@[simp]
theorem ref?_ofInt (n : Int) : (ofInt n).ref? = none := by simp [ref?]

@[simp]
theorem payload_ofInt (n : Int) : (ofInt n).payload = Int.bmod n 0x8000000000000000 := by
  have h : (((ofInt n).bits.toNat / 2 : Nat) : Int) = n % ((0x8000000000000000 : Nat) : Int) := by
    simp only [ofInt, UInt64.ofInt, UInt64.toNat_ofNat']
    omega
  exact (congrArg (Int.bmod · 0x8000000000000000) h).trans (Int.emod_bmod n _)

theorem toNat_ofRef {r : Ref} (h : r.Fits) :
    (ofRef r).bits.toNat = r.epoch * 0x1000000000000 + r.slot * 2 := by
  obtain ⟨hs, he⟩ := h
  simp only [maxSlot, maxEpoch] at hs he
  simp only [ofRef, UInt64.toNat_ofNat']
  omega

theorem ref?_ofRef {r : Ref} (h : r.Fits) : (ofRef r).ref? = some r := by
  have hn := toNat_ofRef h
  obtain ⟨hs, he⟩ := h
  obtain ⟨s, e⟩ := r
  simp only [maxSlot, maxEpoch] at hs he hn
  simp only [ref?, isImmediate, place, hn]
  rw [if_neg (by rw [beq_iff_eq]; omega), Option.some.injEq, Ref.mk.injEq]
  omega

theorem place_fits (w : Word) : w.place.Fits := by
  simp only [Ref.Fits, place, maxSlot, maxEpoch]
  omega

end Word
end MovingHeap

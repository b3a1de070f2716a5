import MovingHeap.Fault

/-!
Words as a code for integers and references. The arithmetic of the encoding is that of masks and
shifts. Main statement: every word is the code of one integer of 63 bits or, but for bit 63, of one
reference, and every such integer and reference has a code.
-/
namespace MovingHeap

/-- `m` is the signed number congruent to `n`, of as many as there are residues of `modulus`. -/
structure IsSigned (modulus : Nat) (n m : Int) : Prop where
  low : -(modulus : Int) ≤ m * 2
  high : m * 2 < modulus
  congruent : m % modulus = n % modulus

theorem isSigned_bmod {modulus : Nat} (hpos : 0 < modulus) (n : Int) :
    IsSigned modulus n (Int.bmod n modulus) where
  low := by
    have hle := Int.le_bmod (x := n) hpos
    omega
  high := by
    have hlt := Int.bmod_lt (x := n) hpos
    omega
  congruent := Int.bmod_emod

theorem IsSigned.eq_bmod {modulus : Nat} {n m : Int} (hm : IsSigned modulus n m) :
    m = Int.bmod n modulus := by
  rw [← Int.bmod_eq_of_le_mul_two hm.low hm.high]
  rw [← Int.emod_bmod m, hm.congruent, Int.emod_bmod]

theorem Ref.word_eq_ok_iff {r : Ref} {w : Word} : r.word = .ok w ↔ r.Fits ∧ w = .ofRef r := by
  constructor
  · intro hw
    have hfits : r.Fits := by
      unfold word at hw
      split at hw
      · simp at hw
      · split at hw
        · simp at hw
        · exact ⟨by omega, by omega⟩
    rw [word_of_fits hfits] at hw
    exact ⟨hfits, (Except.ok.inj hw).symm⟩
  · rintro ⟨hfits, rfl⟩
    exact word_of_fits hfits

namespace Word

variable {w : Word} {n k : Int} {r s : Ref}

/-- Bits 1 to 47. -/
def slotMask : UInt64 := 0x0000FFFFFFFFFFFE

/-- Bits 48 to 62. -/
def epochMask : UInt64 := 0x7FFF000000000000

/-- The word without bit 63. -/
def clearTop (w : Word) : Word := ⟨w.bits &&& 0x7FFFFFFFFFFFFFFF⟩

theorem toNat_clearTop (w : Word) :
    w.clearTop.bits.toNat = w.bits.toNat % 0x8000000000000000 :=
  Nat.and_two_pow_sub_one_eq_mod w.bits.toNat 63

/-- The parts of a word, by masks and shifts. -/
structure Layout (w : Word) : Prop where
  isImmediate : w.isImmediate = (w.bits &&& 1 != 0)
  payload : w.payload = (w.bits.toInt64 >>> 1).toInt
  slot : w.place.slot = ((w.bits &&& slotMask) >>> 1).toNat
  epoch : w.place.epoch = ((w.bits &&& epochMask) >>> 48).toNat

theorem isImmediate_eq_mask (w : Word) : w.isImmediate = (w.bits &&& 1 != 0) := by
  have hbit : (w.bits &&& 1).toNat = w.bits.toNat % 2 :=
    Nat.and_two_pow_sub_one_eq_mod w.bits.toNat 1
  have hzero : (0 : UInt64).toNat = 0 := rfl
  rw [Bool.eq_iff_iff]
  simp only [isImmediate, beq_iff_eq, bne_iff_ne, ne_eq, ← UInt64.toNat_inj, hbit, hzero]
  omega

theorem slot_place_eq_mask (w : Word) : w.place.slot = ((w.bits &&& slotMask) >>> 1).toNat := by
  have hmask : slotMask.toNat >>> 1 = 2 ^ 47 - 1 := by decide
  rw [UInt64.toNat_shiftRight, UInt64.toNat_and]
  change _ = (w.bits.toNat &&& slotMask.toNat) >>> 1
  rw [Nat.shiftRight_and_distrib, hmask, Nat.and_two_pow_sub_one_eq_mod, Nat.shiftRight_eq_div_pow]
  rfl

theorem epoch_place_eq_mask (w : Word) :
    w.place.epoch = ((w.bits &&& epochMask) >>> 48).toNat := by
  have hmask : epochMask.toNat >>> 48 = 2 ^ 15 - 1 := by decide
  rw [UInt64.toNat_shiftRight, UInt64.toNat_and]
  change _ = (w.bits.toNat &&& epochMask.toNat) >>> 48
  rw [Nat.shiftRight_and_distrib, hmask, Nat.and_two_pow_sub_one_eq_mod, Nat.shiftRight_eq_div_pow]
  rfl

/-- The signed half of a number of 64 bits is the signed number of its upper 63. -/
theorem bmod_half {b : Nat} (hb : b < 0x10000000000000000) :
    Int.bmod (b / 2 : Nat) 0x8000000000000000 = Int.bmod b 0x10000000000000000 / 2 := by
  rw [Int.bmod_def, Int.bmod_def]
  split <;> split <;> omega

theorem payload_eq_shift (w : Word) : w.payload = (w.bits.toInt64 >>> 1).toInt := by
  have hshift : (w.bits.toInt64 >>> 1).toInt = w.bits.toBitVec.toInt >>> (1 : Nat) := by
    rw [← Int64.toInt_toBitVec, Int64.toBitVec_shiftRight]
    exact BitVec.toInt_sshiftRight
  rw [hshift, BitVec.toInt_eq_toNat_bmod, Int.shiftRight_eq_div_pow, UInt64.toNat_toBitVec]
  exact bmod_half w.bits.toNat_lt

theorem layout (w : Word) : w.Layout :=
  ⟨w.isImmediate_eq_mask, w.payload_eq_shift, w.slot_place_eq_mask, w.epoch_place_eq_mask⟩

theorem bits_ofInt (n : Int) : (ofInt n).bits = (UInt64.ofInt n <<< 1) ||| 1 := by
  have hshift : (UInt64.ofInt n <<< 1).toNat =
      2 ^ 1 * ((UInt64.ofInt n).toNat % 0x8000000000000000) := by
    simp only [UInt64.toNat_shiftLeft, UInt64.reduceToNat, Nat.reduceMod, Nat.shiftLeft_eq]
    omega
  rw [← UInt64.toNat_inj, UInt64.toNat_or, hshift]
  change _ = _ ||| 1
  rw [← Nat.two_pow_add_eq_or_of_lt (by decide)]
  simp only [ofInt, UInt64.ofInt, UInt64.toNat_ofNat']
  omega

theorem bits_ofRef (hr : r.Fits) :
    (ofRef r).bits = (UInt64.ofNat r.epoch <<< 48) ||| (UInt64.ofNat r.slot <<< 1) := by
  have hbits := toNat_ofRef hr
  obtain ⟨hslot, hepoch⟩ := hr
  simp only [maxSlot, maxEpoch] at hslot hepoch
  have hhigh : (UInt64.ofNat r.epoch <<< 48).toNat = 2 ^ 48 * r.epoch := by
    simp only [UInt64.toNat_shiftLeft, UInt64.toNat_ofNat', UInt64.reduceToNat, Nat.reduceMod,
      Nat.shiftLeft_eq]
    omega
  have hlow : (UInt64.ofNat r.slot <<< 1).toNat = r.slot * 2 := by
    simp only [UInt64.toNat_shiftLeft, UInt64.toNat_ofNat', UInt64.reduceToNat, Nat.reduceMod,
      Nat.shiftLeft_eq]
    omega
  rw [← UInt64.toNat_inj, hbits, UInt64.toNat_or, hhigh, hlow,
    ← Nat.two_pow_add_eq_or_of_lt (by omega)]
  omega

/-- Immediates are equal if they are so in the 63 bits that are kept. -/
theorem ofInt_eq_iff {m n : Int} :
    ofInt m = ofInt n ↔ m % 0x8000000000000000 = n % 0x8000000000000000 := by
  constructor
  · intro he
    have hbits := congrArg (fun w : Word => w.bits.toNat) he
    simp only [ofInt, UInt64.ofInt, UInt64.toNat_ofNat'] at hbits
    omega
  · intro he
    simp only [ofInt, UInt64.ofInt, mk.injEq, ← UInt64.toNat_inj, UInt64.toNat_ofNat']
    omega

@[simp]
theorem int?_ofInt (n : Int) : (ofInt n).int? = some (Int.bmod n 0x8000000000000000) := by
  simp [int?]

/-- A word is read as an integer or as a reference, and never as both. -/
theorem isSome_int?_ne (w : Word) : w.int?.isSome ≠ w.ref?.isSome := by
  unfold int? ref?
  split <;> simp

theorem int?_of_ref? (hw : w.ref? = some r) : w.int? = none := by
  have hne := w.isSome_int?_ne
  simpa [hw] using hne

theorem isSigned_payload (w : Word) :
    IsSigned 0x8000000000000000 (w.bits.toNat / 2 : Nat) w.payload :=
  isSigned_bmod (by decide) _

theorem ofInt_payload (hw : w.isImmediate = true) : ofInt w.payload = w := by
  have hodd : w.bits.toNat % 2 = 1 := by simpa [isImmediate] using hw
  have hlt := w.bits.toNat_lt
  have hcongruent := w.isSigned_payload.congruent
  obtain ⟨bits⟩ := w
  simp only [ofInt, UInt64.ofInt, mk.injEq, ← UInt64.toNat_inj, UInt64.toNat_ofNat'] at *
  omega

theorem ofInt_of_int? (hw : w.int? = some k) : ofInt k = w := by
  unfold int? at hw
  split at hw
  next hi => exact Option.some.inj hw ▸ ofInt_payload hi
  next => simp at hw

theorem bounds_of_int? (hw : w.int? = some k) :
    -0x4000000000000000 ≤ k ∧ k < 0x4000000000000000 := by
  unfold int? at hw
  split at hw
  next hi =>
    have hsigned := w.isSigned_payload
    obtain rfl := Option.some.inj hw
    have hlow := hsigned.low
    have hhigh := hsigned.high
    omega
  next => simp at hw

theorem fits_of_ref? (hw : w.ref? = some r) : r.Fits := by
  unfold ref? at hw
  split at hw
  · simp at hw
  · exact Option.some.inj hw ▸ w.place_fits

theorem int?_ofInt_eq_iff :
    (ofInt n).int? = some n ↔ -0x4000000000000000 ≤ n ∧ n < 0x4000000000000000 := by
  constructor
  · exact bounds_of_int?
  · rintro ⟨hlow, hhigh⟩
    have hsigned : IsSigned 0x8000000000000000 n n := ⟨by omega, by omega, rfl⟩
    rw [int?_ofInt, ← hsigned.eq_bmod]

/-- Reading a reference and encoding it again loses bit 63 only. -/
theorem ofRef_of_ref? (hw : w.ref? = some r) : ofRef r = w.clearTop := by
  have hbits := toNat_ofRef (fits_of_ref? hw)
  have htop := w.toNat_clearTop
  unfold ref? at hw
  split at hw
  next => simp at hw
  next hi =>
    have heven : w.bits.toNat % 2 = 0 := by
      simp only [isImmediate, beq_iff_eq] at hi
      omega
    have hlt := w.bits.toNat_lt
    obtain rfl := Option.some.inj hw
    have he : (ofRef w.place).bits = w.clearTop.bits := by
      rw [← UInt64.toNat_inj, htop, hbits]
      simp only [place]
      omega
    exact congrArg mk he

theorem clearTop_ofRef (hr : r.Fits) : (ofRef r).clearTop = ofRef r :=
  (ofRef_of_ref? (ref?_ofRef hr)).symm

theorem ne_ofInt_of_ref? (hw : w.ref? = some r) (n : Int) : w ≠ ofInt n := by
  rintro rfl
  simp at hw

/-- Reading a word and encoding what was read gives the word again, but for bit 63 of a reference;
encoding an integer or a reference and reading it gives it again, but for the top bit of an integer;
and nothing has the code of another thing. -/
theorem encoding_faithful :
    (∀ w : Word, w.Layout ∧ w.int?.isSome ≠ w.ref?.isSome ∧
      (∀ k, w.int? = some k → (-0x4000000000000000 ≤ k ∧ k < 0x4000000000000000) ∧ ofInt k = w) ∧
      ∀ r, w.ref? = some r → (r.slot ≤ maxSlot ∧ r.epoch ≤ maxEpoch) ∧ r.word = .ok w.clearTop) ∧
    (∀ n : Int, (ofInt n).bits = (UInt64.ofInt n <<< 1) ||| 1 ∧
      (∃ k, (ofInt n).int? = some k ∧ IsSigned 0x8000000000000000 n k) ∧
      ((ofInt n).int? = some n ↔ -0x4000000000000000 ≤ n ∧ n < 0x4000000000000000) ∧
      (ofInt n).ref? = none) ∧
    (∀ r : Ref, (∃ w, r.word = .ok w) ↔ r.slot ≤ maxSlot ∧ r.epoch ≤ maxEpoch) ∧
    ∀ (r : Ref) (w : Word), r.word = .ok w →
      w.bits = (UInt64.ofNat r.epoch <<< 48) ||| (UInt64.ofNat r.slot <<< 1) ∧
      w.ref? = some r ∧ w.int? = none ∧ w.isAbsent = false ∧ w.clearTop = w ∧
      (∀ s : Ref, s.word = .ok w → s = r) ∧ ∀ n, w ≠ ofInt n := by
  refine ⟨fun w => ⟨w.layout, w.isSome_int?_ne, fun k hk => ?_, fun r hr => ?_⟩, fun n => ?_,
    fun r => ?_, fun r w hw => ?_⟩
  · exact ⟨bounds_of_int? hk, ofInt_of_int? hk⟩
  · have hfits := fits_of_ref? hr
    exact ⟨hfits, Ref.word_eq_ok_iff.2 ⟨hfits, (ofRef_of_ref? hr).symm⟩⟩
  · exact ⟨bits_ofInt n, ⟨_, int?_ofInt n, isSigned_bmod (by decide) n⟩, int?_ofInt_eq_iff,
      ref?_ofInt n⟩
  · constructor
    · rintro ⟨w, hw⟩
      exact (Ref.word_eq_ok_iff.1 hw).1
    · intro hfits
      exact ⟨_, Ref.word_of_fits hfits⟩
  · obtain ⟨hfits, rfl⟩ := Ref.word_eq_ok_iff.1 hw
    have href := ref?_ofRef hfits
    have hpresent : ofRef r ≠ absent := ne_ofInt_of_ref? href 0
    refine ⟨bits_ofRef hfits, href, int?_of_ref? href, by simpa [isAbsent] using hpresent,
      clearTop_ofRef hfits, fun s hs => ?_, ne_ofInt_of_ref? href⟩
    obtain ⟨hs, he⟩ := Ref.word_eq_ok_iff.1 hs
    have hsame := ref?_ofRef hs
    rw [← he, href] at hsame
    exact (Option.some.inj hsame).symm

/-- The last slot under the last epoch, with bit 63 set; all bits set; and the first integer that is
too large. -/
theorem encoding_faithful_extreme :
    ((⟨0xFFFFFFFFFFFFFFFE⟩ : Word).ref? = some ⟨maxSlot, maxEpoch⟩ ∧
      (Ref.mk maxSlot maxEpoch).word = .ok ⟨0x7FFFFFFFFFFFFFFE⟩ ∧
      (⟨0x7FFFFFFFFFFFFFFE⟩ : Word).ref? = some ⟨maxSlot, maxEpoch⟩) ∧
    ((⟨0xFFFFFFFFFFFFFFFF⟩ : Word).int? = some (-1) ∧ ofInt (-1) = ⟨0xFFFFFFFFFFFFFFFF⟩) ∧
    (ofInt 0x4000000000000000).int? = some (-0x4000000000000000) ∧
    (ofInt 0x4000000000000000).int? ≠ some 0x4000000000000000 := by
  obtain ⟨hread, hint, -, hword⟩ := encoding_faithful
  have hlast : (⟨0xFFFFFFFFFFFFFFFE⟩ : Word).ref? = some ⟨maxSlot, maxEpoch⟩ := by decide
  have hones : (⟨0xFFFFFFFFFFFFFFFF⟩ : Word).int? = some (-1) := by decide
  obtain ⟨-, hencode⟩ := (hread _).2.2.2 _ hlast
  have hclear : clearTop ⟨0xFFFFFFFFFFFFFFFE⟩ = ⟨0x7FFFFFFFFFFFFFFE⟩ := by decide
  rw [hclear] at hencode
  refine ⟨⟨hlast, hencode, (hword _ _ hencode).2.1⟩, ⟨hones, ((hread _).2.2.1 _ hones).2⟩,
    by decide, fun he => ?_⟩
  have hbounds := (hint _).2.2.1.1 he
  omega

end Word
end MovingHeap

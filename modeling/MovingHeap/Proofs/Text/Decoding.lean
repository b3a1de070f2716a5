import MovingHeap.Text.Utf8

/-!
Decoding and encoding of UTF-8. Main statements: a text is read back from its bytes as it was, and
the bytes without a malformed stretch are those of a text.
-/
namespace MovingHeap.Utf8

open String (utf8EncodeChar)

/-- The bytes of a text. -/
def IsText (bs : Bytes) : Prop := ∃ s : String, encode s = bs

section EncodeChar

variable {c : Char} {n : Nat}

theorem toNat_ofNat (hn : n.isValidChar) : (Char.ofNat n).toNat = n := by
  rw [Char.ofNat, dif_pos hn]
  rfl

theorem isValidChar_toNat (c : Char) : c.toNat.isValidChar := c.valid

theorem encodeChar_one (hc : c.toNat < 0x80) : utf8EncodeChar c = [UInt8.ofNat c.toNat] := by
  have hone : c.val.toNat ≤ 0x7F := Nat.le_of_lt_succ hc
  exact if_pos hone

theorem encodeChar_two (hlo : 0x80 ≤ c.toNat) (hhi : c.toNat < 0x800) :
    utf8EncodeChar c =
      [UInt8.ofNat (c.toNat / 64 + 0xC0), UInt8.ofNat (c.toNat % 64 + 0x80)] := by
  have hval : c.val.toNat = c.toNat := rfl
  have hlead : c.toNat / 64 % 32 = c.toNat / 64 := by omega
  simp only [utf8EncodeChar, hval, hlead]
  rw [if_neg (by omega), if_pos (by omega)]

theorem encodeChar_three (hlo : 0x800 ≤ c.toNat) (hhi : c.toNat < 0x10000) :
    utf8EncodeChar c =
      [UInt8.ofNat (c.toNat / 4096 + 0xE0), UInt8.ofNat (c.toNat / 64 % 64 + 0x80),
        UInt8.ofNat (c.toNat % 64 + 0x80)] := by
  have hval : c.val.toNat = c.toNat := rfl
  have hlead : c.toNat / 4096 % 16 = c.toNat / 4096 := by omega
  simp only [utf8EncodeChar, hval, hlead]
  rw [if_neg (by omega), if_neg (by omega), if_pos (by omega)]

theorem encodeChar_four (hlo : 0x10000 ≤ c.toNat) :
    utf8EncodeChar c =
      [UInt8.ofNat (c.toNat / 262144 + 0xF0), UInt8.ofNat (c.toNat / 4096 % 64 + 0x80),
        UInt8.ofNat (c.toNat / 64 % 64 + 0x80), UInt8.ofNat (c.toNat % 64 + 0x80)] := by
  have hval : c.val.toNat = c.toNat := rfl
  have hvalid := isValidChar_toNat c
  have hlead : c.toNat / 262144 % 8 = c.toNat / 262144 := by
    simp only [Nat.isValidChar] at hvalid
    omega
  simp only [utf8EncodeChar, hval, hlead]
  rw [if_neg (by omega), if_neg (by omega), if_neg (by omega)]

end EncodeChar

namespace Decoder

section Lead

variable {n : Nat}

theorem lead?_two (hlo : 0x80 ≤ n) (hhi : n < 0x800) :
    lead? (n / 64 + 0xC0) = some ⟨0x80, 0xBF, 0, n / 64⟩ := by
  unfold lead?
  rw [if_pos (by omega), Nat.add_sub_cancel]

/-- The second byte of a character of three bytes is in the range that its lead asks for. -/
theorem lead?_three (hvalid : n.isValidChar) (hlo : 0x800 ≤ n) (hhi : n < 0x10000) :
    ∃ low high, lead? (n / 4096 + 0xE0) = some ⟨low, high, 1, n / 4096⟩ ∧
      low ≤ n / 64 % 64 + 0x80 ∧ n / 64 % 64 + 0x80 ≤ high := by
  simp only [Nat.isValidChar] at hvalid
  unfold lead?
  rw [if_neg (by omega)]
  split
  next hzero => exact ⟨_, _, by rw [show n / 4096 = 0 by omega], by omega, by omega⟩
  next =>
    split
    next hlast => exact ⟨_, _, by rw [show n / 4096 = 0xD by omega], by omega, by omega⟩
    next =>
      rw [if_pos (by omega), Nat.add_sub_cancel]
      exact ⟨_, _, rfl, by omega, by omega⟩

theorem lead?_four (hvalid : n.isValidChar) (hlo : 0x10000 ≤ n) :
    ∃ low high, lead? (n / 262144 + 0xF0) = some ⟨low, high, 2, n / 262144⟩ ∧
      low ≤ n / 4096 % 64 + 0x80 ∧ n / 4096 % 64 + 0x80 ≤ high := by
  simp only [Nat.isValidChar] at hvalid
  unfold lead?
  rw [if_neg (by omega), if_neg (by omega), if_neg (by omega), if_neg (by omega)]
  split
  next hzero => exact ⟨_, _, by rw [show n / 262144 = 0 by omega], by omega, by omega⟩
  next =>
    split
    next hlast => exact ⟨_, _, by rw [show n / 262144 = 4 by omega], by omega, by omega⟩
    next =>
      rw [if_pos (by omega), Nat.add_sub_cancel]
      exact ⟨_, _, rfl, by omega, by omega⟩

theorem lead?_continuation (hlo : 0x80 ≤ n) (hhi : n < 0xC0) : lead? n = none := by
  unfold lead?
  rw [if_neg (by omega), if_neg (by omega), if_neg (by omega), if_neg (by omega),
    if_neg (by omega), if_neg (by omega), if_neg (by omega)]

end Lead

section Feed

variable {read : List (Option Char)} {low high bits more n : Nat}

theorem toNat_byte (hn : n < 0x100) : (UInt8.ofNat n).toNat = n := by
  rw [UInt8.toNat_ofNat']
  omega

theorem feed_lead {p : Pending} (hn : n < 0x100) (hbig : 0x80 ≤ n) (hp : lead? n = some p) :
    feed ⟨read, none⟩ (UInt8.ofNat n) = ⟨read, some p⟩ := by
  simp only [feed, start, toNat_byte hn, hp]
  rw [if_neg (by omega)]

theorem feed_more (hn : n < 64) (hlow : low ≤ n + 0x80) (hhigh : n + 0x80 ≤ high) :
    feed ⟨read, some ⟨low, high, more + 1, bits⟩⟩ (UInt8.ofNat (n + 0x80)) =
      ⟨read, some ⟨0x80, 0xBF, more, bits * 64 + n⟩⟩ := by
  have hrest : (n + 0x80) % 64 = n := by omega
  simp only [feed, toNat_byte (n := n + 0x80) (by omega), hrest]
  rw [if_pos ⟨hlow, hhigh⟩]

theorem feed_last (hn : n < 64) :
    feed ⟨read, some ⟨0x80, 0xBF, 0, bits⟩⟩ (UInt8.ofNat (n + 0x80)) =
      ⟨some (Char.ofNat (bits * 64 + n)) :: read, none⟩ := by
  have hrest : (n + 0x80) % 64 = n := by omega
  simp only [feed, toNat_byte (n := n + 0x80) (by omega), hrest]
  rw [if_pos (by omega)]

theorem foldl_feed_encodeChar (read : List (Option Char)) (c : Char) :
    (utf8EncodeChar c).foldl feed ⟨read, none⟩ = ⟨some c :: read, none⟩ := by
  have hvalid := isValidChar_toNat c
  have hmost : c.toNat < 0x110000 := by
    simp only [Nat.isValidChar] at hvalid
    omega
  by_cases hone : c.toNat < 0x80
  · rw [encodeChar_one hone]
    simp only [List.foldl_cons, List.foldl_nil, feed, start, toNat_byte (n := c.toNat) (by omega)]
    rw [if_pos hone, Char.ofNat_toNat]
  by_cases htwo : c.toNat < 0x800
  · have hbits : c.toNat / 64 * 64 + c.toNat % 64 = c.toNat := by omega
    rw [encodeChar_two (by omega) htwo, List.foldl_cons,
      feed_lead (by omega) (by omega) (lead?_two (by omega) htwo), List.foldl_cons,
      feed_last (by omega), hbits, Char.ofNat_toNat, List.foldl_nil]
  by_cases hthree : c.toNat < 0x10000
  · obtain ⟨low, high, hlead, hlow, hhigh⟩ := lead?_three hvalid (by omega) hthree
    have hbits : (c.toNat / 4096 * 64 + c.toNat / 64 % 64) * 64 + c.toNat % 64 = c.toNat := by omega
    rw [encodeChar_three (by omega) hthree, List.foldl_cons,
      feed_lead (by omega) (by omega) hlead, List.foldl_cons, feed_more (by omega) hlow hhigh,
      List.foldl_cons, feed_last (by omega), hbits, Char.ofNat_toNat, List.foldl_nil]
  · obtain ⟨low, high, hlead, hlow, hhigh⟩ := lead?_four hvalid (by omega)
    have hbits : ((c.toNat / 262144 * 64 + c.toNat / 4096 % 64) * 64 + c.toNat / 64 % 64) * 64 +
        c.toNat % 64 = c.toNat := by omega
    rw [encodeChar_four (by omega), List.foldl_cons,
      feed_lead (by omega) (by omega) hlead, List.foldl_cons, feed_more (by omega) hlow hhigh,
      List.foldl_cons, feed_more (by omega) (by omega) (by omega),
      List.foldl_cons, feed_last (by omega), hbits, Char.ofNat_toNat, List.foldl_nil]

theorem foldl_feed_encode (read : List (Option Char)) (cs : List Char) :
    (cs.flatMap utf8EncodeChar).foldl feed ⟨read, none⟩ =
      ⟨(cs.map some).reverse ++ read, none⟩ := by
  induction cs generalizing read with
  | nil => rfl
  | cons c cs ih =>
    rw [List.flatMap_cons, List.foldl_append, foldl_feed_encodeChar, ih, List.map_cons,
      List.reverse_cons, List.append_assoc, List.singleton_append]

end Feed

end Decoder

theorem decode_encode (s : String) : decode (encode s) = s.toList.map some := by
  have hread := Decoder.foldl_feed_encode [] s.toList
  rw [List.append_nil] at hread
  rw [decode, encode, hread, Decoder.finish, List.reverse_reverse]

theorem isValid_encode (s : String) : isValid (encode s) = true := by
  simp [isValid, decode_encode]

/-- A text is not changed by being written and read. -/
theorem lossy_encode (s : String) : lossy (encode s) = s := by
  rw [lossy, decode_encode, List.map_map]
  exact (congrArg String.ofList (List.map_id _)).trans s.ofList_toList

/-- `part` begins a character. Any byte in the range goes on with it, and with `more` continuation
bytes after that one the whole is the encoding of the character whose bits have been read. -/
def Begins (part : Bytes) (low high bits : Nat) : Nat → Prop
  | 0 => ∀ b : UInt8, low ≤ b.toNat → b.toNat ≤ high →
    utf8EncodeChar (Char.ofNat (bits * 64 + b.toNat % 64)) = part ++ [b]
  | more + 1 => ∀ b : UInt8, low ≤ b.toNat → b.toNat ≤ high →
    Begins (part ++ [b]) 0x80 0xBF (bits * 64 + b.toNat % 64) more

section Begins

variable {a : UInt8} {low high : Nat}

theorem ofNat_eq_byte {b : UInt8} {n : Nat} (h : n = b.toNat) : UInt8.ofNat n = b := by
  rw [h, UInt8.ofNat_toNat]

theorem begins_two (hlo : 0xC2 ≤ a.toNat) (hhi : a.toNat ≤ 0xDF) :
    Begins [a] 0x80 0xBF (a.toNat - 0xC0) 0 := by
  intro b hlow hhigh
  have hchar := toNat_ofNat (n := (a.toNat - 0xC0) * 64 + b.toNat % 64) (.inl (by omega))
  rw [encodeChar_two (by omega) (by omega), hchar, ofNat_eq_byte (b := a) (by omega),
    ofNat_eq_byte (b := b) (by omega), List.singleton_append]

/-- The range of the second byte shuts out the overlong forms and the surrogates. -/
theorem begins_three (hlo : 0xE0 ≤ a.toNat) (hhi : a.toNat ≤ 0xEF) (hlow : 0x80 ≤ low)
    (hhigh : high ≤ 0xBF) (hlong : a.toNat = 0xE0 → 0xA0 ≤ low)
    (hsurrogate : a.toNat = 0xED → high ≤ 0x9F) : Begins [a] low high (a.toNat - 0xE0) 1 := by
  intro b hb hb' c hc hc'
  have hvalid : (((a.toNat - 0xE0) * 64 + b.toNat % 64) * 64 + c.toNat % 64).isValidChar := by
    simp only [Nat.isValidChar]
    omega
  have hchar := toNat_ofNat hvalid
  rw [encodeChar_three (by omega) (by omega), hchar, ofNat_eq_byte (b := a) (by omega),
    ofNat_eq_byte (b := b) (by omega), ofNat_eq_byte (b := c) (by omega)]
  rfl

/-- The range of the second byte shuts out the overlong forms and what is beyond the last code
point. -/
theorem begins_four (hlo : 0xF0 ≤ a.toNat) (hhi : a.toNat ≤ 0xF4) (hlow : 0x80 ≤ low)
    (hhigh : high ≤ 0xBF) (hlong : a.toNat = 0xF0 → 0x90 ≤ low)
    (hbeyond : a.toNat = 0xF4 → high ≤ 0x8F) : Begins [a] low high (a.toNat - 0xF0) 2 := by
  intro b hb hb' c hc hc' d hd hd'
  have hvalid : ((((a.toNat - 0xF0) * 64 + b.toNat % 64) * 64 + c.toNat % 64) * 64 +
      d.toNat % 64).isValidChar := by
    simp only [Nat.isValidChar]
    omega
  have hchar := toNat_ofNat hvalid
  rw [encodeChar_four (by omega), hchar, ofNat_eq_byte (b := a) (by omega),
    ofNat_eq_byte (b := b) (by omega), ofNat_eq_byte (b := c) (by omega),
    ofNat_eq_byte (b := d) (by omega)]
  rfl

theorem Decoder.begins_of_lead? {p : Pending} (hp : lead? a.toNat = some p) :
    Begins [a] p.low p.high p.bits p.more := by
  unfold lead? at hp
  split at hp
  next h =>
    obtain rfl := Option.some.inj hp
    exact begins_two h.1 h.2
  split at hp
  next h =>
    obtain rfl := Option.some.inj hp
    have hbegins : Begins [a] 0xA0 0xBF (a.toNat - 0xE0) 1 := begins_three (by omega)
      (by omega) (by omega) (by omega) (by omega) (by omega)
    simpa [h] using hbegins
  split at hp
  next h =>
    obtain rfl := Option.some.inj hp
    have hbegins : Begins [a] 0x80 0x9F (a.toNat - 0xE0) 1 := begins_three (by omega)
      (by omega) (by omega) (by omega) (by omega) (by omega)
    simpa [h] using hbegins
  split at hp
  next h =>
    obtain rfl := Option.some.inj hp
    exact begins_three (by omega) h.2 (Nat.le_refl _) (Nat.le_refl _) (by omega) (by omega)
  split at hp
  next h =>
    obtain rfl := Option.some.inj hp
    have hbegins : Begins [a] 0x90 0xBF (a.toNat - 0xF0) 2 := begins_four (by omega)
      (by omega) (by omega) (by omega) (by omega) (by omega)
    simpa [h] using hbegins
  split at hp
  next h =>
    obtain rfl := Option.some.inj hp
    have hbegins : Begins [a] 0x80 0x8F (a.toNat - 0xF0) 2 := begins_four (by omega)
      (by omega) (by omega) (by omega) (by omega) (by omega)
    simpa [h] using hbegins
  split at hp
  next h =>
    obtain rfl := Option.some.inj hp
    exact begins_four (by omega) (by omega) (Nat.le_refl _) (Nat.le_refl _) (by omega) (by omega)
  cases hp

end Begins

namespace Decoder

/-- Unless a malformed stretch has been read, the bytes so far are those of the characters read
and of the character begun. -/
def Reads (bs : Bytes) (d : Decoder) : Prop :=
  none ∈ d.read ∨ ∃ (cs : List Char) (part : Bytes), d.read = (cs.map some).reverse ∧
    bs = cs.flatMap utf8EncodeChar ++ part ∧
    match d.pending with
    | none => part = []
    | some p => Begins part p.low p.high p.bits p.more

variable {bs : Bytes} {d : Decoder} {read : List (Option Char)}

theorem mem_read_start {o : Option Char} (b : Nat) (ho : o ∈ read) : o ∈ (start read b).read := by
  unfold start
  split
  · exact List.mem_cons_of_mem _ ho
  · split
    · exact ho
    · exact List.mem_cons_of_mem _ ho

theorem mem_read_feed {o : Option Char} (b : UInt8) (ho : o ∈ d.read) : o ∈ (d.feed b).read := by
  simp only [feed]
  split
  · exact mem_read_start _ ho
  · split
    · split
      · exact List.mem_cons_of_mem _ ho
      · exact ho
    · exact mem_read_start _ (List.mem_cons_of_mem _ ho)

theorem mem_read_foldl {o : Option Char} (bs : Bytes) (ho : o ∈ d.read) :
    o ∈ (bs.foldl feed d).read := by
  induction bs generalizing d with
  | nil => exact ho
  | cons b bs ih => exact ih (mem_read_feed b ho)

theorem mem_finish {o : Option Char} (ho : o ∈ d.read) : o ∈ d.finish := by
  unfold finish
  split
  · exact List.mem_reverse.2 ho
  · exact List.mem_reverse.2 (List.mem_cons_of_mem _ ho)

theorem Reads.start {cs : List Char} (b : UInt8) (hread : read = (cs.map some).reverse) :
    Reads (cs.flatMap utf8EncodeChar ++ [b]) (start read b.toNat) := by
  unfold Decoder.start
  split
  next hone =>
    have hchar : (Char.ofNat b.toNat).toNat = b.toNat := toNat_ofNat (.inl (by omega))
    have hbyte : utf8EncodeChar (Char.ofNat b.toNat) = [b] := by
      rw [encodeChar_one (by omega), hchar, UInt8.ofNat_toNat]
    refine .inr ⟨cs ++ [Char.ofNat b.toNat], [], by simp [hread], ?_, rfl⟩
    simp [hbyte]
  next =>
    split
    next p hp => exact .inr ⟨cs, [b], hread, rfl, begins_of_lead? hp⟩
    next => exact .inl List.mem_cons_self

theorem Reads.nil : Reads [] {} := .inr ⟨[], [], rfl, rfl, rfl⟩

theorem Reads.feed (hd : Reads bs d) (b : UInt8) : Reads (bs ++ [b]) (d.feed b) := by
  rcases hd with hbad | ⟨cs, part, hread, rfl, hpart⟩
  · exact .inl (mem_read_feed b hbad)
  obtain ⟨read, pending⟩ := d
  cases pending with
  | none =>
    obtain rfl : part = [] := hpart
    rw [List.append_nil]
    exact .start b hread
  | some p =>
    obtain ⟨low, high, more, bits⟩ := p
    simp only [Decoder.feed]
    split
    next hb =>
      cases more with
      | zero =>
        refine .inr ⟨cs ++ [Char.ofNat (bits * 64 + b.toNat % 64)], [], ?_, ?_, rfl⟩
        · obtain rfl : read = (cs.map some).reverse := hread
          simp
        · have hlast := hpart b hb.1 hb.2
          rw [List.flatMap_append, List.flatMap_singleton, hlast, List.append_nil,
            List.append_assoc]
      | succ more =>
        exact .inr ⟨cs, part ++ [b], hread, List.append_assoc .., hpart b hb.1 hb.2⟩
    next => exact .inl (mem_read_start _ List.mem_cons_self)

theorem Reads.foldl (hd : Reads bs d) (bs' : Bytes) :
    Reads (bs ++ bs') (bs'.foldl Decoder.feed d) := by
  induction bs' generalizing bs d with
  | nil => rwa [List.append_nil]
  | cons b bs' ih =>
    rw [List.append_cons]
    exact ih (hd.feed b)

end Decoder

/-- The bytes without a malformed stretch are those of the texts. -/
theorem isValid_iff {bs : Bytes} : isValid bs = true ↔ IsText bs := by
  refine ⟨fun hvalid => ?_, fun ⟨s, hs⟩ => hs ▸ isValid_encode s⟩
  have hreads : Decoder.Reads bs (bs.foldl Decoder.feed {}) := Decoder.Reads.nil.foldl bs
  have hgood : none ∉ decode bs := fun hbad => absurd (List.all_eq_true.1 hvalid none hbad) nofun
  rcases hreads with hbad | ⟨cs, part, -, hbs, hpart⟩
  · exact absurd (Decoder.mem_finish hbad) hgood
  · simp only [decode, Decoder.finish] at hgood
    split at hgood
    next hnone =>
      rw [hnone] at hpart
      obtain rfl : part = [] := hpart
      exact ⟨String.ofList cs, by rw [encode, String.toList_ofList, hbs, List.append_nil]⟩
    next => exact absurd (List.mem_reverse.2 List.mem_cons_self) hgood

/-- A malformed stretch is not made good by what follows it. -/
theorem not_isText_of_mem_read {front : Bytes}
    (hbad : none ∈ (front.foldl Decoder.feed {}).read) (back : Bytes) :
    ¬ IsText (front ++ back) := by
  rw [← isValid_iff, isValid, List.all_eq_true]
  intro hvalid
  refine absurd (hvalid none (Decoder.mem_finish ?_)) nofun
  rw [List.foldl_append]
  exact Decoder.mem_read_foldl back hbad

end MovingHeap.Utf8

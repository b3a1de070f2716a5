import MovingHeap.Proofs.Text.Decoding

/-!
Cutting at character boundaries. Main statement: a text that is too long is cut to the longest of
its beginnings that fit and are texts, and other bytes are cut where the limit is.
-/
namespace MovingHeap.Utf8

open String (utf8EncodeChar)

variable {bs : Bytes} {i j limit : Nat}

theorem isText_flatMap (cs : List Char) : IsText (cs.flatMap utf8EncodeChar) :=
  ⟨String.ofList cs, by rw [encode, String.toList_ofList]⟩

theorem isText_nil : IsText [] := isText_flatMap []

theorem IsText.encodeChar_append {c : Char} (h : IsText bs) : IsText (utf8EncodeChar c ++ bs) := by
  obtain ⟨s, rfl⟩ := h
  rw [encode, ← List.flatMap_cons]
  exact isText_flatMap _

theorem isContinuation_iff {b : UInt8} :
    isContinuation b = true ↔ 0x80 ≤ b.toNat ∧ b.toNat < 0xC0 := by
  simp only [isContinuation, Bool.and_eq_true, decide_eq_true_eq, UInt8.le_iff_toNat_le,
    UInt8.lt_iff_toNat_lt]
  rfl

/-- All bytes of a character but the first are continuation bytes. -/
theorem isContinuation_of_mem_tail {c : Char} {b : UInt8} (hb : b ∈ (utf8EncodeChar c).tail) :
    isContinuation b = true := by
  have hrest (n : Nat) : isContinuation (UInt8.ofNat (n % 64 + 0x80)) = true := by
    rw [isContinuation_iff, Decoder.toNat_byte (by omega)]
    omega
  by_cases hone : c.toNat < 0x80
  · simp [encodeChar_one hone] at hb
  by_cases htwo : c.toNat < 0x800
  · simp only [encodeChar_two (by omega) htwo, List.tail_cons, List.mem_singleton] at hb
    exact hb ▸ hrest _
  by_cases hthree : c.toNat < 0x10000
  · simp only [encodeChar_three (by omega) hthree, List.tail_cons, List.mem_cons,
      List.not_mem_nil, or_false] at hb
    rcases hb with rfl | rfl <;> exact hrest _
  · simp only [encodeChar_four (c := c) (by omega), List.tail_cons, List.mem_cons, List.not_mem_nil,
      or_false] at hb
    rcases hb with rfl | rfl | rfl <;> exact hrest _

/-- Inside a character there is no boundary. -/
theorem isBoundary_inside {c : Char} (rest : Bytes) (hpos : 0 < i)
    (hi : i < (utf8EncodeChar c).length) : isBoundary (utf8EncodeChar c ++ rest) i = false := by
  have hlt : i < (utf8EncodeChar c ++ rest).length := by
    rw [List.length_append]
    omega
  have hbyte : isContinuation ((utf8EncodeChar c)[i]) = true := by
    apply isContinuation_of_mem_tail
    apply List.mem_of_getElem? (i := i - 1)
    rw [List.getElem?_tail, Nat.sub_add_cancel hpos, List.getElem?_eq_getElem hi]
  simp only [isBoundary, List.getElem?_append_left hi, List.getElem?_eq_getElem hi, Option.any_some,
    hbyte]
  simp only [Bool.not_true, Bool.or_false, Bool.or_eq_false_iff, beq_eq_false_iff_ne]
  omega

theorem isBoundary_append (front back : Bytes) (hi : front.length < i) :
    isBoundary (front ++ back) i = true → isBoundary back (i - front.length) = true := by
  intro h
  simp only [isBoundary, List.length_append, List.getElem?_append_right (Nat.le_of_lt hi),
    Bool.or_eq_true, beq_iff_eq] at h ⊢
  rcases h with (h | h) | h
  · omega
  · exact .inl (.inr (by omega))
  · exact .inr h

theorem isText_take_of_isBoundary (hbs : IsText bs) (hi : i ≤ bs.length)
    (hb : isBoundary bs i = true) : IsText (bs.take i) := by
  obtain ⟨s, rfl⟩ := hbs
  unfold encode at hi hb ⊢
  generalize s.toList = cs at hi hb ⊢
  induction cs generalizing i with
  | nil =>
    rw [List.flatMap_nil, List.take_nil]
    exact isText_nil
  | cons c cs ih =>
    rw [List.flatMap_cons] at hi hb ⊢
    rw [List.length_append] at hi
    rcases Nat.lt_trichotomy i (utf8EncodeChar c).length with hlt | rfl | hgt
    · rcases Nat.eq_zero_or_pos i with rfl | hpos
      · exact isText_nil
      · rw [isBoundary_inside _ hpos hlt] at hb
        cases hb
    · rw [List.take_left, ← List.append_nil (utf8EncodeChar c)]
      exact isText_nil.encodeChar_append
    · rw [List.take_append, List.take_of_length_le (Nat.le_of_lt hgt)]
      exact (ih (by omega) (isBoundary_append _ _ hgt hb)).encodeChar_append

/-- Where a text has ended, a longer one cannot go on with a continuation byte. -/
theorem IsText.not_isContinuation {b : UInt8} {rest : Bytes} (hfront : IsText bs)
    (hwhole : IsText (bs ++ b :: rest)) : isContinuation b = false := by
  obtain ⟨s, rfl⟩ := hfront
  rw [Bool.eq_false_iff]
  intro hb
  obtain ⟨hlo, hhi⟩ := isContinuation_iff.1 hb
  rw [List.append_cons] at hwhole
  refine not_isText_of_mem_read ?_ rest hwhole
  rw [List.foldl_append, encode, Decoder.foldl_feed_encode, List.foldl_cons, List.foldl_nil]
  simp only [Decoder.feed, Decoder.start, Decoder.lead?_continuation hlo hhi]
  rw [if_neg (by omega)]
  exact List.mem_cons_self

/-- The boundaries of a text are where its beginnings are texts. -/
theorem isBoundary_iff (hbs : IsText bs) (hi : i ≤ bs.length) :
    isBoundary bs i = true ↔ IsText (bs.take i) := by
  refine ⟨isText_take_of_isBoundary hbs hi, fun hfront => ?_⟩
  rcases Nat.eq_or_lt_of_le hi with rfl | hlt
  · simp [isBoundary]
  · have hsplit : bs.take i ++ bs[i] :: bs.drop (i + 1) = bs := by
      rw [← List.drop_eq_getElem_cons hlt, List.take_append_drop]
    have hbyte := hfront.not_isContinuation (hsplit.symm ▸ hbs)
    simp [isBoundary, List.getElem?_eq_getElem hlt, hbyte]

/-- A character has no more than four bytes, so a boundary is never far. -/
theorem exists_isText_take (hbs : IsText bs) (hi : i ≤ bs.length) :
    ∃ j ≤ i, i ≤ j + 3 ∧ IsText (bs.take j) := by
  obtain ⟨s, rfl⟩ := hbs
  unfold encode at hi ⊢
  generalize s.toList = cs at hi ⊢
  induction cs generalizing i with
  | nil => exact ⟨0, Nat.zero_le i, by simp at hi; omega, isText_nil⟩
  | cons c cs ih =>
    rw [List.flatMap_cons] at hi ⊢
    rw [List.length_append] at hi
    rcases Nat.lt_or_ge i (utf8EncodeChar c).length with hlt | hge
    · have hsize := c.utf8Size_le_four
      rw [String.length_utf8EncodeChar] at hlt
      exact ⟨0, Nat.zero_le i, by omega, isText_nil⟩
    · obtain ⟨j, hj, hnear, htext⟩ := ih (i := i - (utf8EncodeChar c).length) (by omega)
      refine ⟨(utf8EncodeChar c).length + j, by omega, by omega, ?_⟩
      rw [List.take_length_add_append]
      exact htext.encodeChar_append

/-- The search for a boundary from `i` backwards ends at `j`. It is an error to step back from
zero. -/
inductive Retreats (bs : Bytes) : Nat → Nat → Prop
  | stop {i : Nat} : isBoundary bs i = true → Retreats bs i i
  | back {i j : Nat} : isBoundary bs (i + 1) = false → Retreats bs i j → Retreats bs (i + 1) j

theorem retreats_lastBoundary (bs : Bytes) (i : Nat) : Retreats bs i (lastBoundary bs i) := by
  induction i with
  | zero => exact .stop (by simp [isBoundary])
  | succ i ih =>
    rw [lastBoundary]
    split
    next h => exact .stop h
    next h => exact .back (Bool.eq_false_iff.2 h) ih

theorem Retreats.isBoundary (hr : Retreats bs i j) : isBoundary bs j = true := by
  induction hr with
  | stop h => exact h
  | back _ _ ih => exact ih

/-- The search passes over no boundary. -/
theorem Retreats.le_of_isBoundary {k : Nat} (hr : Retreats bs i j) (hk : k ≤ i)
    (hb : Utf8.isBoundary bs k = true) : k ≤ j := by
  induction hr with
  | stop => exact hk
  | @back i j hno _ ih =>
    rcases Nat.eq_or_lt_of_le hk with rfl | hlt
    · rw [hno] at hb
      cases hb
    · exact ih (Nat.le_of_lt_succ hlt)

/-- `m` is the longest beginning of `bs` that is a text and has at most `limit` bytes. -/
structure IsLongest (bs : Bytes) (limit : Nat) (m : Bytes) : Prop where
  front : m <+: bs
  length_le : m.length ≤ limit
  isText : IsText m
  longest : ∀ t, t <+: bs → t.length ≤ limit → IsText t → t.length ≤ m.length

theorem isLongest_take (hbs : IsText bs) (hlong : limit < bs.length) :
    IsLongest bs limit (bs.take (lastBoundary bs limit)) := by
  have hle := lastBoundary_le bs limit
  have hretreats := retreats_lastBoundary bs limit
  refine ⟨List.take_prefix .., ?_, (isBoundary_iff hbs (by omega)).1 hretreats.isBoundary, ?_⟩
  · rw [List.length_take]
    omega
  · intro t ht hfits htext
    rw [List.prefix_iff_eq_take.1 ht] at htext
    have hbound := (isBoundary_iff hbs ht.length_le).2 htext
    have := hretreats.le_of_isBoundary hfits hbound
    rw [List.length_take]
    omega

/-- At most three bytes of what fits are given up. -/
theorem IsLongest.le_length_add {m : Bytes} (hm : IsLongest bs limit m) (hbs : IsText bs)
    (hlong : limit ≤ bs.length) : limit ≤ m.length + 3 := by
  obtain ⟨j, hj, hnear, htext⟩ := exists_isText_take hbs hlong
  have hlen : (bs.take j).length = j := List.length_take_of_le (by omega)
  have := hm.longest _ (List.take_prefix j bs) (by omega) htext
  omega

/-- `m` is `bs`, cut where it has more than `limit` bytes. In a text the place to cut at is found by
going back from `limit`. -/
structure IsCut (bs : Bytes) (limit : Nat) (m : Bytes) : Prop where
  whole : bs.length ≤ limit → m = bs
  text : limit < bs.length → IsText bs →
    IsLongest bs limit m ∧ limit - 3 ≤ m.length ∧ Retreats bs limit m.length
  bytes : limit < bs.length → ¬ IsText bs → m = bs.take limit

theorem isCut_cut (bs : Bytes) (limit : Nat) : IsCut bs limit (cut bs limit) where
  whole := fun hle => if_pos hle
  text := by
    intro hlong hbs
    have hcut : cut bs limit = bs.take (lastBoundary bs limit) := by
      rw [cut, if_neg (Nat.not_le_of_lt hlong), if_pos (isValid_iff.2 hbs)]
    have hlength : (bs.take (lastBoundary bs limit)).length = lastBoundary bs limit := by
      have hle := lastBoundary_le bs limit
      rw [List.length_take]
      omega
    have hlongest := isLongest_take hbs hlong
    have hnear := hlongest.le_length_add hbs (Nat.le_of_lt hlong)
    rw [hcut]
    refine ⟨hlongest, by omega, ?_⟩
    rw [hlength]
    exact retreats_lastBoundary bs limit
  bytes := by
    intro hlong hbs
    rw [cut, if_neg (Nat.not_le_of_lt hlong), if_neg fun hvalid => hbs (isValid_iff.1 hvalid)]

/-- Two characters of three bytes: the second does not fit. -/
example : cut (encode "\u20ac\u20ac") 5 = encode "\u20ac" := by decide

end MovingHeap.Utf8

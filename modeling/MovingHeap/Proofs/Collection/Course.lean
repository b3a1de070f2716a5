import MovingHeap.Proofs.Collection.Progress

/-!
The course of a collection. Main statements: after every call the copy is the one that belongs to
the slots visited so far, but for the block that is being scanned; and the scan comes to an end.
-/
namespace MovingHeap
namespace Heap

/-- The collection that has come to `p` has visited the slots `order`, each of them for a root or
for a field of a visited block. -/
structure Visits (h : Heap) (order : List Nat) (p : Progress) : Prop where
  copy : ∃ c, h.Follows order p.scanned c ∧
    p.copy = c.rewrite p.scanned p.fields (h.relocate order)
  roots : p.roots ⊆ h.rootWords
  reached : ∀ s ∈ order, h.Reaches h.rootWords s
  fields : p.fields = 0 ∨ ∃ s, order[p.scanned]? = some s ∧
    ∀ w ∈ (h.fieldsAt s).take p.fields, ∀ t, h.slot? w = some t → t ∈ order

variable {h : Heap} {order taken : List Nat} {p q : Progress} {w : Word}

/-- Forwarding a word copies the block that is visited for it. -/
theorem Follows.visit_eq {k : Nat} {c : Copying} (hc : h.Follows order k c) (w : Word) :
    h.visit order w = order ++ (c.taken? w).toList.map (h.start + ·) := by
  rw [Copying.taken?, hc.position?]
  cases hs : h.slot? w with
  | none => simp [visit_of_slot?_eq_none hs]
  | some s =>
    obtain ⟨hlo, hhi⟩ := bounds_of_slot? hs
    obtain ⟨b, hb⟩ := exists_block_of_slot? hs
    have hback : h.start + (s - h.start) = s := by omega
    rw [visit_of_slot? hs, Option.map_some, Option.filter_some, hc.forwarding s hlo hhi,
      hc.source s hlo hhi]
    split
    next hm => simp
    next hm => simp [hb, hback]

namespace Visits

/-- A collection has copied the blocks of the visited slots, in the order of visiting. -/
theorem append_taken (hp : h.Visits order p) :
    order ++ p.taken.map (h.start + ·) = h.visitAll order p.word?.toList := by
  obtain ⟨c, hc, he⟩ := hp.copy
  have htaken : p.copy.taken? = c.taken? := by
    rw [he]
    rfl
  rw [Progress.taken, htaken]
  cases hw : p.word? with
  | none => simp [visitAll]
  | some w => exact (hc.visit_eq w).symm

theorem forward (hp : h.Visits order p) (w : Word) :
    ∃ c, h.Follows (h.visit order w) p.scanned c ∧
      Copying.forward w p.copy = (h.relocate (h.visit order w) w,
        c.rewrite p.scanned p.fields (h.relocate (h.visit order w))) := by
  obtain ⟨c, hc, he⟩ := hp.copy
  obtain ⟨c', hforward, hc'⟩ := hc.forward w
  refine ⟨c', hc', ?_⟩
  rw [he]
  rcases hp.fields with hzero | ⟨s, hs, hfields⟩
  · rw [hzero, Copying.rewrite_zero, Copying.rewrite_zero, hforward]
  · have hlt := (List.getElem?_eq_some_iff.1 hs).1
    have hs' := getElem?_of_extends (h.prefix_visit order w) hs
    rw [Copying.forward_rewrite (hc.targetSize ▸ hlt), hforward]
    -- the fields that were forwarded before are not changed by what is visited now
    rw [Copying.rewrite_congr]
    intro b hb
    obtain ⟨b', hb'⟩ := hc'.listing.exists_block hs'
    obtain rfl : b' = b := Option.some.inj ((hc'.target_next hs' hb').symm.trans hb)
    apply Block.mapFirst_congr
    intro v hv
    exact (relocate_of_extends (h.prefix_visit order w)
      (hfields v (fieldsAt_of_blockAt? hb' ▸ hv))).symm

/-- The block that the scan has come to. -/
theorem target_scanned (hp : h.Visits order p) {s : Nat} {b : Block}
    (hs : order[p.scanned]? = some s) (hb : h.blockAt? s = some b) :
    p.copy.target[p.scanned]? = some (b.mapFirst p.fields (h.relocate order)) := by
  obtain ⟨c, hc, he⟩ := hp.copy
  rw [he, Copying.rewrite, Array.getElem?_modify, if_pos rfl, hc.target_next hs hb, Option.map_some]

/-- The scan is in a block as long as there is one. -/
theorem exists_scanned (hp : h.Visits order p) {b : Block}
    (hb : p.copy.target[p.scanned]? = some b) :
    ∃ s b', order[p.scanned]? = some s ∧ h.blockAt? s = some b' ∧
      b = b'.mapFirst p.fields (h.relocate order) := by
  obtain ⟨c, hc, he⟩ := hp.copy
  have hlt := (Array.getElem?_eq_some_iff.1 hb).1
  rw [he, Copying.rewrite, Array.size_modify, hc.targetSize] at hlt
  have hs := List.getElem?_eq_getElem hlt
  obtain ⟨b', hb'⟩ := hc.listing.exists_block hs
  refine ⟨_, b', hs, hb', ?_⟩
  rw [hp.target_scanned hs hb', Option.some.injEq] at hb
  exact hb.symm

theorem start (h : Heap) : h.Visits [] { copy := h.copying, roots := h.rootWords } where
  copy := ⟨h.copying, Follows.start h, by simp⟩
  roots := List.Subset.refl _
  reached := by simp
  fields := .inl rfl

theorem mem_of_scanned (hp : h.Visits order p) {s t : Nat} (hs : order[p.scanned]? = some s)
    (hw : w ∈ (h.fieldsAt s).take p.fields) (ht : h.slot? w = some t) : t ∈ order := by
  rcases hp.fields with hzero | ⟨s', hs', hfields⟩
  · simp [hzero] at hw
  · obtain rfl : s = s' := Option.some.inj (hs.symm.trans hs')
    exact hfields w hw t ht

/-- A root is forwarded. -/
theorem root (hp : h.Visits order p) {roots : List Word} (hr : p.roots = w :: roots) :
    h.Visits (h.visit order w) { p with copy := (Copying.forward w p.copy).2, roots } := by
  have hprefix := h.prefix_visit order w
  have hw : w ∈ h.rootWords := hp.roots (hr ▸ List.mem_cons_self)
  obtain ⟨c, hc, hforward⟩ := hp.forward w
  refine ⟨⟨c, hc, by rw [hforward]⟩, ?_, ?_, ?_⟩
  · exact fun v hv => hp.roots (hr ▸ List.mem_cons_of_mem _ hv)
  · intro s hs
    rcases mem_visit.1 hs with hs | hs
    · exact hp.reached s hs
    · exact .word hw hs
  · refine hp.fields.imp_right ?_
    rintro ⟨s, hs, hfields⟩
    exact ⟨s, getElem?_of_extends hprefix hs,
      fun v hv t ht => hprefix.subset (hfields v hv t ht)⟩

/-- A field is forwarded, and put back into its block. -/
theorem field (hp : h.Visits order p) {s : Nat} {b : Block} (hs : order[p.scanned]? = some s)
    (hb : h.blockAt? s = some b) (hw : b.fields[p.fields]? = some w) :
    h.Visits (h.visit order w) { p with
      copy := (Copying.forward w p.copy).2.putField p.scanned p.fields
        (Copying.forward w p.copy).1
      fields := p.fields + 1 } := by
  have hprefix := h.prefix_visit order w
  have hs' := getElem?_of_extends hprefix hs
  obtain ⟨c, hc, hforward⟩ := hp.forward w
  refine ⟨⟨c, hc, ?_⟩, hp.roots, ?_, .inr ⟨s, hs', ?_⟩⟩
  · rw [hforward]
    exact Copying.putField_rewrite (hc.target_next hs' hb) hw
  · intro t ht
    rcases mem_visit.1 ht with ht | ht
    · exact hp.reached t ht
    · exact .field (hp.reached s (List.mem_of_getElem? hs)) hb (List.mem_of_getElem? hw) ht
  · intro v hv t ht
    have hfields := fieldsAt_of_blockAt? hb
    rw [hfields, List.take_add_one, hw, Option.toList_some, List.mem_append,
      List.mem_singleton] at hv
    rcases hv with hv | rfl
    · exact hprefix.subset (hp.mem_of_scanned hs (hfields ▸ hv) ht)
    · exact mem_visit.2 (.inr ht)

/-- The scan leaves a block whose fields have all been forwarded. -/
theorem block (hp : h.Visits order p) {s : Nat} {b : Block} (hs : order[p.scanned]? = some s)
    (hb : h.blockAt? s = some b) (hlen : b.fields.length ≤ p.fields) :
    h.Visits order { p with scanned := p.scanned + 1, fields := 0 } := by
  have hfields : (h.fieldsAt s).take p.fields = b.fields := by
    rw [fieldsAt_of_blockAt? hb, List.take_of_length_le hlen]
  obtain ⟨c, hc, he⟩ := hp.copy
  have hdone := hc.rewritten hs hb fun w hw t ht => hp.mem_of_scanned hs (hfields ▸ hw) ht
  rw [← Copying.rewrite_of_length_le (hc.target_next hs hb) hlen] at hdone
  exact ⟨⟨_, hdone, by rw [Copying.rewrite_zero, he]⟩, hp.roots, hp.reached, .inl rfl⟩

theorem next (hp : h.Visits order p) (hq : p.next? = some q) :
    h.Visits (h.visitAll order p.word?.toList) q := by
  cases hr : p.roots with
  | cons w roots =>
    rw [Progress.next?_of_root hr, Option.some.injEq] at hq
    rw [Progress.word?_of_root hr, ← hq]
    exact hp.root hr
  | nil =>
    cases ht : p.copy.target[p.scanned]? with
    | none => simp [Progress.next?_eq_none_iff.2 ⟨hr, ht⟩] at hq
    | some b' =>
      obtain ⟨s, b, hs, hb, rfl⟩ := hp.exists_scanned ht
      have hfields := b.getElem?_fields_mapFirst p.fields (h.relocate order)
      rw [Progress.word?_of_scanned hr ht, hfields]
      cases hw : b.fields[p.fields]? with
      | some w =>
        rw [Progress.next?_of_field hr ht (hfields.trans hw), Option.some.injEq] at hq
        exact hq ▸ hp.field hs hb hw
      | none =>
        rw [Progress.next?_of_block hr ht (hfields.trans hw), Option.some.injEq] at hq
        exact hq ▸ hp.block hs hb (List.getElem?_eq_none_iff.1 hw)

end Visits

/-- After every call the blocks of the visited slots have been copied, in the order of visiting. -/
theorem Collecting.visits (hp : h.Collecting taken p) :
    h.Visits (taken.map (h.start + ·)) p := by
  induction hp with
  | start => exact .start h
  | next _ hq ih =>
    rw [List.map_append, ih.append_taken]
    exact ih.next hq

/-- With all roots forwarded, the slots `order` visited and `k` blocks scanned, a collection of `h`
comes to field `i` of the next block. -/
def ComesTo (h : Heap) (order : List Nat) (k i : Nat) : Prop :=
  ∃ taken copy, h.Collecting taken ⟨copy, [], k, i⟩ ∧ taken.map (h.start + ·) = order

namespace ComesTo

variable {i k n s : Nat} {b : Block}

theorem of_next {copy : Copying} (hp : h.Collecting taken p)
    (hq : p.next? = some ⟨copy, [], k, i⟩) :
    h.ComesTo (h.visitAll (taken.map (h.start + ·)) p.word?.toList) k i :=
  ⟨_, copy, hp.next hq, by rw [List.map_append, hp.visits.append_taken]⟩

theorem start (h : Heap) : h.ComesTo (h.visitAll [] h.rootWords) 0 0 := by
  have hroots : ∀ roots taken copy, h.Collecting taken ⟨copy, roots, 0, 0⟩ →
      h.ComesTo (h.visitAll (taken.map (h.start + ·)) roots) 0 0 := by
    intro roots
    induction roots with
    | nil => exact fun taken copy hp => ⟨taken, copy, hp, rfl⟩
    | cons w roots ih =>
      intro taken copy hp
      have hnext := ih _ _ (hp.next rfl)
      rw [List.map_append, hp.visits.append_taken] at hnext
      exact hnext
  exact hroots _ _ _ .start

theorem field (hc : h.ComesTo order k i) (hs : order[k]? = some s) (hb : h.blockAt? s = some b)
    (hw : b.fields[i]? = some w) : h.ComesTo (h.visit order w) k (i + 1) := by
  obtain ⟨taken, copy, hp, rfl⟩ := hc
  have htarget := hp.visits.target_scanned hs hb
  rw [← b.getElem?_fields_mapFirst i (h.relocate (taken.map (h.start + ·)))] at hw
  have hnext := of_next hp (Progress.next?_of_field rfl htarget hw)
  rw [Progress.word?_of_scanned rfl htarget, hw] at hnext
  exact hnext

theorem fields (hc : h.ComesTo order k 0) (hs : order[k]? = some s) (hb : h.blockAt? s = some b)
    (hi : i ≤ b.fields.length) : h.ComesTo (h.visitAll order (b.fields.take i)) k i := by
  induction i with
  | zero => exact hc
  | succ i ih =>
    have hs' := getElem?_of_extends (h.prefix_visitAll order (b.fields.take i)) hs
    have hnext := (ih (by omega)).field hs' hb (List.getElem?_eq_getElem hi)
    rw [List.take_succ_eq_append_getElem hi, visitAll, List.foldl_append]
    exact hnext

theorem leave (hc : h.ComesTo order k i) (hs : order[k]? = some s) (hb : h.blockAt? s = some b)
    (hi : b.fields[i]? = none) : h.ComesTo order (k + 1) 0 := by
  obtain ⟨taken, copy, hp, rfl⟩ := hc
  have htarget := hp.visits.target_scanned hs hb
  rw [← b.getElem?_fields_mapFirst i (h.relocate (taken.map (h.start + ·)))] at hi
  have hnext := of_next hp (Progress.next?_of_block rfl htarget hi)
  rw [Progress.word?_of_scanned rfl htarget, hi] at hnext
  exact hnext

theorem block (hc : h.ComesTo order k 0) (hs : order[k]? = some s) (hb : h.blockAt? s = some b) :
    h.ComesTo (h.visitAll order b.fields) (k + 1) 0 := by
  have hend := hc.fields hs hb (Nat.le_refl _)
  rw [List.take_length] at hend
  exact hend.leave (getElem?_of_extends (h.prefix_visitAll order b.fields) hs) hb
    (List.getElem?_eq_none (Nat.le_refl _))

/-- The turns of the scan, each of them call by call. -/
theorem scanFrom {c : Copying} (hc : h.ComesTo order k 0) (hf : h.Follows order k c) (n : Nat) :
    ∃ order' k', h.ComesTo order' k' 0 ∧ h.Follows order' k' (c.scanFrom n k) ∧
      (k' = k + n ∨ k' = order'.length) := by
  induction n generalizing k order c with
  | zero => exact ⟨order, k, hc, hf, .inl rfl⟩
  | succ n ih =>
    unfold Copying.scanFrom
    rw [hf.targetSize]
    by_cases hlt : k < order.length
    · have hs := List.getElem?_eq_getElem hlt
      obtain ⟨b, hb⟩ := hf.listing.exists_block hs
      have hturn := hf.scanBlock hs
      rw [fieldsAt_of_blockAt? hb] at hturn
      obtain ⟨order', k', hc', hf', hk'⟩ := ih (hc.block hs hb) hturn
      rw [if_pos hlt]
      exact ⟨order', k', hc', hf', hk'.imp_left (by omega)⟩
    · have hle := hf.scanned_le
      rw [if_neg hlt]
      exact ⟨order, k, hc, hf, .inr (by omega)⟩

end ComesTo

/-- A collection passes through the copies that the scan makes turn by turn, and stops with the last
of them. -/
theorem exists_collecting_scanFrom (h : Heap) (n : Nat) :
    ∃ taken p, h.Collecting taken p ∧ p.roots = [] ∧
      p.copy = (h.forwardRoots.run h.copying).2.scanFrom n 0 ∧
      (p.scanned = n ∨ p.next? = none) := by
  obtain ⟨order, k, ⟨taken, copy, hp, rfl⟩, hf, hk⟩ :=
    (ComesTo.start h).scanFrom h.follows_forwardRoots n
  obtain ⟨c, hc, he⟩ := hp.visits.copy
  rw [Copying.rewrite_zero] at he
  have hcopy : copy = (h.forwardRoots.run h.copying).2.scanFrom n 0 := he.trans (hc.unique hf)
  refine ⟨taken, _, hp, rfl, hcopy, ?_⟩
  rcases hk with hk | hk
  · exact .inl (hk.trans (Nat.zero_add n))
  · refine .inr (Progress.next?_eq_none_iff.2 ⟨rfl, Array.getElem?_eq_none (Nat.le_of_eq ?_)⟩)
    rw [hcopy, hf.targetSize]
    exact hk.symm

end Heap
end MovingHeap

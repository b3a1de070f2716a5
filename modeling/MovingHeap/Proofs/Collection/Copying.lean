import MovingHeap.Heap.Collect
import MovingHeap.Proofs.Collection.Order

/-!
What a copy in progress has done. It is determined by the order in which slots were visited and by
how far the target has been scanned; forwarding a word visits its slot.
-/
namespace MovingHeap
namespace Heap

variable {h : Heap} {order order' : List Nat} {w : Word}

/-- `w` after the blocks in the slots `order` have moved. -/
def relocate (h : Heap) (order : List Nat) (w : Word) : Word :=
  match h.slot? w with
  | some s => if s ∈ order then .ofRef ⟨h.next + order.idxOf s, nextEpoch h.epoch⟩ else w
  | none => w

theorem relocate_of_mem {s : Nat} (hw : h.slot? w = some s) (hs : s ∈ order) :
    h.relocate order w = .ofRef ⟨h.next + order.idxOf s, nextEpoch h.epoch⟩ := by
  simp [relocate, hw, hs]

theorem relocate_of_slot?_eq_none (hw : h.slot? w = none) : h.relocate order w = w := by
  simp [relocate, hw]

theorem relocate_of_extends (hp : order <+: order') (hw : ∀ s, h.slot? w = some s → s ∈ order) :
    h.relocate order' w = h.relocate order w := by
  cases hs : h.slot? w with
  | none => rw [relocate_of_slot?_eq_none hs, relocate_of_slot?_eq_none hs]
  | some s =>
    have hm := hw s hs
    rw [relocate_of_mem hs hm, relocate_of_mem hs (hp.subset hm)]
    obtain ⟨rest, rfl⟩ := hp
    rw [List.idxOf_append, if_pos hm]

theorem ext_slots {α : Type} {xs ys : Array α} (hx : xs.size = h.blocks.size)
    (hy : ys.size = h.blocks.size)
    (he : ∀ s, h.start ≤ s → s < h.next → xs[s - h.start]? = ys[s - h.start]?) : xs = ys := by
  apply Array.ext_getElem?
  intro i
  by_cases hi : i < h.blocks.size
  · have hslot := he (h.start + i) (Nat.le_add_right _ _) (by unfold next; omega)
    rwa [Nat.add_sub_cancel_left] at hslot
  · rw [Array.getElem?_eq_none (by omega), Array.getElem?_eq_none (by omega)]

/-- The copy `c` of `h` has visited the slots `order`, and has scanned the first `k` of them. -/
structure Follows (h : Heap) (order : List Nat) (k : Nat) (c : Copying) : Prop where
  sourceStart : c.sourceStart = h.start
  sourceEpoch : c.sourceEpoch = h.epoch
  targetStart : c.targetStart = h.next
  targetEpoch : c.targetEpoch = nextEpoch h.epoch
  sourceSize : c.source.size = h.blocks.size
  forwardingSize : c.forwarding.size = h.blocks.size
  targetSize : c.target.size = order.length
  scanned_le : k ≤ order.length
  listing : h.Listing order
  scanned : h.ScannedTo order k
  source : ∀ s, h.start ≤ s → s < h.next →
    c.source[s - h.start]? = some (if s ∈ order then none else h.blockAt? s)
  forwarding : ∀ s, h.start ≤ s → s < h.next →
    c.forwarding[s - h.start]? = some (if s ∈ order then some (h.next + order.idxOf s) else none)
  target : ∀ j s, order[j]? = some s →
    c.target[j]? = (h.blockAt? s).map fun b => if j < k then b.mapFields (h.relocate order) else b

namespace Follows

variable {k : Nat} {c : Copying}

theorem start (h : Heap) : h.Follows [] 0 h.copying where
  sourceStart := rfl
  sourceEpoch := rfl
  targetStart := rfl
  targetEpoch := rfl
  sourceSize := by simp [copying]
  forwardingSize := by simp [copying]
  targetSize := rfl
  scanned_le := Nat.le_refl 0
  listing := .nil h
  scanned := fun j hj => absurd hj (Nat.not_lt_zero j)
  source := by
    intro s hs hn
    obtain ⟨b, hb⟩ := exists_blockAt? hs hn
    have hb' := (blockAt?_eq_some_iff.1 hb).2
    simp [copying, hb, hb']
  forwarding := by
    intro s hs hn
    obtain ⟨b, hb⟩ := exists_blockAt? hs hn
    have hb' := (blockAt?_eq_some_iff.1 hb).2
    simp [copying, hb']
  target := by simp

theorem position? (hc : h.Follows order k c) (w : Word) :
    c.position? w = (h.slot? w).map (· - h.start) := by
  have hsize : h.next = h.start + h.blocks.size := rfl
  unfold Copying.position?
  rw [hc.sourceStart, hc.sourceEpoch, hc.forwardingSize]
  cases hw : w.ref? with
  | none => simp [slot?, hw]
  | some r =>
    obtain ⟨s, e⟩ := r
    simp only
    split
    next hr =>
      obtain ⟨rfl, hs, hn⟩ := hr
      obtain ⟨b, hb⟩ := exists_blockAt? hs (show s < h.next by omega)
      rw [slot?_eq_some_iff.2 ⟨hw, b, hb⟩, Option.map_some]
    next hr =>
      cases hs : h.slot? w with
      | none => rfl
      | some t =>
        have hb := bounds_of_slot? hs
        rw [(slot?_eq_some_iff.1 hs).1] at hw
        simp only [Option.some.injEq, Ref.mk.injEq] at hw
        omega

theorem unique {d : Copying} (hc : h.Follows order k c)
    (hd : h.Follows order k d) : c = d := by
  have hsource : c.source = d.source :=
    ext_slots hc.sourceSize hd.sourceSize fun s hlo hhi =>
      (hc.source s hlo hhi).trans (hd.source s hlo hhi).symm
  have hforwarding : c.forwarding = d.forwarding :=
    ext_slots hc.forwardingSize hd.forwardingSize fun s hlo hhi =>
      (hc.forwarding s hlo hhi).trans (hd.forwarding s hlo hhi).symm
  have htarget : c.target = d.target := by
    apply Array.ext_getElem?
    intro j
    cases hs : order[j]? with
    | some s => rw [hc.target j s hs, hd.target j s hs]
    | none =>
      have hj := List.getElem?_eq_none_iff.1 hs
      rw [Array.getElem?_eq_none (hc.targetSize ▸ hj), Array.getElem?_eq_none (hd.targetSize ▸ hj)]
  obtain ⟨⟩ := c
  obtain ⟨⟩ := d
  rw [Copying.mk.injEq]
  exact ⟨hsource, hforwarding, htarget, hc.sourceStart.trans hd.sourceStart.symm,
    hc.sourceEpoch.trans hd.sourceEpoch.symm, hc.targetStart.trans hd.targetStart.symm,
    hc.targetEpoch.trans hd.targetEpoch.symm⟩

/-- The block that is scanned next is as it was. -/
theorem target_next (hc : h.Follows order k c) {s : Nat} {b : Block} (hs : order[k]? = some s)
    (hb : h.blockAt? s = some b) : c.target[k]? = some b := by
  rw [hc.target k s hs, hb, Option.map_some, if_neg (Nat.lt_irrefl k)]

/-- A block is copied that was not copied before. -/
theorem copied (hc : h.Follows order k c) {s : Nat} {b : Block} (hm : s ∉ order)
    (hb : h.blockAt? s = some b) :
    h.Follows (order ++ [s]) k { c with
      source := c.source.setIfInBounds (s - h.start) none
      forwarding := c.forwarding.setIfInBounds (s - h.start) (some (h.next + order.length))
      target := c.target.push b } := by
  obtain ⟨hlo, hhi⟩ := bounds_of_blockAt? hb
  have hnext : h.next = h.start + h.blocks.size := rfl
  have hk := hc.scanned_le
  have hp : order <+: order ++ [s] := List.prefix_append _ _
  have hne : ∀ t, h.start ≤ t → t ≠ s → s - h.start ≠ t - h.start := by omega
  refine
    { hc with
      sourceSize := by simpa using hc.sourceSize
      forwardingSize := by simpa using hc.forwardingSize
      targetSize := by simp [hc.targetSize]
      scanned_le := by simp only [List.length_append, List.length_singleton]; omega
      listing := ⟨List.nodup_append.2 ⟨hc.listing.nodup, by simp, by grind⟩, ?_⟩
      scanned := ?_
      source := ?_
      forwarding := ?_
      target := ?_ }
  · intro t ht
    rcases List.mem_append.1 ht with ht | ht
    · exact hc.listing.bounds t ht
    · rw [List.mem_singleton.1 ht]
      exact ⟨hlo, hhi⟩
  · intro j hj t ht w hw u hu
    rw [List.getElem?_append_left (by omega)] at ht
    exact hp.subset (hc.scanned j hj t ht w hw u hu)
  · intro t hlo' hhi'
    by_cases hts : t = s
    · subst hts
      have hi : t - h.start < c.source.size := by rw [hc.sourceSize]; omega
      simp [Array.getElem?_setIfInBounds_self_of_lt hi]
    · rw [Array.getElem?_setIfInBounds_ne (hne t hlo' hts), hc.source t hlo' hhi']
      simp [hts]
  · intro t hlo' hhi'
    by_cases hts : t = s
    · subst hts
      have hi : t - h.start < c.forwarding.size := by rw [hc.forwardingSize]; omega
      simp [Array.getElem?_setIfInBounds_self_of_lt hi, List.idxOf_append, hm]
    · rw [Array.getElem?_setIfInBounds_ne (hne t hlo' hts), hc.forwarding t hlo' hhi']
      simp only [List.mem_append, List.mem_singleton, hts, or_false]
      split
      next ht => rw [List.idxOf_append, if_pos ht]
      next => rfl
  · intro j t ht
    change (c.target.push b)[j]? = _
    rw [Array.getElem?_push, hc.targetSize]
    by_cases hj : j = order.length
    · rw [hj, List.getElem?_concat_length] at ht
      obtain rfl := Option.some.inj ht
      rw [if_pos hj, hb, Option.map_some, if_neg (by omega)]
    · have hlt := (List.getElem?_eq_some_iff.1 ht).1
      rw [List.length_append, List.length_singleton] at hlt
      rw [List.getElem?_append_left (by omega)] at ht
      rw [if_neg hj, hc.target j t ht]
      cases hbt : h.blockAt? t with
      | none => rw [Option.map_none, Option.map_none]
      | some bt =>
        rw [Option.map_some, Option.map_some, Option.some.injEq]
        split
        next hjk =>
          apply Block.mapFields_congr
          intro w hw
          refine (relocate_of_extends hp ?_).symm
          intro u hu
          exact hc.scanned j hjk t ht w (fieldsAt_of_blockAt? hbt ▸ hw) u hu
        next => rfl

/-- One step of the copy: a word is forwarded. -/
theorem forward (hc : h.Follows order k c) (w : Word) :
    ∃ c', Copying.forward w c = (h.relocate (h.visit order w) w, c') ∧
      h.Follows (h.visit order w) k c' := by
  have hpos := hc.position? w
  cases hs : h.slot? w with
  | none =>
    rw [hs] at hpos
    refine ⟨c, ?_, by rwa [visit_of_slot?_eq_none hs]⟩
    rw [Copying.forward_of_position?_eq_none hpos, relocate_of_slot?_eq_none hs]
  | some s =>
    obtain ⟨hlo, hhi⟩ := bounds_of_slot? hs
    rw [hs, Option.map_some] at hpos
    have hfwd := hc.forwarding s hlo hhi
    by_cases hm : s ∈ order
    · rw [if_pos hm] at hfwd
      refine ⟨c, ?_, by rwa [visit_of_slot? hs, if_pos hm]⟩
      rw [visit_of_slot? hs, if_pos hm, relocate_of_mem hs hm]
      simp [Copying.forward, hpos, hfwd, Copying.targetWord, hc.targetEpoch]
    · rw [if_neg hm] at hfwd
      obtain ⟨b, hb⟩ := exists_block_of_slot? hs
      have hsrc := hc.source s hlo hhi
      rw [if_neg hm, hb] at hsrc
      refine ⟨_, ?_, by rw [visit_of_slot? hs, if_neg hm]; exact hc.copied hm hb⟩
      rw [visit_of_slot? hs, if_neg hm, relocate_of_mem hs (by simp), List.idxOf_append, if_neg hm]
      simp [Copying.forward, hpos, hfwd, hsrc, Copying.targetWord, hc.targetEpoch, hc.targetStart,
        hc.targetSize]

end Follows
end Heap
end MovingHeap

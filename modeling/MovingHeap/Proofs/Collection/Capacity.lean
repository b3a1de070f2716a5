import MovingHeap.Proofs.Heap.Kept
import MovingHeap.Proofs.Word.Encoding

/-!
Slots for the live blocks. A collection is refused at once if the next space would begin beyond the
last slot. Main statement: of the heaps that pass, those are collected whose live blocks find slots
up to the last one, and every reference that is written is then read as it was meant; for the others
the collection comes to a slot that no word can hold.
-/
namespace MovingHeap
namespace Heap

variable {h h' : Heap} {k n s t : Nat}

theorem newSlot_lt (hs : s ∈ h.live) : h.newSlot s < h.next + h.live.ncard := by
  have hidx := List.idxOf_lt_length_of_mem (mem_live_iff.1 hs)
  rw [ncard_live, newSlot]
  omega

/-- The next space is filled without a gap. -/
theorem exists_newSlot_eq (hlo : h.next ≤ t) (hhi : t < h.next + h.live.ncard) :
    ∃ s ∈ h.live, h.newSlot s = t := by
  rw [ncard_live] at hhi
  have hmem : t ∈ h.survivors.map h.newSlot := by
    rw [map_newSlot_survivors, List.mem_range'_1]
    exact ⟨hlo, hhi⟩
  obtain ⟨s, hs, he⟩ := List.mem_map.1 hmem
  exact ⟨s, mem_live_iff.2 hs, he⟩

theorem collect_eq_error (hn : h.next ≤ maxSlot) (hfull : maxSlot + 1 < h.next + h.live.ncard) :
    h.collect = .error .slotTooLarge := by
  rw [ncard_live, ← next_moved] at hfull
  rw [collect, if_neg (by omega)]
  exact if_pos hfull

/-- What is live stays live, and nothing else is there after a collection. -/
theorem length_survivors_of_collect (h₀ : h.Sound) (hc : h.collect = .ok h') :
    h'.survivors.length = h.survivors.length := by
  have hkeeps := Keeps.collect h₀ hc
  obtain ⟨rfl, -⟩ := collect_eq_ok_iff.1 hc
  apply Nat.le_antisymm
  · have hle := h.moved.listing_survivors.length_le
    simpa [moved_eq h] using hle
  · have hsub : h.survivors.map h.newSlot ⊆ h.moved.survivors := by
      intro t ht
      obtain ⟨s, hs, rfl⟩ := List.mem_map.1 ht
      exact mem_live_iff.1 (hkeeps.mem_live (mem_live_iff.2 hs))
    have hnodup : (h.survivors.map h.newSlot).Nodup := by
      rw [map_newSlot_survivors]
      exact List.nodup_range'
    simpa using hnodup.length_le_of_subset hsub

/-- Each of `n` collections takes as many slots as there are live blocks. -/
theorem perform_collects (h₀ : h.Sound) (hlive : h.survivors.length = k) (hk : 0 < k)
    (hn : h.next + n * k ≤ maxSlot + 1) :
    (h.perform (.replicate n .collect)).Sound ∧
      (h.perform (.replicate n .collect)).next = h.next + n * k ∧
      (h.perform (.replicate n .collect)).survivors.length = k := by
  induction n generalizing h with
  | zero => exact ⟨h₀, by simp [perform], hlive⟩
  | succ n ih =>
    rw [Nat.succ_mul] at hn ⊢
    have hnext := h.next_moved
    have hc : h.collect = .ok h.moved := collect_eq_ok_iff.2 ⟨rfl, by omega, by omega⟩
    have hsound : h.moved.Sound := (Step.collect hc).sound h₀
    have hlen := (length_survivors_of_collect h₀ hc).trans hlive
    obtain ⟨hlast, hsum, hkept⟩ := ih hsound hlen (by omega)
    rw [perform_collect_succ hc]
    exact ⟨hlast, by omega, hkept⟩

/-- With the next space beginning at a slot that words can hold, a collection ends well exactly if
the last live block gets such a slot too. Each reference that it writes is then the code of its slot
and epoch; and otherwise it is to write one that has no code. -/
theorem collect_fits_iff (h₀ : h.Sound) (hn : h.next ≤ maxSlot) :
    (h.next + h.live.ncard ≤ maxSlot + 1 → ∃ h' φ, h.collect = .ok h' ∧ h.Relocation h' φ ∧
      ∀ s ∈ h.live, (h.next ≤ φ s ∧ φ s ≤ maxSlot) ∧
        (Ref.mk (φ s) (nextEpoch h.epoch)).word = .ok (.ofRef ⟨φ s, nextEpoch h.epoch⟩) ∧
        (Word.ofRef ⟨φ s, nextEpoch h.epoch⟩).ref? = some ⟨φ s, nextEpoch h.epoch⟩) ∧
    (maxSlot + 1 < h.next + h.live.ncard → h.collect = .error .slotTooLarge ∧
      ∃ s ∈ h.live, h.newSlot s = maxSlot + 1 ∧
        (Ref.mk (h.newSlot s) (nextEpoch h.epoch)).word = .error .slotTooLarge) := by
  constructor
  · intro hroom
    have hc : h.collect = .ok h.moved :=
      collect_eq_ok_iff.2 ⟨rfl, hn, by rwa [next_moved, ← ncard_live]⟩
    refine ⟨h.moved, h.newSlot, hc, relocation_moved ((Step.collect hc).sound h₀), fun s hs => ?_⟩
    have hlt := newSlot_lt hs
    have hfits : (Ref.mk (h.newSlot s) (nextEpoch h.epoch)).Fits :=
      ⟨by change h.newSlot s ≤ maxSlot; omega, nextEpoch_le h₀.epoch_le⟩
    exact ⟨⟨Nat.le_add_right _ _, hfits.1⟩, Ref.word_of_fits hfits, Word.ref?_ofRef hfits⟩
  · intro hfull
    obtain ⟨s, hs, he⟩ := exists_newSlot_eq (h := h) (t := maxSlot + 1) (by omega) hfull
    refine ⟨collect_eq_error hn hfull, s, hs, he, ?_⟩
    rw [Ref.word, he]
    exact if_pos (Nat.lt_succ_self maxSlot)

/-- A heap that has been collected `n` times after the operations `os`. -/
def worn (os : List Operation) (n : Nat) : Heap :=
  ((Heap.new {}).perform os).perform (.replicate n .collect)

/-- One collection earlier there are as many slots left as live blocks: the last collection that the check admits
ends at the very last slot. -/
theorem collect_fits_iff_worn :
    (worn [] 17592186044414).Sound ∧ (worn [] 17592186044414).next + 7 = maxSlot ∧
    (worn [] 17592186044414).live.ncard = 8 ∧
    ∃ h' φ, (worn [] 17592186044414).collect = .ok h' ∧
      (worn [] 17592186044414).Relocation h' φ ∧ h'.next = maxSlot + 1 := by
  generalize hn : 17592186044414 = n
  obtain ⟨hnext, hlen⟩ : (Heap.new {}).next = 8 ∧ (Heap.new {}).survivors.length = 8 := by
    decide +kernel
  have hmax : maxSlot = 0x7FFFFFFFFFFF := rfl
  obtain ⟨hsound, hsum, hkept⟩ := perform_collects (n := n) (new_sound {}) hlen (by decide) (by omega)
  change (worn [] n).Sound at hsound
  change (worn [] n).next = _ at hsum
  change (worn [] n).survivors.length = _ at hkept
  have hlive : (worn [] n).live.ncard = 8 := by rw [ncard_live, hkept]
  obtain ⟨h', φ, hc, hrelocation, -⟩ := (collect_fits_iff hsound (by omega)).1 (by omega)
  refine ⟨hsound, by omega, hlive, h', φ, hc, hrelocation, ?_⟩
  obtain ⟨rfl, -⟩ := collect_eq_ok_iff.1 hc
  rw [next_moved, ← ncard_live]
  omega

/-- With one dropped block the eights are shifted by one slot, and the check admits a collection
that has no slot for the last of the live blocks. -/
theorem collect_overruns :
    Reachable {} (worn [.allocFields .tuple 0] 17592186044414) ∧
    (worn [.allocFields .tuple 0] 17592186044414).Sound ∧
    (worn [.allocFields .tuple 0] 17592186044414).next ≤ maxSlot ∧
    (worn [.allocFields .tuple 0] 17592186044414).collect = .error .slotTooLarge := by
  generalize hn : 17592186044414 = n
  obtain ⟨hnext, hlen⟩ : ((Heap.new {}).perform [.allocFields .tuple 0]).next = 9 ∧
    ((Heap.new {}).perform [.allocFields .tuple 0]).survivors.length = 8 := by decide +kernel
  have hmax : maxSlot = 0x7FFFFFFFFFFF := rfl
  have hreachable : Reachable {} ((Heap.new {}).perform [.allocFields .tuple 0]) :=
    Reachable.new.perform _
  obtain ⟨hsound, hsum, hkept⟩ := perform_collects (n := n) hreachable.sound hlen (by decide)
    (by omega)
  change (worn [.allocFields .tuple 0] n).next = _ at hsum
  change (worn [.allocFields .tuple 0] n).survivors.length = _ at hkept
  have hadmitted : (worn [.allocFields .tuple 0] n).next ≤ maxSlot := by omega
  refine ⟨hreachable.perform _, hsound, hadmitted, collect_eq_error hadmitted ?_⟩
  rw [ncard_live]
  omega

end Heap
end MovingHeap

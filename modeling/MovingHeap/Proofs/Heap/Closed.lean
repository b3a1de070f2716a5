import MovingHeap.Proofs.Heap.Step

/-!
Closed heaps: no word in a root or in a block is a reference that does not resolve. Every change of
a heap keeps it closed as long as the words that it brings in are current.
-/
namespace MovingHeap
namespace Heap

variable {h h' : Heap} {w : Word}

/-- Every root and every field is an immediate or resolves. -/
structure Closed (h : Heap) : Prop extends h.Sound where
  roots : ∀ w ∈ h.rootWords, h.isCurrent w = true
  fields : ∀ s b, h.blockAt? s = some b → ∀ w ∈ b.fields, h.isCurrent w = true

theorem isCurrent_of_slot? {s : Nat} (hw : h.slot? w = some s) : h.isCurrent w = true :=
  isCurrent_iff_slot?.2 (.inr ⟨s, hw⟩)

theorem isCurrent_of_ref?_eq_none (hw : w.ref? = none) : h.isCurrent w = true :=
  isCurrent_iff_slot?.2 (.inl hw)

@[simp]
theorem isCurrent_ofInt (h : Heap) (n : Int) : h.isCurrent (.ofInt n) = true :=
  isCurrent_of_ref?_eq_none (Word.ref?_ofInt n)

@[simp]
theorem isCurrent_unit (h : Heap) : h.isCurrent .unit = true := h.isCurrent_ofInt 0

/-- The word of a newly placed block resolves to it. -/
theorem Sound.slot?_place (h₀ : h.Sound) (hn : h.next ≤ maxSlot) (b : Block) :
    (h.place b).2.slot? (h.place b).1 = some h.next := by
  have hs : (h.place b).2.Sound := (Step.place b hn).sound h₀
  have hlo : h.start ≤ h.next := Nat.le_add_right _ _
  exact hs.slot?_ofRef hlo (by rw [next_place]; omega)

theorem Sound.block_place (h₀ : h.Sound) (hn : h.next ≤ maxSlot) (b : Block) :
    (h.place b).2.block (h.place b).1 = .ok (some b) := by
  refine block_eq_some_iff.2 ⟨h.next, h₀.slot?_place hn b, ?_⟩
  rw [blockAt?_place, if_pos rfl]

/-- A word that a collection finds in a root or in a block it keeps is current afterwards if it was
before. -/
theorem isCurrent_carry (hm : h.moved.Sound) (hw : h.isCurrent w = true)
    (hl : ∀ s, h.slot? w = some s → s ∈ h.survivors) : h.moved.isCurrent (h.carry w) = true := by
  rcases isCurrent_iff_slot?.1 hw with hr | ⟨s, hs⟩
  · rw [carry_of_slot?_eq_none (slot?_of_ref?_eq_none hr)]
    exact isCurrent_of_ref?_eq_none hr
  · have hmem := hl s hs
    obtain ⟨b, hb⟩ := exists_block_of_mem_survivors hmem
    obtain ⟨hlo, hhi⟩ := bounds_of_blockAt? (blockAt?_moved_newSlot hmem hb)
    rw [carry_of_slot? hs hmem, ← epoch_moved]
    exact isCurrent_of_slot? (hm.slot?_ofRef hlo hhi)

namespace Closed

theorem collect (hc : h.Closed) (hr : h.collect = .ok h') : h'.Closed := by
  have hs : h'.Sound := (Step.collect hr).sound hc.toSound
  obtain ⟨rfl, -⟩ := collect_eq_ok_iff.1 hr
  refine { hs with roots := ?_, fields := ?_ }
  · intro w hw
    rw [rootWords_moved] at hw
    obtain ⟨v, hv, rfl⟩ := List.mem_map.1 hw
    exact isCurrent_carry hs (hc.roots v hv) fun s => mem_survivors_of_rootWord hv
  · intro t c ht w hw
    obtain ⟨s, hmem, b, hb, -, rfl⟩ := exists_of_blockAt?_moved ht
    rw [Block.fields_mapFields] at hw
    obtain ⟨v, hv, rfl⟩ := List.mem_map.1 hw
    exact isCurrent_carry hs (hc.fields s b hb v hv) fun u => mem_survivors_of_field hmem hb hv

theorem place (hc : h.Closed) (hn : h.next ≤ maxSlot) {b : Block}
    (hb : ∀ w ∈ b.fields, h.isCurrent w = true) : (h.place b).2.Closed := by
  refine { (Step.place b hn).sound hc.toSound with roots := ?_, fields := ?_ }
  · intro w hw
    exact isCurrent_place b (hc.roots w hw)
  · intro s c hs w hw
    apply isCurrent_place
    rw [blockAt?_place] at hs
    split at hs
    · obtain rfl := Option.some.inj hs
      exact hb w hw
    · exact hc.fields s c hs w hw

theorem setField (hc : h.Closed) {x : Word} {i : Nat} (hx : h.isCurrent x = true)
    (hr : h.setField w i x = .ok h') : h'.Closed := by
  have hs : h'.Sound := (Step.setField hr).sound hc.toSound
  obtain ⟨s, b, ⟨-, hb⟩, -, -, rfl⟩ := setField_eq_ok_iff.1 hr
  refine { hs with roots := ?_, fields := ?_ }
  · intro v hv
    rw [isCurrent_write hb]
    exact hc.roots v hv
  · intro t c ht v hv
    rw [isCurrent_write hb]
    rw [blockAt?_write hb] at ht
    split at ht
    · obtain rfl := Option.some.inj ht
      rw [Block.fields_withFields (by simp)] at hv
      rcases List.mem_or_eq_of_mem_set hv with hv | rfl
      · exact hc.fields s b hb v hv
      · exact hx
    · exact hc.fields t c ht v hv

/-- A change of the roots alone. -/
theorem withRoots (hc : h.Closed) (hs : SameStore h h')
    (hr : ∀ w ∈ h'.rootWords, h.isCurrent w = true) : h'.Closed := by
  refine { epoch_le := hs.epoch ▸ hc.epoch_le, next_le := ?_, roots := ?_, fields := ?_ }
  · unfold next
    rw [hs.start, hs.blocks]
    exact hc.next_le
  · intro w hw
    rw [hs.isCurrent]
    exact hr w hw
  · intro s b hb w hw
    rw [hs.isCurrent]
    rw [hs.blockAt?] at hb
    exact hc.fields s b hb w hw

end Closed

end Heap
end MovingHeap

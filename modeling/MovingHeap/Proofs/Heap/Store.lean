import MovingHeap.Proofs.Heap.Slots

/-!
What the changes of a heap do to its table of blocks. A new block takes the next slot, a write
changes one block, and everything else leaves the table alone.
-/
namespace MovingHeap
namespace Heap

variable {h h' : Heap} {w x : Word} {s : Nat} {b : Block}

/-- Two heaps with the same blocks in the same slots, under the same epoch. -/
structure SameStore (h h' : Heap) : Prop where
  blocks : h'.blocks = h.blocks
  start : h'.start = h.start
  epoch : h'.epoch = h.epoch

namespace SameStore

theorem lookup (hs : SameStore h h') (r : Ref) : h'.lookup r = h.lookup r := by
  unfold Heap.lookup index? next
  rw [hs.blocks, hs.start, hs.epoch]

theorem blockAt? (hs : SameStore h h') (s : Nat) : h'.blockAt? s = h.blockAt? s := by
  unfold Heap.blockAt?
  rw [hs.lookup, hs.epoch]

theorem isCurrent (hs : SameStore h h') (w : Word) : h'.isCurrent w = h.isCurrent w := by
  simp only [Heap.isCurrent, hs.lookup]

theorem slot? (hs : SameStore h h') (w : Word) : h'.slot? w = h.slot? w := by
  simp only [Heap.slot?, hs.lookup]

theorem reaches (hs : SameStore h h') {ws : List Word} {s : Nat} (hr : h.Reaches ws s) :
    h'.Reaches ws s := by
  induction hr with
  | word hw hslot => exact .word hw ((hs.slot? _).trans hslot)
  | field _ hb hw hslot ih =>
    exact .field ih ((hs.blockAt? _).trans hb) hw ((hs.slot? _).trans hslot)

theorem symm (hs : SameStore h h') : SameStore h' h :=
  ⟨hs.blocks.symm, hs.start.symm, hs.epoch.symm⟩

end SameStore

theorem blockAt?_place (h : Heap) (b : Block) (s : Nat) :
    (h.place b).2.blockAt? s = if s = h.next then some b else h.blockAt? s := by
  ext c
  rw [blockAt?_eq_some_iff]
  change h.start ≤ s ∧ (h.blocks.push b)[s - h.start]? = some c ↔ _
  have hn : h.next = h.start + h.blocks.size := rfl
  rw [Array.getElem?_push]
  by_cases hs : s = h.next
  · rw [if_pos hs, if_pos (by omega)]
    exact and_iff_right (by omega)
  · rw [if_neg hs, blockAt?_eq_some_iff]
    by_cases hlo : h.start ≤ s
    · rw [if_neg (by omega)]
    · simp [hlo]

theorem slot?_place (b : Block) (hw : h.slot? w = some s) : (h.place b).2.slot? w = some s := by
  obtain ⟨hr, c, hc⟩ := slot?_eq_some_iff.1 hw
  refine slot?_eq_some_iff.2 ⟨hr, c, ?_⟩
  have hb := bounds_of_blockAt? hc
  rw [blockAt?_place, if_neg (by omega), hc]

theorem slot?_of_place (hw : (h.place b).2.slot? w = some s) (hs : s ≠ h.next) :
    h.slot? w = some s := by
  obtain ⟨hr, c, hc⟩ := slot?_eq_some_iff.1 hw
  rw [blockAt?_place, if_neg hs] at hc
  exact slot?_eq_some_iff.2 ⟨hr, c, hc⟩

theorem isCurrent_place (b : Block) (hw : h.isCurrent w = true) :
    (h.place b).2.isCurrent w = true := by
  rw [isCurrent_iff_slot?] at hw ⊢
  rcases hw with hw | ⟨s, hs⟩
  · exact .inl hw
  · exact .inr ⟨s, slot?_place b hs⟩

/-- The heap with the block in slot `s` replaced. -/
def write (h : Heap) (s : Nat) (b : Block) : Heap :=
  { h with blocks := h.blocks.setIfInBounds (s - h.start) b }

theorem blockAt?_write {c : Block} (hc : h.blockAt? s = some c) (t : Nat) :
    (h.write s b).blockAt? t = if t = s then some b else h.blockAt? t := by
  obtain ⟨hlo, hhi⟩ := bounds_of_blockAt? hc
  have hn : h.next = h.start + h.blocks.size := rfl
  ext d
  rw [blockAt?_eq_some_iff]
  change h.start ≤ t ∧ (h.blocks.setIfInBounds (s - h.start) b)[t - h.start]? = some d ↔ _
  by_cases ht : t = s
  · rw [if_pos ht, ht, Array.getElem?_setIfInBounds_self_of_lt (by omega)]
    exact and_iff_right hlo
  · rw [if_neg ht, blockAt?_eq_some_iff]
    by_cases hlt : h.start ≤ t
    · rw [Array.getElem?_setIfInBounds_ne (by omega)]
    · simp [hlt]

theorem slot?_write {c : Block} (hc : h.blockAt? s = some c) (w : Word) :
    (h.write s b).slot? w = h.slot? w := by
  have hmem : ∀ t, (∃ d, (h.write s b).blockAt? t = some d) ↔ ∃ d, h.blockAt? t = some d := by
    intro t
    rw [blockAt?_write hc]
    split
    next ht => simp [ht, hc]
    next => rfl
  ext t
  rw [slot?_eq_some_iff, slot?_eq_some_iff, hmem]
  rfl

theorem isCurrent_write {c : Block} (hc : h.blockAt? s = some c) (w : Word) :
    (h.write s b).isCurrent w = h.isCurrent w := by
  rw [Bool.eq_iff_iff, isCurrent_iff_slot?, isCurrent_iff_slot?]
  simp only [slot?_write hc]

theorem resolve_eq_ok_iff_blockAt? {r : Ref} :
    h.resolve r = .ok b ↔ r.epoch = h.epoch ∧ h.blockAt? r.slot = some b := by
  rw [resolve_eq_ok_iff, lookup_eq_some_iff_blockAt?]

theorem overwrite_eq_ok_iff {b b' : Block} {i : Nat} :
    overwrite b i x = .ok b' ↔
      b.bytes? = none ∧ i < b.fields.length ∧ b' = b.withFields (b.fields.set i x) := by
  cases b <;> simp only [overwrite, Block.bytes?] <;> grind

theorem slot?_eq_some_iff_resolve {r : Ref} (hw : w.ref? = some r) :
    h.slot? w = some s ∧ h.blockAt? s = some b ↔ r.slot = s ∧ h.resolve r = .ok b := by
  obtain ⟨t, e⟩ := r
  rw [slot?_eq_some_iff, hw, resolve_eq_ok_iff_blockAt?, Option.some.injEq, Ref.mk.injEq]
  constructor
  · rintro ⟨⟨⟨rfl, rfl⟩, -⟩, hb⟩
    exact ⟨rfl, rfl, hb⟩
  · rintro ⟨rfl, rfl, hb⟩
    exact ⟨⟨⟨rfl, rfl⟩, b, hb⟩, hb⟩

theorem block_eq_some_iff :
    h.block w = .ok (some b) ↔ ∃ s, h.slot? w = some s ∧ h.blockAt? s = some b := by
  unfold block
  cases hw : w.ref? with
  | none => simp [slot?_of_ref?_eq_none hw]
  | some r =>
    simp only [slot?_eq_some_iff_resolve hw, exists_eq_left']
    cases h.resolve r <;> simp [Functor.map, Except.map]

theorem block_place {c : Block} (hw : h.block w = .ok (some c)) (b : Block) :
    (h.place b).2.block w = .ok (some c) := by
  obtain ⟨s, hs, hc⟩ := block_eq_some_iff.1 hw
  refine block_eq_some_iff.2 ⟨s, slot?_place b hs, ?_⟩
  have hlt := (bounds_of_blockAt? hc).2
  rw [blockAt?_place, if_neg (by omega), hc]

theorem field_of_block (hb : h.block w = .ok (some b)) (i : Nat) :
    h.field w i = item b.fields i := by
  unfold block at hb
  unfold field
  cases hr : w.ref? with
  | none => simp [hr] at hb
  | some r =>
    cases hx : h.resolve r with
    | error f => simp [hr, hx, Functor.map, Except.map] at hb
    | ok c =>
      simp only [hr, hx, Functor.map, Except.map, Except.ok.injEq, Option.some.injEq] at hb
      subst hb
      simp only [hx]
      rfl

theorem setField_of_slot? {i : Nat} (hw : h.slot? w = some s) (hb : h.blockAt? s = some b) :
    h.setField w i x = (overwrite b i x).map (h.write s) := by
  have hr := (slot?_eq_some_iff.1 hw).1
  have hres := ((slot?_eq_some_iff_resolve hr).1 ⟨hw, hb⟩).2
  unfold setField
  simp only [hr, hres]
  rfl

/-- A field is written exactly where `w` resolves to a block that has it. -/
theorem setField_eq_ok_iff {i : Nat} :
    h.setField w i x = .ok h' ↔ ∃ s b, (h.slot? w = some s ∧ h.blockAt? s = some b) ∧
      b.bytes? = none ∧ i < b.fields.length ∧ h' = h.write s (b.withFields (b.fields.set i x)) := by
  unfold setField
  cases hw : w.ref? with
  | none => simp [slot?_of_ref?_eq_none hw]
  | some r =>
    simp only [Except.bind_eq_ok_iff, overwrite_eq_ok_iff, slot?_eq_some_iff_resolve hw]
    constructor
    · rintro ⟨b, hb, b', ⟨hbytes, hi, rfl⟩, he⟩
      exact ⟨r.slot, b, ⟨rfl, hb⟩, hbytes, hi, (Except.ok.inj he).symm⟩
    · rintro ⟨s, b, ⟨rfl, hb⟩, hbytes, hi, rfl⟩
      exact ⟨b, hb, _, ⟨hbytes, hi, rfl⟩, rfl⟩

end Heap
end MovingHeap

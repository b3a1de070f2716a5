import MovingHeap.Heap.Named
import MovingHeap.Proofs.Collection.Moved
import MovingHeap.Proofs.Heap.Store

/-!
Steps of a heap: the changes that every operation is made of. Main statement: slots and epochs stay
within what words can hold.
-/
namespace MovingHeap
namespace Heap

variable {h h' : Heap}

/-- One change of the heap. -/
inductive Step : Heap → Heap → Prop
  | collect {h h' : Heap} : h.collect = .ok h' → Step h h'
  | place {h : Heap} (b : Block) : h.next ≤ maxSlot → Step h (h.place b).2
  | setField {h h' : Heap} {w x : Word} {i : Nat} : h.setField w i x = .ok h' → Step h h'
  | roots {h : Heap} (rs : List Word) : Step h { h with roots := rs }
  | register {h : Heap} (name : Bytes) (w : Word) : Step h (h.register name w)
  | unregister {h : Heap} (name : Bytes) : Step h (h.unregister name)
  | pending {h : Heap} (exn : Option Word) : Step h { h with pending := exn }
  | count {h : Heap} : Step h { h with identities := h.nextIdentity }

/-- A step that neither collects nor places a block. -/
structure Quiet (h h' : Heap) : Prop where
  step : Step h h'
  collections : h'.collections = h.collections
  next : h'.next = h.next

theorem Step.cases_quiet (hs : Step h h') :
    h.collect = .ok h' ∨ (∃ b, h.next ≤ maxSlot ∧ h' = (h.place b).2) ∨ Quiet h h' := by
  cases hs with
  | collect hc => exact .inl hc
  | place b hn => exact .inr (.inl ⟨b, hn, rfl⟩)
  | setField hw =>
    obtain ⟨s, b, -, -, -, rfl⟩ := setField_eq_ok_iff.1 hw
    exact .inr (.inr ⟨.setField hw, rfl, by simp [next, write]⟩)
  | roots rs => exact .inr (.inr ⟨.roots rs, rfl, rfl⟩)
  | register name w => exact .inr (.inr ⟨.register name w, rfl, rfl⟩)
  | unregister name => exact .inr (.inr ⟨.unregister name, rfl, rfl⟩)
  | pending exn => exact .inr (.inr ⟨.pending exn, rfl, rfl⟩)
  | count => exact .inr (.inr ⟨.count, rfl, rfl⟩)

inductive Steps (h : Heap) : Heap → Prop
  | refl : Steps h h
  | tail {h' h'' : Heap} : Steps h h' → Step h' h'' → Steps h h''

theorem Steps.single (hs : Step h h') : Steps h h' := .tail .refl hs

theorem Steps.trans {h'' : Heap} (h₁ : Steps h h') (h₂ : Steps h' h'') : Steps h h'' := by
  induction h₂ with
  | refl => exact h₁
  | tail _ hs ih => exact .tail ih hs

/-- Slots and epochs are such that words can hold them. -/
structure Sound (h : Heap) : Prop where
  epoch_le : h.epoch ≤ maxEpoch
  next_le : h.next ≤ maxSlot + 1

theorem Sound.slot?_ofRef (h₀ : h.Sound) {s : Nat} (hs : h.start ≤ s) (hn : s < h.next) :
    h.slot? (.ofRef ⟨s, h.epoch⟩) = some s := by
  have hfits : (Ref.mk s h.epoch).Fits := by
    have hle := h₀.next_le
    exact ⟨by change s ≤ maxSlot; omega, h₀.epoch_le⟩
  exact slot?_eq_some_iff.2 ⟨Word.ref?_ofRef hfits, exists_blockAt? hs hn⟩

theorem nextEpoch_le {epoch : Nat} (he : epoch ≤ maxEpoch) : nextEpoch epoch ≤ maxEpoch := by
  unfold nextEpoch
  split <;> omega

theorem nextEpoch_ne (epoch : Nat) : nextEpoch epoch ≠ epoch := by
  unfold nextEpoch
  split
  next he =>
    rw [he]
    decide
  next => omega

/-- A reference of the next epoch does not resolve yet. -/
theorem slot?_ofRef_nextEpoch {s : Nat} (hfits : (Ref.mk s (nextEpoch h.epoch)).Fits) :
    h.slot? (.ofRef ⟨s, nextEpoch h.epoch⟩) = none := by
  rw [Option.eq_none_iff_forall_ne_some]
  intro t ht
  have hr := (slot?_eq_some_iff.1 ht).1
  rw [Word.ref?_ofRef hfits, Option.some.injEq, Ref.mk.injEq] at hr
  exact nextEpoch_ne _ hr.2

theorem Step.sound (hs : Step h h') (h₀ : h.Sound) : h'.Sound := by
  cases hs with
  | collect hc =>
    obtain ⟨rfl, -, hn⟩ := collect_eq_ok_iff.1 hc
    exact ⟨h.epoch_moved ▸ nextEpoch_le h₀.epoch_le, hn⟩
  | place b hn =>
    refine ⟨h₀.epoch_le, ?_⟩
    rw [next_place]
    omega
  | setField hc =>
    obtain ⟨s, b, -, -, -, rfl⟩ := setField_eq_ok_iff.1 hc
    refine ⟨h₀.epoch_le, ?_⟩
    simpa [next, write] using h₀.next_le
  | roots | register | unregister | pending | count => exact ⟨h₀.epoch_le, h₀.next_le⟩

theorem Steps.sound (hs : Steps h h') (h₀ : h.Sound) : h'.Sound := by
  induction hs with
  | refl => exact h₀
  | tail _ hs ih => exact hs.sound ih

end Heap
end MovingHeap

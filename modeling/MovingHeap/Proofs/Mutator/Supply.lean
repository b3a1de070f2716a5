import Mathlib.Algebra.BigOperators.Group.Finset.Basic
import Mathlib.Order.Interval.Finset.Nat
import MovingHeap.Proofs.Collection.Preservation
import MovingHeap.Proofs.Schedule.Allocation
import MovingHeap.Proofs.Schedule.Overflow

/-!
What an allocation needs: words within the limit, and slots. Main statement: making room and placing
a block ends in a fault exactly if the slots come to their end for the blocks that are moved, or for
the new one.
-/
namespace MovingHeap

/-- Whether `words` live words are beyond the limit, if there is one. -/
def Tuning.Exceeded (t : Tuning) (words : Nat) : Prop :=
  ∃ most, t.maxWords = some most ∧ most < words

namespace Heap

variable {h h' : Heap} {ws : List Word} {words : Nat}

open Classical in
/-- The words of the blocks that can be reached from `ws`. -/
noncomputable def reachedWords (h : Heap) (ws : List Word) : Nat :=
  ∑ s ∈ Finset.Ico h.start h.next with h.Reaches ws s, h.wordsAt s

open Classical in
/-- What a collection keeps is what the roots reach. -/
theorem rootedWords_eq_reachedWords (h : Heap) : h.rootedWords = h.reachedWords h.rootWords := by
  have hkept : h.survivors.toFinset =
      (Finset.Ico h.start h.next).filter fun s => h.Reaches h.rootWords s := by
    ext s
    simp only [List.mem_toFinset, Finset.mem_filter, Finset.mem_Ico, ← mem_survivors_iff]
    constructor
    · intro hs
      obtain ⟨b, hb⟩ := exists_block_of_mem_survivors hs
      exact ⟨bounds_of_blockAt? hb, hs⟩
    · exact And.right
  rw [rootedWords, reachedWords, ← hkept, List.sum_toFinset _ h.listing_survivors.nodup]

theorem overcommits_iff :
    h.overcommits words = true ↔ h.config.tuning.Exceeded (h.reachedWords h.rootWords + words) := by
  unfold overcommits Tuning.Exceeded
  rw [rootedWords_eq_reachedWords]
  cases h.config.tuning.maxWords <;> simp

open Classical in
theorem SameStore.reachedWords (hs : SameStore h h') {vs : List Word} (hsub : vs ⊆ ws)
    (hsup : ws ⊆ vs) : h'.reachedWords vs = h.reachedWords ws := by
  have hnext : h'.next = h.next := by rw [Heap.next, Heap.next, hs.start, hs.blocks]
  have hreach : ∀ s, h'.Reaches vs s ↔ h.Reaches ws s := by
    intro s
    constructor
    · intro hr
      exact (hs.symm.reaches hr).mono hsub
    · intro hr
      exact (hs.reaches hr).mono hsup
  have hwords : ∀ s, h'.wordsAt s = h.wordsAt s := by
    intro s
    rw [wordsAt, hs.blockAt?, wordsAt]
  rw [Heap.reachedWords, Heap.reachedWords, hs.start, hnext]
  exact Finset.sum_congr (Finset.filter_congr fun s _ => hreach s) fun s _ => hwords s

theorem reachedWords_hold (h : Heap) (ws : List Word) :
    (h.hold ws).reachedWords (h.hold ws).rootWords = h.reachedWords (h.rootWords ++ ws) := by
  have hmem : ∀ w, w ∈ (h.hold ws).rootWords ↔ w ∈ h.rootWords ++ ws := by
    intro w
    simp only [rootWords, hold, List.mem_append]
    tauto
  have hstore : SameStore h (h.hold ws) := ⟨rfl, rfl, rfl⟩
  exact hstore.reachedWords (fun w => (hmem w).1) fun w => (hmem w).2

theorem Counted.hold (hc : h.Counted) (ws : List Word) : (h.hold ws).Counted :=
  hc.congr ⟨rfl, rfl, rfl⟩ rfl

/-- Whether an allocation of `words` words comes to a slot that no word can hold: no slot is left at
all, or there is to be a collection first, and its live blocks need more slots than there are, or
they need the last one and the limit admits the new block. -/
def LacksSlots (h : Heap) (words : Nat) : Prop :=
  maxSlot < h.next ∨ (h.isOverBudget words || h.exceedsLimit words) = true ∧
    (maxSlot + 1 < h.next + h.live.ncard ∨ h.next + h.live.ncard = maxSlot + 1 ∧
      ¬ h.config.tuning.Exceeded (h.reachedWords h.rootWords + words))

/-- As many slots as there are blocks are enough. -/
theorem not_lacksSlots_of_room (hn : h.next + h.blocks.size ≤ maxSlot) (words : Nat) :
    ¬ h.LacksSlots words := by
  have hlen := h.listing_survivors.length_le
  have hlive := h.ncard_live
  rintro (hnext | ⟨-, hlast | ⟨hlast, -⟩⟩) <;> omega

end Heap

namespace Mutator

variable {α : Type} {h : Heap} {words : Nat}

/-- `m` ends in a fault exactly if `p` holds, and then for want of slots. -/
def ExhaustsIff (m : Mutator α) (h : Heap) (p : Prop) : Prop :=
  ((∃ f, Faults m h f) ↔ p) ∧ ∀ f, Faults m h f → f.isExhaustion = true

theorem ExhaustsIff.not_faults {m : Mutator α} {p : Prop} (hm : ExhaustsIff m h p) (hp : ¬ p)
    {f : Fault} : ¬ Faults m h f := fun hf => hp (hm.1.1 ⟨f, hf⟩)

/-- What comes of making room: the slots lack already, the limit refuses, or the new block has a slot
unless they lack. -/
theorem reserve_slots (hc : h.Counted) (words : Nat) :
    (∃ f, reserve words h = .error (.fault f) h ∧ f.isExhaustion = true ∧ h.LacksSlots words) ∨
    (∃ r k, reserve words h = .error (.raise r) k ∧ ¬ h.LacksSlots words) ∨
    ∃ k, reserve words h = .ok () k ∧ (maxSlot < k.next ↔ h.LacksSlots words) ∧
      ¬ h.config.tuning.Exceeded (h.reachedWords h.rootWords + words) := by
  simp only [reserve_apply, makeRoom, update]
  by_cases hroom : (h.isOverBudget words || h.exceedsLimit words) = true
  · simp only [if_pos hroom]
    have hnext := h.next_moved
    have hlive := h.ncard_live
    cases hr : h.collect with
    | error f =>
      refine .inl ⟨f, rfl, Heap.isExhaustion_of_collect hr, ?_⟩
      by_cases hlast : maxSlot < h.next
      · exact .inl hlast
      · refine .inr ⟨hroom, .inl ?_⟩
        by_contra hfits
        have hok := Heap.collect_eq_ok_iff.2 ⟨rfl, Nat.not_lt.1 hlast, by omega⟩
        cases hr.symm.trans hok
    | ok k =>
      have hover := Heap.exceedsLimit_of_collect hr words
      obtain ⟨rfl, hn, hmoved⟩ := Heap.collect_eq_ok_iff.1 hr
      simp only [checkLimit, hover]
      cases ho : h.overcommits words with
      | true =>
        refine .inr (.inl ⟨_, _, rfl, ?_⟩)
        rintro (hlast | ⟨-, hlast | ⟨-, hfits⟩⟩)
        · omega
        · omega
        · exact hfits (Heap.overcommits_iff.1 ho)
      | false =>
        have hfits : ¬ h.config.tuning.Exceeded (h.reachedWords h.rootWords + words) := by
          rw [← Heap.overcommits_iff, ho]
          exact Bool.false_ne_true
        refine .inr (.inr ⟨_, rfl, ⟨fun hlast => ?_, ?_⟩, hfits⟩)
        · exact .inr ⟨hroom, .inr ⟨by omega, hfits⟩⟩
        · rintro (hlast | ⟨-, hlast | ⟨hlast, -⟩⟩) <;> omega
  · have he : h.exceedsLimit words = false := by simp_all
    have hcheck : checkLimit words h = .ok () h := by simp [checkLimit, he]
    simp only [if_neg hroom, hcheck]
    refine .inr (.inr ⟨h, rfl, ⟨.inl, ?_⟩, ?_⟩)
    · rintro (hlast | ⟨hask, -⟩)
      · exact hlast
      · exact absurd hask hroom
    · rw [← Heap.overcommits_iff, Heap.overcommits_eq_false hc he]
      exact Bool.false_ne_true

theorem push_exhaustsIff (b : Block) (h : Heap) : ExhaustsIff (push b) h (maxSlot < h.next) := by
  constructor
  · unfold Faults push
    by_cases hn : maxSlot < h.next
    · simp [hn]
    · simp [hn]
  · rintro f ⟨k, hk⟩
    exact push_onlyExhausts b h k f hk

theorem reserve_bind_exhaustsIff (hc : h.Counted) {k : Unit → Mutator α}
    (hk : ∀ h', reserve words h = .ok () h' → ExhaustsIff (k ()) h' (maxSlot < h'.next)) :
    ExhaustsIff (reserve words >>= k) h (h.LacksSlots words) := by
  unfold ExhaustsIff
  rcases reserve_slots hc words with ⟨f, hr, hf, hlacks⟩ | ⟨r, h', hr, hfits⟩ | ⟨h', hr, hiff, -⟩
  · simp only [faults_bind_iff_of_error hr, Stop.fault.injEq, exists_eq', true_iff]
    exact ⟨hlacks, fun g hg => hg ▸ hf⟩
  · simp [faults_bind_iff_of_error hr, hfits]
  · simp only [faults_bind_iff_of_ok hr, ← hiff]
    exact hk h' hr

theorem holding_reserve_bind_exhaustsIff (hc : h.Counted) (ws : List Word)
    {k : List Word → Mutator α} (hk : ∀ moved h', ExhaustsIff (k moved) h' (maxSlot < h'.next)) :
    ExhaustsIff (holding ws (reserve words) >>= k) h ((h.hold ws).LacksSlots words) := by
  let rest : Unit → Mutator α := fun _ h' =>
    k (h'.roots.drop h.roots.length) (h'.truncateRoots h.roots.length)
  have hsame : ∀ f, Faults (holding ws (reserve words) >>= k) h f ↔
      Faults (reserve words >>= rest) (h.hold ws) f := by
    intro f
    unfold Faults
    rw [bind_apply, bind_apply, holding_apply]
    cases reserve words (h.hold ws) <;> simp [rest]
  unfold ExhaustsIff
  simp only [hsame]
  exact reserve_bind_exhaustsIff (hc.hold ws) fun h' _ => hk _ (h'.truncateRoots h.roots.length)

end Mutator
end MovingHeap

import MovingHeap.Proofs.Heap.Closed
import MovingHeap.Proofs.Heap.Kept
import MovingHeap.Proofs.Mutator.Limit

/-!
What making room and placing a block do to a heap. Main statements: making room changes nothing, or
collects, and leaves what the roots reach as large as it was; a new block that is rooted makes it
larger by its own words and by what its fields reach.
-/
namespace MovingHeap
namespace Heap

variable {h h' k : Heap} {f : Word → Word} {φ : Nat → Nat} {w : Word} {s : Nat} {b : Block}
  {ws : List Word}

/-- Survivors of one heap are those of the other, renamed, where the slots that the roots reach are.
-/
theorem survivors_perm (hφ : Set.BijOn φ h.live h'.live) :
    (h.survivors.map φ).Perm h'.survivors := by
  apply (List.perm_ext_iff_of_nodup _ h'.listing_survivors.nodup).2
  · intro t
    rw [List.mem_map, ← mem_live_iff, ← hφ.image_eq]
    simp [mem_live_iff]
  · apply h.listing_survivors.nodup.map_on
    intro s hs t ht
    exact hφ.injOn (mem_live_iff.2 hs) (mem_live_iff.2 ht)

theorem rootedWords_of_bijOn (hφ : Set.BijOn φ h.live h'.live)
    (hwords : ∀ s ∈ h.live, h'.wordsAt (φ s) = h.wordsAt s) : h'.rootedWords = h.rootedWords := by
  have hmap : (h.survivors.map φ).map h'.wordsAt = h.survivors.map h.wordsAt := by
    rw [List.map_map]
    exact List.map_congr_left fun s hs => hwords s (mem_live_iff.2 hs)
  rw [rootedWords, rootedWords, ← hmap]
  exact (((survivors_perm hφ).map h'.wordsAt).sum_eq).symm

/-- A collection leaves nothing that the roots do not reach. -/
theorem rootedWords_of_collect (h₀ : h.Sound) (hc : h.collect = .ok k) :
    k.rootedWords = h.rootedWords := by
  have hk := Keeps.collect h₀ hc
  obtain ⟨rfl, -⟩ := collect_eq_ok_iff.1 hc
  have hlive : h.moved.live = {s | ∃ b, h.moved.blockAt? s = some b} := by
    ext t
    constructor
    · exact fun ht => ht.exists_block
    · intro ht
      obtain ⟨s, hs, rfl⟩ := h.newSlot_bijOn.surjOn ht
      exact hk.mem_live hs
  apply rootedWords_of_bijOn (hlive ▸ h.newSlot_bijOn)
  intro s hs
  obtain ⟨b, hb⟩ := hs.exists_block
  simp [wordsAt, hb, hk.block s hs b hb]

/-- What may be done to make room in `h`: nothing, or a collection. It turns the words of the heap
into others by `f`. -/
inductive MakesRoom (h : Heap) : (Word → Word) → Heap → Prop
  | nothing : MakesRoom h id h
  | collect {k : Heap} : h.collect = .ok k → MakesRoom h h.carry k

namespace MakesRoom

theorem keeps (h₀ : h.Sound) (hm : MakesRoom h f k) : ∃ φ, Keeps f φ h k := by
  cases hm with
  | nothing => exact ⟨id, .refl h⟩
  | collect hc => exact ⟨h.newSlot, .collect h₀ hc⟩

theorem unresolved (hm : MakesRoom h f k) (hw : h.slot? w = none) : f w = w := by
  cases hm with
  | nothing => rfl
  | collect => exact carry_of_slot?_eq_none hw

theorem roots (hm : MakesRoom h f k) : k.roots = h.roots.map f := by
  cases hm with
  | nothing => exact (List.map_id _).symm
  | collect hc =>
    obtain ⟨rfl, -⟩ := collect_eq_ok_iff.1 hc
    exact h.roots_moved

theorem config (hm : MakesRoom h f k) : k.config = h.config := by
  cases hm with
  | nothing => rfl
  | collect hc =>
    obtain ⟨rfl, -⟩ := collect_eq_ok_iff.1 hc
    exact h.config_moved

theorem allocated (hm : MakesRoom h f k) : k.allocated = h.allocated := by
  cases hm with
  | nothing => rfl
  | collect hc =>
    obtain ⟨rfl, -⟩ := collect_eq_ok_iff.1 hc
    exact h.allocated_moved

theorem counted (hc : h.Counted) (hm : MakesRoom h f k) : k.Counted := by
  cases hm with
  | nothing => exact hc
  | collect hr => exact hc.collect hr

/-- The roots go on reaching as much. -/
theorem reachedWords (h₀ : h.Sound) (hm : MakesRoom h f k) :
    k.reachedWords k.rootWords = h.reachedWords h.rootWords := by
  rw [← rootedWords_eq_reachedWords, ← rootedWords_eq_reachedWords]
  cases hm with
  | nothing => rfl
  | collect hc => exact rootedWords_of_collect h₀ hc

theorem slots (hm : MakesRoom h f k) :
    h.next ≤ k.next ∧ k.next ≤ h.next + h.blocks.size ∧ k.blocks.size ≤ h.blocks.size := by
  cases hm with
  | nothing => omega
  | collect hc =>
    obtain ⟨rfl, -⟩ := collect_eq_ok_iff.1 hc
    have hlen := h.listing_survivors.length_le
    have hsize : h.moved.blocks.size = h.survivors.length := by simp [moved_eq]
    rw [next_moved, hsize]
    omega

end MakesRoom

section Place

variable (h₀ : h.Sound) (hn : h.next ≤ maxSlot) (b : Block)
include h₀ hn

theorem reaches_of_place (hs : (h.place b).2.Reaches (ws ++ [(h.place b).1]) s) :
    s = h.next ∨ h.Reaches (ws ++ b.fields) s := by
  have hself := h₀.slot?_place hn b
  -- A word that was in the heap before may refer to the new slot by chance; what it then reaches is
  -- reached from the new block in any case.
  induction hs with
  | @word w t hw ht =>
    refine or_iff_not_imp_left.2 fun hne => ?_
    rcases List.mem_append.1 hw with hw | hw
    · exact .word (List.mem_append_left _ hw) (slot?_of_place ht hne)
    · obtain rfl := List.mem_singleton.1 hw
      exact absurd (Option.some.inj (ht.symm.trans hself)) hne
  | @field s t c w _ hc hw ht ih =>
    refine or_iff_not_imp_left.2 fun hne => ?_
    rw [blockAt?_place] at hc
    rcases ih with rfl | hs
    · rw [if_pos rfl] at hc
      obtain rfl := Option.some.inj hc
      exact .word (List.mem_append_right _ hw) (slot?_of_place ht hne)
    · obtain ⟨d, hd⟩ := hs.exists_block
      have hlt := (bounds_of_blockAt? hd).2
      rw [if_neg (by omega)] at hc
      exact .field hs hc hw (slot?_of_place ht hne)

theorem reaches_place_next : (h.place b).2.Reaches (ws ++ [(h.place b).1]) h.next :=
  .word (by simp) (h₀.slot?_place hn b)

theorem reaches_place (hs : h.Reaches (ws ++ b.fields) s) :
    (h.place b).2.Reaches (ws ++ [(h.place b).1]) s := by
  induction hs with
  | word hw ht =>
    rcases List.mem_append.1 hw with hw | hw
    · exact .word (List.mem_append_left _ hw) (slot?_place b ht)
    · have hblock : (h.place b).2.blockAt? h.next = some b := by rw [blockAt?_place, if_pos rfl]
      exact .field (reaches_place_next h₀ hn b) hblock hw (slot?_place b ht)
  | field _ hc hw ht ih =>
    have hlt := (bounds_of_blockAt? hc).2
    refine .field ih ?_ hw (slot?_place b ht)
    rw [blockAt?_place, if_neg (by omega), hc]

/-- A new block and some words reach the block and what its fields and the words reached before. -/
theorem reaches_place_iff :
    (h.place b).2.Reaches (ws ++ [(h.place b).1]) s ↔
      s = h.next ∨ h.Reaches (ws ++ b.fields) s := by
  constructor
  · exact reaches_of_place h₀ hn b
  · rintro (rfl | hs)
    · exact reaches_place_next h₀ hn b
    · exact reaches_place h₀ hn b hs

open Classical in
theorem reachedWords_place :
    (h.place b).2.reachedWords (ws ++ [(h.place b).1]) =
      h.reachedWords (ws ++ b.fields) + b.words := by
  have hlo : h.start ≤ h.next := Nat.le_add_right _ _
  have hnext : (h.place b).2.next = h.next + 1 := next_place h b
  have hreached : ((Finset.Ico h.start (h.next + 1)).filter fun s =>
      (h.place b).2.Reaches (ws ++ [(h.place b).1]) s) =
        insert h.next
          ((Finset.Ico h.start h.next).filter fun s => h.Reaches (ws ++ b.fields) s) := by
    ext s
    simp only [Finset.mem_filter, Finset.mem_insert, Finset.mem_Ico, reaches_place_iff h₀ hn b]
    grind
  have hwords : ∀ s, (h.place b).2.wordsAt s = if s = h.next then b.words else h.wordsAt s := by
    intro s
    rw [wordsAt, blockAt?_place, wordsAt]
    split <;> rfl
  show ∑ s ∈ (Finset.Ico h.start (h.place b).2.next).filter _, _ = _
  rw [hnext, hreached, Finset.sum_insert (by simp), hwords, if_pos rfl, Nat.add_comm,
    Heap.reachedWords]
  congr 1
  apply Finset.sum_congr rfl
  intro s hs
  have hlt := (Finset.mem_Ico.1 (Finset.mem_filter.1 hs).1).2
  rw [hwords, if_neg (by omega)]

end Place

/-- `h'` has what the roots of `h` and the words `ws` reach, with words turned into others by `f`
and slots renamed by `φ`; what does not resolve is kept. -/
structure Relocates (f : Word → Word) (φ : Nat → Nat) (h : Heap) (ws : List Word) (h' : Heap) :
    Prop where
  keeps : Keeps f φ (h.hold ws) (h'.hold (ws.map f))
  unresolved : ∀ w, h.slot? w = none → f w = w
  roots : h'.roots = h.roots.map f

theorem holds_hold (hw : w ∈ ws) : (h.hold ws).Holds w :=
  .inl (List.mem_append_left _ (List.mem_append_right _ hw))

theorem hold_truncateRoots (hm : MakesRoom (h.hold ws) f k) :
    (k.truncateRoots h.roots.length).hold (ws.map f) = k := by
  have hroots : (k.truncateRoots h.roots.length).roots ++ ws.map f = k.roots := by
    rw [roots_truncateRoots, hm.roots, hold, List.map_append]
    rw [List.take_left' (List.length_map f)]
  unfold hold
  rw [hroots]
  rfl

theorem MakesRoom.relocates (h₀ : h.Sound) (hm : MakesRoom (h.hold ws) f k) :
    ∃ φ, Relocates f φ h ws (k.truncateRoots h.roots.length) := by
  obtain ⟨φ, hk⟩ := hm.keeps (h₀.hold ws)
  refine ⟨φ, ?_, fun w hw => hm.unresolved hw, ?_⟩
  · rw [hold_truncateRoots hm]
    exact hk
  · rw [roots_truncateRoots, hm.roots, hold, List.map_append]
    exact List.take_left' (List.length_map f)

/-- `w` refers to a block of `h'` that is `b`, and that is not one of `h`. -/
structure IsNew (φ : Nat → Nat) (h h' : Heap) (w : Word) (b : Block) : Prop where
  block : h'.block w = .ok (some b)
  slot : ∃ t, h'.slot? w = some t ∧ h.next ≤ t ∧ ∀ s ∈ h.live, φ s ≠ t

/-- A block that is placed beside those that became of the blocks of `h`. -/
theorem isNew_place (hφ : ∀ s ∈ h.live, ∃ c, k.blockAt? (φ s) = some c) (hle : h.next ≤ k.next)
    (h₀ : k.Sound) (hn : k.next ≤ maxSlot) (b : Block) :
    IsNew φ h (k.place b).2 (k.place b).1 b where
  block := h₀.block_place hn b
  slot := by
    refine ⟨k.next, h₀.slot?_place hn b, hle, fun s hs he => ?_⟩
    obtain ⟨c, hc⟩ := hφ s hs
    have hlt := (bounds_of_blockAt? hc).2
    omega

namespace Relocates

theorem place (hr : Relocates f φ h ws h') (b : Block) (hn : h'.next ≤ maxSlot) :
    Relocates f φ h ws (h'.place b).2 where
  keeps := hr.keeps.trans (.place (h := h'.hold (ws.map f)) b hn)
  unresolved := hr.unresolved
  roots := hr.roots

theorem sound (h₀ : h.Sound) (hr : Relocates f φ h ws h') : h'.Sound := by
  have hk := hr.keeps.drifts.steps.sound (h₀.hold ws)
  exact ⟨hk.epoch_le, hk.next_le⟩

/-- The words given denote what they did. -/
theorem denotes (hr : Relocates f φ h ws h') : ∀ w ∈ ws, ∀ s b, h.slot? w = some s →
    h.blockAt? s = some b →
      h'.slot? (f w) = some (φ s) ∧ h'.blockAt? (φ s) = some (b.mapFields f) := by
  intro w hw s b hs hb
  have hheld : (h.hold ws).Holds w := holds_hold hw
  have hslot : (h.hold ws).slot? w = some s := hs
  exact ⟨hr.keeps.slot w s hheld hslot, hr.keeps.block s (hheld.mem_live hslot) b hb⟩

theorem block_eq (hr : Relocates f φ h ws h') (hw : w ∈ ws) (hb : h.block w = .ok (some b)) :
    h'.block (f w) = .ok (some (b.mapFields f)) := by
  obtain ⟨s, hs, hat⟩ := block_eq_some_iff.1 hb
  exact block_eq_some_iff.2 ⟨φ s, hr.denotes w hw s b hs hat⟩

theorem isNew_place (h₀ : h.Sound) (hr : Relocates f φ h ws h') (hle : h.next ≤ h'.next)
    (hn : h'.next ≤ maxSlot) (b : Block) :
    IsNew φ (h.hold ws) (h'.place b).2 (h'.place b).1 b := by
  have hheld : (h.hold ws).next ≤ h'.next := hle
  apply Heap.isNew_place _ hheld (hr.sound h₀) hn
  intro s hs
  obtain ⟨c, hc⟩ := hs.exists_block
  exact ⟨_, hr.keeps.block s hs c hc⟩

end Relocates
end Heap

namespace Mutator

variable {h h' k : Heap} {w : Word} {words : Nat}

theorem makeRoom_eq_ok (hr : makeRoom words h = .ok () k) : ∃ f, Heap.MakesRoom h f k := by
  unfold makeRoom update at hr
  by_cases hroom : (h.isOverBudget words || h.exceedsLimit words) = true
  · simp only [if_pos hroom] at hr
    cases hc : h.collect with
    | error => simp [hc] at hr
    | ok k' =>
      simp only [hc, EStateM.Result.ok.injEq, true_and] at hr
      exact ⟨_, .collect (hr ▸ hc)⟩
  · simp only [if_neg hroom, EStateM.Result.ok.injEq, true_and] at hr
    subst hr
    exact ⟨id, .nothing⟩

/-- Room that is granted is there: what the roots reach leaves it. -/
theorem reserve_eq_ok (hc : h.Counted) (hr : reserve words h = .ok () k) :
    (∃ f, Heap.MakesRoom h f k) ∧
      ¬ h.config.tuning.Exceeded (h.reachedWords h.rootWords + words) := by
  rw [reserve_apply] at hr
  rcases makeRoom_cases hc words with ⟨f, h₁, hm, -⟩ | ⟨h₁, hm, -, he⟩
  · simp [hm] at hr
  · simp only [hm, checkLimit] at hr
    split at hr
    · cases hr
    next hfits =>
      obtain ⟨-, rfl⟩ := EStateM.Result.ok.inj hr
      rw [← Heap.overcommits_iff, ← he]
      exact ⟨makeRoom_eq_ok hm, hfits⟩

theorem holding_reserve_eq_ok (hc : h.Counted) {ws moved : List Word}
    (hr : holding ws (reserve words) h = .ok moved h') :
    ∃ f k, Heap.MakesRoom (h.hold ws) f k ∧ h' = k.truncateRoots h.roots.length ∧
      moved = ws.map f ∧
        ¬ h.config.tuning.Exceeded (h.reachedWords (h.rootWords ++ ws) + words) := by
  rw [holding_apply] at hr
  cases hk : reserve words (h.hold ws) with
  | error => simp [hk] at hr
  | ok a k =>
    simp only [hk, EStateM.Result.ok.injEq] at hr
    obtain ⟨rfl, rfl⟩ := hr
    obtain ⟨⟨f, hm⟩, hfits⟩ := reserve_eq_ok (hc.hold ws) hk
    rw [Heap.reachedWords_hold] at hfits
    refine ⟨f, k, hm, rfl, ?_, hfits⟩
    rw [hm.roots, Heap.hold, List.map_append]
    exact List.drop_left' (List.length_map f)

theorem push_eq_ok {b : Block} (hr : push b h = .ok w h') :
    h.next ≤ maxSlot ∧ w = (h.place b).1 ∧ h' = (h.place b).2 := by
  unfold push at hr
  split at hr
  · cases hr
  · obtain ⟨rfl, rfl⟩ := EStateM.Result.ok.inj hr
    exact ⟨by omega, rfl, rfl⟩

theorem allocString_eq_ok (hc : h.Counted) {bytes : Bytes}
    (hr : allocString bytes h = .ok w h') :
    ∃ f k, Heap.MakesRoom h f k ∧ k.next ≤ maxSlot ∧
      (w = (k.place (.string bytes)).1 ∧ h' = (k.place (.string bytes)).2) ∧
        ¬ h.config.tuning.Exceeded (h.reachedWords h.rootWords + (bytes.length / 8 + 2)) := by
  rw [allocString, allocate_apply] at hr
  cases hm : reserve (Block.words (.string bytes)) h with
  | error => simp [hm] at hr
  | ok a k =>
    simp only [hm] at hr
    obtain ⟨hn, hplace⟩ := push_eq_ok hr
    obtain ⟨⟨f, hroom⟩, hfits⟩ := reserve_eq_ok hc hm
    exact ⟨f, k, hroom, hn, hplace, hfits⟩

theorem allocTuple_eq_ok (hc : h.Counted) {ws : List Word} (hr : allocTuple ws h = .ok w h') :
    ∃ f k, Heap.MakesRoom (h.hold ws) f k ∧ k.next ≤ maxSlot ∧
      (w = ((k.truncateRoots h.roots.length).place (.tuple (ws.map f))).1 ∧
        h' = ((k.truncateRoots h.roots.length).place (.tuple (ws.map f))).2) ∧
      ¬ h.config.tuning.Exceeded (h.reachedWords (h.rootWords ++ ws) + (ws.length + 1)) := by
  rw [allocTuple_apply] at hr
  cases hm : holding ws (reserve (ws.length + 1)) h with
  | error => simp [hm] at hr
  | ok moved h₁ =>
    simp only [hm] at hr
    obtain ⟨hn, hplace⟩ := push_eq_ok hr
    obtain ⟨f, k, hroom, rfl, rfl, hfits⟩ := holding_reserve_eq_ok hc hm
    exact ⟨f, k, hroom, hn, hplace, hfits⟩

end Mutator
end MovingHeap

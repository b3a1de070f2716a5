import Mathlib.Algebra.Order.BigOperators.Group.List
import Mathlib.Algebra.Order.Ring.Nat
import Mathlib.Data.List.Perm.Subperm
import MovingHeap.Proofs.Schedule.Matched

/-!
Collections of matching heaps. Matching heaps have their survivors in the same order, and a heap
matches what a collection makes of it, so it makes no difference which of two matching heaps
collects.
-/
namespace MovingHeap

/-- The link from what a collection of `h` makes of it, where `l` is the link from `h`. -/
def Link.afterLeft (l : Link) (h : Heap) : Link where
  slots := fun t' t => ∃ s ∈ h.survivors, t' = h.newSlot s ∧ l.slots s t
  left := nextEpoch h.epoch
  right := l.right

namespace Heap

variable {h k : Heap} {l : Link}

/-- Turns beyond the number of blocks find nothing to visit. -/
theorem visitFrom_add {order : List Nat} (ho : h.Listing order) {n p : Nat}
    (hn : h.blocks.size ≤ n + p) (m : Nat) :
    h.visitFrom (n + m) p order = h.visitFrom n p order := by
  induction n generalizing p order with
  | zero =>
    have hnone : order[p]? = none := by
      have hlen := ho.length_le
      exact List.getElem?_eq_none (by omega)
    cases m with
    | zero => rfl
    | succ m => simp [visitFrom, hnone]
  | succ n ih =>
    rw [Nat.succ_add_eq_add_succ, Nat.add_succ]
    simp only [visitFrom]
    split
    · exact ih (ho.visitAll _) (by omega)
    · rfl

theorem survivors_eq_visitFrom (h : Heap) (m : Nat) :
    h.survivors = h.visitFrom (h.blocks.size + m) 0 (h.visitAll [] h.rootWords) :=
  (visitFrom_add ((Listing.nil h).visitAll _) (Nat.le_refl _) m).symm

namespace Matched

theorem visit (hm : Matched l h k) {order order' : List Nat} {v w : Word}
    (ho : List.Forall₂ l.slots order order') (hs : l.Same v w) :
    List.Forall₂ l.slots (h.visit order v) (k.visit order' w) := by
  unfold Heap.visit
  have hr := hm.slot?_rel hs
  revert hr
  cases h.slot? v <;> cases k.slot? w <;> intro hr <;> cases hr
  case none.none => exact ho
  case some.some s t hst =>
    have hmem : s ∈ order ↔ t ∈ order' := List.rel_mem hm.unique hst ho
    by_cases hs' : s ∈ order
    · simpa [hs', hmem.1 hs'] using ho
    · simpa [hs', mt hmem.2 hs'] using List.rel_append ho (.cons hst .nil)

theorem visitAll (hm : Matched l h k) {order order' : List Nat} {vs ws : List Word}
    (ho : List.Forall₂ l.slots order order') (hs : List.Forall₂ l.Same vs ws) :
    List.Forall₂ l.slots (h.visitAll order vs) (k.visitAll order' ws) := by
  induction hs generalizing order order' with
  | nil => exact ho
  | cons hs _ ih => exact ih (hm.visit ho hs)

theorem visitFrom (hm : Matched l h k) (n p : Nat) {order order' : List Nat}
    (ho : List.Forall₂ l.slots order order') :
    List.Forall₂ l.slots (h.visitFrom n p order) (k.visitFrom n p order') := by
  induction n generalizing p order order' with
  | zero => exact ho
  | succ n ih =>
    unfold Heap.visitFrom
    by_cases hp : p < order.length
    · have hp' : p < order'.length := ho.length_eq ▸ hp
      rw [List.getElem?_eq_getElem hp, List.getElem?_eq_getElem hp']
      have hst : l.slots order[p] order'[p] := ho.get hp hp'
      obtain ⟨b, c, hb, hc, hbc⟩ := hm.blocks _ _ hst
      have hfields : List.Forall₂ l.Same (h.fieldsAt order[p]) (k.fieldsAt order'[p]) := by
        simpa [fieldsAt, hb, hc] using hbc.fields
      exact ih (p + 1) (hm.visitAll ho hfields)
    · have hp' : ¬ p < order'.length := ho.length_eq ▸ hp
      rw [List.getElem?_eq_none (by omega), List.getElem?_eq_none (by omega)]
      exact ho

/-- Matching heaps have the same survivors, in the same order. -/
theorem survivors (hm : Matched l h k) : List.Forall₂ l.slots h.survivors k.survivors := by
  rw [h.survivors_eq_visitFrom k.blocks.size, k.survivors_eq_visitFrom h.blocks.size,
    Nat.add_comm k.blocks.size]
  exact hm.visitFrom _ _ (hm.visitAll .nil hm.rootWords)

end Matched
/-- The words of the block in slot `s`. -/
def wordsAt (h : Heap) (s : Nat) : Nat := (h.blockAt? s).elim 0 Block.words

/-- The words of what the roots reach. -/
def rootedWords (h : Heap) : Nat := (h.survivors.map h.wordsAt).sum

theorem wordsOf_eq_sum (blocks : Array Block) :
    wordsOf blocks = (blocks.toList.map Block.words).sum := by
  rw [wordsOf, ← Array.foldl_toList, List.sum_eq_foldl, List.foldl_map]

theorem liveWords_moved (h : Heap) : h.moved.liveWords = h.rootedWords := by
  rw [moved_eq]
  change wordsOf (h.survivors.map h.keptBlock).toArray = _
  rw [wordsOf_eq_sum, rootedWords, List.map_map]
  congr 1
  apply List.map_congr_left
  intro s hs
  obtain ⟨b, hb⟩ := exists_block_of_mem_survivors hs
  simp [keptBlock_of_blockAt? hb, wordsAt, hb]

/-- What is reachable is part of what is there. -/
theorem rootedWords_le (h : Heap) : h.rootedWords ≤ wordsOf h.blocks := by
  have hall : (List.range' h.start h.blocks.size).map h.wordsAt =
      h.blocks.toList.map Block.words := by
    apply List.ext_getElem
    · simp
    · intro i hi hj
      have hlt : i < h.blocks.size := by simpa using hi
      simp [wordsAt, blockAt?_of_le, hlt]
  have hsub : h.survivors ⊆ List.range' h.start h.blocks.size := by
    intro s hs
    exact List.mem_range'_1.2 (h.listing_survivors.bounds s hs)
  obtain ⟨slots, hperm, hslots⟩ := h.listing_survivors.nodup.subperm hsub
  rw [wordsOf_eq_sum, ← hall, rootedWords, ← (hperm.map h.wordsAt).sum_eq]
  exact (hslots.map h.wordsAt).sum_le_sum fun _ _ => Nat.zero_le _

theorem Counted.collect (hr : h.collect = .ok k) (hc : h.Counted) : k.Counted := by
  have hs : k.Sound := (Step.collect hr).sound hc.toSound
  obtain ⟨rfl, -⟩ := collect_eq_ok_iff.1 hr
  exact { hs with live := by rw [moved_eq] }

theorem map_eq_map_of_forall₂ {α β γ : Type} {R : α → β → Prop} {f : α → γ} {g : β → γ}
    {as : List α} {bs : List β} (hab : List.Forall₂ R as bs) (hfg : ∀ a b, R a b → f a = g b) :
    as.map f = bs.map g := by
  rw [← List.forall₂_eq_eq_eq, List.forall₂_map_left_iff, List.forall₂_map_right_iff]
  exact hab.imp hfg

theorem forall₂_map_left_of_mem {α β γ : Type} {R : α → β → Prop} {R' : γ → β → Prop} {f : α → γ}
    {as : List α} {bs : List β} (hab : List.Forall₂ R as bs)
    (hf : ∀ a ∈ as, ∀ b, R a b → R' (f a) b) : List.Forall₂ R' (as.map f) bs := by
  rw [List.forall₂_map_left_iff]
  refine ((List.forall₂_and_left _ _).2 ⟨fun _ ha => ha, hab⟩).imp ?_
  rintro a b ⟨ha, hr⟩
  exact hf a ha b hr

namespace Matched

theorem rootedWords_eq (hm : Matched l h k) : h.rootedWords = k.rootedWords := by
  have hwords : h.survivors.map h.wordsAt = k.survivors.map k.wordsAt := by
    apply map_eq_map_of_forall₂ hm.survivors
    intro s t hst
    obtain ⟨b, c, hb, hc, hbc⟩ := hm.blocks s t hst
    simp [wordsAt, hb, hc, hbc.words]
  rw [rootedWords, hwords, rootedWords]

theorem same_carry (hm : Matched l h k) {v w : Word} (hs : l.Same v w)
    (hv : ∀ s, h.slot? v = some s → s ∈ h.survivors) : (l.afterLeft h).Same (h.carry v) w := by
  cases hs with
  | immediate hw =>
    rw [carry_of_slot?_eq_none (slot?_of_ref?_eq_none hw)]
    exact .immediate hw
  | @block s t hst =>
    have hslot := hm.slot?_left hst
    rw [carry_of_slot? hslot (hv s hslot)]
    exact .block ⟨s, hv s hslot, rfl, hst⟩

theorem same_carry_of_rootWord (hm : Matched l h k) {v w : Word} (hv : v ∈ h.rootWords)
    (hs : l.Same v w) : (l.afterLeft h).Same (h.carry v) w :=
  hm.same_carry hs fun _ => mem_survivors_of_rootWord hv

/-- A collection on the left keeps heaps matching. -/
theorem collect_left (hm : Matched l h k) {h' : Heap} (hr : h.collect = .ok h') :
    Matched (l.afterLeft h) h' k := by
  have hcounted : h'.Counted := hm.countedLeft.collect hr
  obtain ⟨rfl, -⟩ := collect_eq_ok_iff.1 hr
  refine
    { left := h.epoch_moved.symm
      right := hm.right
      countedLeft := hcounted
      countedRight := hm.countedRight
      unique := ⟨?_, ?_⟩
      blocks := ?_
      roots := ?_
      registry := ?_
      builtins := fun b => h.builtin_moved b ▸
        hm.same_carry_of_rootWord (h.builtin_mem_rootWords b) (hm.builtins b)
      pending := ?_
      identities := h.identities_moved.trans hm.identities
      maxWords := h.config_moved ▸ hm.maxWords
      messageLimit := h.config_moved ▸ hm.messageLimit }
  · rintro _ _ t ⟨s, -, rfl, hst⟩ ⟨s', -, rfl, hst'⟩
    rw [hm.unique.1 hst hst']
  · rintro _ t t' ⟨s, hs, rfl, hst⟩ ⟨s', hs', he, hst'⟩
    have hidx : h.survivors.idxOf s = h.survivors.idxOf s' := by
      unfold newSlot at he
      omega
    obtain rfl := (List.idxOf_inj hs).1 hidx
    exact hm.unique.2 hst hst'
  · rintro _ t ⟨s, hs, rfl, hst⟩
    obtain ⟨b, c, hb, hc, hbc⟩ := hm.blocks s t hst
    refine ⟨_, c, blockAt?_moved_newSlot hs hb, hc, by simpa using hbc.tag,
      by simpa using hbc.bytes, ?_⟩
    rw [Block.fields_mapFields]
    refine forall₂_map_left_of_mem hbc.fields fun v hv w hs' => hm.same_carry hs' fun u hu => ?_
    exact mem_survivors_of_field hs hb hv hu
  · rw [roots_moved]
    refine forall₂_map_left_of_mem hm.roots fun v hv w => hm.same_carry_of_rootWord ?_
    exact List.mem_append_left _ hv
  · rw [registry_moved]
    refine forall₂_map_left_of_mem hm.registry fun e he f hef => ⟨hef.1, ?_⟩
    exact hm.same_carry_of_rootWord (mem_rootWords_of_entry he) hef.2
  · rw [pending_moved]
    have hp := hm.pending
    revert hp
    cases hv : h.pending <;> cases k.pending <;> intro hp <;> cases hp
    · exact .none
    · exact .some (hm.same_carry_of_rootWord (mem_rootWords_of_pending hv) ‹_›)

end Matched
end Heap
end MovingHeap

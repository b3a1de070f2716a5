import MovingHeap.Proofs.Mutator.Supply

/-!
When an allocation is refused for want of memory. Main statement: it raises exactly if what can be
reached and the new block are together beyond the limit, and then on the collected heap; what else
the heap holds, and when it collects, makes no difference.
-/
namespace MovingHeap
namespace Heap

/-- The heap with other settings for its pace and its limit. -/
def tuned (h : Heap) (t : Tuning) : Heap := { h with config := { h.config with tuning := t } }

end Heap

namespace Mutator

variable {α β : Type} {m : Mutator α} {h h' : Heap} {r : Raise} {words : Nat}

theorem raiseOutOfMemory_apply (h : Heap) :
    (raiseOutOfMemory : Mutator α) h = .error (.raise h.outOfMemory) h := rfl

theorem raiseOutOfMemory_eq_raise_iff :
    (raiseOutOfMemory : Mutator α) h = .error (.raise r) h ↔ r = h.outOfMemory := by
  rw [raiseOutOfMemory_apply]
  simp [eq_comm]

/-- `m` raises nothing. -/
def NeverRaises (m : Mutator α) : Prop := ∀ h h' r, m h ≠ .error (.raise r) h'

theorem neverRaises_push (b : Block) : NeverRaises (push b) := by
  intro h h' r
  unfold push
  split <;> simp

theorem neverRaises_refuse (c : Prop) [Decidable c] (f : Fault) : NeverRaises (refuse c f) := by
  intro h h' r
  rw [refuse_apply]
  split <;> simp

theorem NeverRaises.bind {k : α → Mutator β} (hm : NeverRaises m) (hk : ∀ a, NeverRaises (k a)) :
    NeverRaises (m >>= k) := by
  intro h h' r
  rw [bind_apply]
  cases hr : m h with
  | ok a h₁ => exact hk a h₁ h' r
  | error e h₁ =>
    intro he
    obtain ⟨rfl, rfl⟩ := EStateM.Result.error.inj he
    exact hm h h₁ r hr

theorem bind_eq_raise_iff {k : α → Mutator β} (hk : ∀ a, NeverRaises (k a)) :
    (m >>= k) h = .error (.raise r) h' ↔ m h = .error (.raise r) h' := by
  rw [bind_apply]
  cases m h with
  | ok a h₁ => simpa using hk a h₁ h' r
  | error e h₁ => simp

/-- Room is refused on the collected heap, if what the roots reach leaves too little of it. -/
theorem reserve_eq_raise_iff (hc : h.Counted) :
    reserve words h = .error (.raise r) h' ↔
      h.config.tuning.Exceeded (h.reachedWords h.rootWords + words) ∧ h.collect = .ok h' ∧
        r = h'.outOfMemory := by
  rw [← Heap.overcommits_iff, reserve_apply, makeRoom, update]
  by_cases hroom : (h.isOverBudget words || h.exceedsLimit words) = true
  · simp only [if_pos hroom]
    cases hr : h.collect with
    | error f => simp
    | ok k =>
      have hover := Heap.exceedsLimit_of_collect hr words
      simp only [checkLimit, hover]
      cases h.overcommits words <;> simp
      grind
  · simp only [if_neg hroom]
    have he : h.exceedsLimit words = false := by simp_all
    simp [checkLimit, he, Heap.overcommits_eq_false hc he]

/-- Holding words meanwhile counts what they reach. -/
theorem holding_reserve_eq_raise_iff (hc : h.Counted) {ws : List Word} :
    holding ws (reserve words) h = .error (.raise r) h' ↔
      h.config.tuning.Exceeded (h.reachedWords (h.rootWords ++ ws) + words) ∧
        ∃ k, (h.hold ws).collect = .ok k ∧ h' = k.truncateRoots h.roots.length ∧
          r = h'.outOfMemory := by
  have hiff : ∀ k, reserve words (h.hold ws) = .error (.raise r) k ↔
      h.config.tuning.Exceeded (h.reachedWords (h.rootWords ++ ws) + words) ∧
        (h.hold ws).collect = .ok k ∧ r = k.outOfMemory := by
    intro k
    rw [reserve_eq_raise_iff (hc.hold ws), Heap.reachedWords_hold]
    rfl
  rw [holding_apply]
  cases hr : reserve words (h.hold ws) with
  | ok a k =>
    simp only [hr, reduceCtorEq, false_iff] at hiff ⊢
    rintro ⟨he, k', hk, rfl, rfl⟩
    exact hiff k' ⟨he, hk, rfl⟩
  | error e k =>
    simp only [hr, EStateM.Result.error.injEq] at hiff ⊢
    constructor
    · rintro ⟨rfl, rfl⟩
      obtain ⟨he, hk, rfl⟩ := (hiff k).1 ⟨rfl, rfl⟩
      exact ⟨he, k, hk, rfl, rfl⟩
    · rintro ⟨he, k', hk, rfl, rfl⟩
      obtain ⟨rfl, rfl⟩ := (hiff k').2 ⟨he, hk, rfl⟩
      exact ⟨rfl, rfl⟩

theorem checkLimitSum_cases (words : Nat) (h : Heap) :
    checkLimitSum words h = .ok () h ∨ checkLimitSum words h = .error (.fault .sizeOverflow) h := by
  unfold checkLimitSum
  split <;> simp

theorem checkBudgetSum_cases (words : Nat) (h : Heap) :
    checkBudgetSum words h = .ok () h ∨
      checkBudgetSum words h = .error (.fault .sizeOverflow) h := by
  unfold checkBudgetSum
  split
  · exact .inr rfl
  · split
    · exact .inl rfl
    · exact checkLimitSum_cases words h

/-- Where no sum overflows, a blank block is allocated like any other. -/
theorem allocFields_eq (hc : h.Counted) {tag : Tag} {size : Nat} (ht : tag ≠ .string)
    (ho : ¬ h.Overflows (size + 1)) :
    allocFields tag size h =
      (reserve (size + 1) >>= fun _ => refuse (fieldRange ≤ size) .capacityOverflow >>= fun _ =>
        push (blank tag size)) h := by
  have hsum : ¬ Faults (allocFields tag size) h .sizeOverflow := by
    rw [faults_allocFields_iff hc]
    exact fun hf => ho hf.2
  have hrefuse : refuse (tag = .string) .stringFields h = .ok () h := by
    rw [refuse_apply, if_neg ht]
  unfold Faults at hsum
  rw [reserve]
  simp only [allocFields, bind_apply, hrefuse] at hsum ⊢
  rcases checkBudgetSum_cases (size + 1) h with hb | hb
  · simp only [hb] at hsum ⊢
    cases hm : makeRoom (size + 1) h with
    | error e h₁ => rfl
    | ok a h₁ =>
      simp only [hm] at hsum ⊢
      rcases checkLimitSum_cases (size + 1) h₁ with hl | hl
      · simp only [hl]
      · simp [hl] at hsum
  · simp [hb] at hsum

theorem allocFields_eq_raise_iff (hc : h.Counted) {tag : Tag} {size : Nat} :
    allocFields tag size h = .error (.raise r) h' ↔ tag ≠ .string ∧ ¬ h.Overflows (size + 1) ∧
      h.config.tuning.Exceeded (h.reachedWords h.rootWords + (size + 1)) ∧ h.collect = .ok h' ∧
        r = h'.outOfMemory := by
  by_cases ht : tag = .string
  · simp [allocFields, bind_apply, refuse_apply, ht]
  by_cases ho : h.Overflows (size + 1)
  · obtain ⟨k, hk⟩ := (faults_allocFields_iff hc tag size).2 ⟨ht, ho⟩
    simp [hk, ho]
  · have hrest : ∀ a : Unit, NeverRaises (refuse (fieldRange ≤ size) .capacityOverflow >>= fun _ =>
        push (blank tag size)) := fun _ =>
      (neverRaises_refuse _ _).bind fun _ => neverRaises_push _
    rw [allocFields_eq hc ht ho, bind_eq_raise_iff hrest, reserve_eq_raise_iff hc]
    simp [ht, ho]

theorem allocString_eq_raise_iff (hc : h.Counted) {bytes : Bytes} :
    allocString bytes h = .error (.raise r) h' ↔
      h.config.tuning.Exceeded (h.reachedWords h.rootWords + (bytes.length / 8 + 2)) ∧
        h.collect = .ok h' ∧ r = h'.outOfMemory := by
  unfold allocString allocate
  rw [bind_eq_raise_iff fun _ => neverRaises_push _, reserve_eq_raise_iff hc]
  rfl

theorem allocTuple_eq_raise_iff (hc : h.Counted) {fields : List Word} :
    allocTuple fields h = .error (.raise r) h' ↔
      h.config.tuning.Exceeded (h.reachedWords (h.rootWords ++ fields) + (fields.length + 1)) ∧
        ∃ k, (h.hold fields).collect = .ok k ∧ h' = k.truncateRoots h.roots.length ∧
          r = h'.outOfMemory := by
  unfold allocTuple
  rw [bind_eq_raise_iff fun _ => neverRaises_push _, holding_reserve_eq_raise_iff hc]

theorem allocString_exhaustsIff (hc : h.Counted) (bytes : Bytes) :
    ExhaustsIff (allocString bytes) h (h.LacksSlots (bytes.length / 8 + 2)) :=
  reserve_bind_exhaustsIff hc fun k _ => push_exhaustsIff (.string bytes) k

theorem allocTuple_exhaustsIff (hc : h.Counted) (fields : List Word) :
    ExhaustsIff (allocTuple fields) h ((h.hold fields).LacksSlots (fields.length + 1)) :=
  holding_reserve_bind_exhaustsIff hc fields fun moved k => push_exhaustsIff (.tuple moved) k

/-- A size that no memory can hold is let through by no limit that it exceeds. -/
theorem allocFields_exhaustsIff (hc : h.Counted) {tag : Tag} {size : Nat} (ht : tag ≠ .string)
    (ho : ¬ h.Overflows (size + 1)) (hsize : size < fieldRange ∨
      h.config.tuning.Exceeded (h.reachedWords h.rootWords + (size + 1))) :
    ExhaustsIff (allocFields tag size) h (h.LacksSlots (size + 1)) := by
  let place : Unit → Mutator Word := fun _ => do
    refuse (fieldRange ≤ size) .capacityOverflow
    push (blank tag size)
  have hpush : ∀ k, reserve (size + 1) h = .ok () k →
      ExhaustsIff (place ()) k (maxSlot < k.next) := by
    intro k hk
    have hfits : ¬ h.config.tuning.Exceeded (h.reachedWords h.rootWords + (size + 1)) := by
      rcases reserve_slots hc (size + 1) with ⟨_, hr, -⟩ | ⟨_, _, hr, -⟩ | ⟨_, -, -, hfits⟩
      · cases hk.symm.trans hr
      · cases hk.symm.trans hr
      · exact hfits
    have hfew : ¬ fieldRange ≤ size := Nat.not_le.2 (hsize.resolve_right hfits)
    have hrefuse : refuse (fieldRange ≤ size) .capacityOverflow k = .ok () k := by
      rw [refuse_apply, if_neg hfew]
    unfold ExhaustsIff
    simp only [place, faults_bind_iff_of_ok hrefuse]
    exact push_exhaustsIff (blank tag size) k
  have hreserve := reserve_bind_exhaustsIff hc hpush
  unfold ExhaustsIff Faults at hreserve ⊢
  rwa [allocFields_eq hc ht ho]

end Mutator

namespace Heap

open Mutator (Faults ExhaustsIff allocFields allocString allocTuple raiseOutOfMemory)

/-- Whatever the settings and whatever else the heap holds, memory is wanting exactly if what the
roots and the given fields reach and the new block are together beyond the limit. The raise is
the one for want of memory, on the collected heap. Nothing else goes wrong unless slots lack, be it
for the collection that is to show whether memory is wanting, or for the block; and as long as there
are as many slots as blocks, they do not. -/
theorem allocation_raises_iff {config : Config} {h : Heap} (hr : Reachable config h) (t : Tuning) :
    (∀ tag size r h', allocFields tag size (h.tuned t) = .error (.raise r) h' ↔
      (tag ≠ .string ∧ ¬ (h.tuned t).Overflows (size + 1)) ∧
      t.Exceeded (h.reachedWords h.rootWords + (size + 1)) ∧
      (h.tuned t).collect = .ok h' ∧
      (raiseOutOfMemory : Mutator Word) h' = .error (.raise r) h') ∧
    (∀ bytes r h', allocString bytes (h.tuned t) = .error (.raise r) h' ↔
      t.Exceeded (h.reachedWords h.rootWords + (bytes.length / 8 + 2)) ∧
      (h.tuned t).collect = .ok h' ∧
      (raiseOutOfMemory : Mutator Word) h' = .error (.raise r) h') ∧
    (∀ fields r h', allocTuple fields (h.tuned t) = .error (.raise r) h' ↔
      t.Exceeded (h.reachedWords (h.rootWords ++ fields) + (fields.length + 1)) ∧
      (∃ k, ((h.tuned t).hold fields).collect = .ok k ∧ h' = k.truncateRoots h.roots.length) ∧
      (raiseOutOfMemory : Mutator Word) h' = .error (.raise r) h') ∧
    ((∀ tag size, tag ≠ .string → ¬ (h.tuned t).Overflows (size + 1) →
        size < Mutator.fieldRange ∨ t.Exceeded (h.reachedWords h.rootWords + (size + 1)) →
        ExhaustsIff (allocFields tag size) (h.tuned t) ((h.tuned t).LacksSlots (size + 1))) ∧
      (∀ bytes, ExhaustsIff (allocString bytes) (h.tuned t)
        ((h.tuned t).LacksSlots (bytes.length / 8 + 2))) ∧
      ∀ fields, ExhaustsIff (allocTuple fields) (h.tuned t)
        (((h.tuned t).hold fields).LacksSlots (fields.length + 1))) ∧
    (h.next + h.blocks.size ≤ maxSlot →
      (∀ fields, ∃ h', ((h.tuned t).hold fields).collect = .ok h') ∧
      (∀ tag size f, tag ≠ .string → ¬ (h.tuned t).Overflows (size + 1) →
        size < Mutator.fieldRange ∨ t.Exceeded (h.reachedWords h.rootWords + (size + 1)) →
        ¬ Faults (allocFields tag size) (h.tuned t) f) ∧
      (∀ bytes f, ¬ Faults (allocString bytes) (h.tuned t) f) ∧
      ∀ fields f, ¬ Faults (allocTuple fields) (h.tuned t) f) := by
  have hstore : SameStore h (h.tuned t) := ⟨rfl, rfl, rfl⟩
  have hc : (h.tuned t).Counted := hr.counted.congr hstore rfl
  have hwords : ∀ ws, (h.tuned t).reachedWords ws = h.reachedWords ws :=
    fun ws => hstore.reachedWords (List.Subset.refl ws) (List.Subset.refl ws)
  simp only [Mutator.raiseOutOfMemory_eq_raise_iff, ← hwords]
  have hfields := fun tag size => @Mutator.allocFields_exhaustsIff _ hc tag size
  have hstring := Mutator.allocString_exhaustsIff hc
  have htuple := Mutator.allocTuple_exhaustsIff hc
  refine ⟨fun tag size r h' => ?_, fun bytes r h' => Mutator.allocString_eq_raise_iff hc,
    fun fields r h' => ?_, ⟨hfields, hstring, htuple⟩,
    fun hn => ⟨fun fields => ?_, fun tag size f ht ho hs => ?_, fun bytes f => ?_,
      fun fields f => ?_⟩⟩
  · rw [Mutator.allocFields_eq_raise_iff hc, and_assoc]
    rfl
  · rw [Mutator.allocTuple_eq_raise_iff hc]
    simp only [← and_assoc, exists_and_right]
    rfl
  · exact ⟨_, (collect_of_room (h := (h.tuned t).hold fields) hn).1⟩
  · exact (hfields tag size ht ho hs).not_faults (not_lacksSlots_of_room (h := h.tuned t) hn _)
  · exact (hstring bytes).not_faults (not_lacksSlots_of_room (h := h.tuned t) hn _)
  · exact (htuple fields).not_faults (not_lacksSlots_of_room (h := (h.tuned t).hold fields) hn _)

def tight : Config := { tuning := { maxWords := some 30 } }

/-- Four of 28 live words belong to a block that nothing holds. -/
def crowded : Heap := (Operation.allocTuple [.unit, .unit, .unit]).after (.new tight)

/-- Six more words fit once the block is dropped, and seven do not. -/
theorem allocation_raises_when_crowded : Reachable tight crowded ∧ crowded.liveWords = 28 ∧
    ¬ tight.tuning.Exceeded (crowded.reachedWords crowded.rootWords + 6) ∧
    tight.tuning.Exceeded (crowded.reachedWords crowded.rootWords + 7) ∧
    ∃ r h', allocFields .tuple 6 crowded = .error (.raise r) h' ∧ crowded.collect = .ok h' := by
  have hr : Reachable tight crowded := .after _ .new
  obtain ⟨hiff, -⟩ := allocation_raises_iff hr tight.tuning
  have hfits : Mutator.succeeds (allocFields .tuple 5) crowded = true := by decide +kernel
  have hraises : Mutator.raises (allocFields .tuple 6) crowded = true := by decide +kernel
  obtain ⟨r, h', hraises⟩ := Mutator.raises_iff.1 hraises
  obtain ⟨-, hexceeded, hcollect, -⟩ := (hiff .tuple 6 r h').1 hraises
  refine ⟨hr, by decide +kernel, fun he => ?_, hexceeded, r, h', hraises, hcollect⟩
  obtain ⟨w, k, hok⟩ := Mutator.succeeds_iff.1 hfits
  have hsums : ¬ crowded.Overflows 6 := by
    intro ho
    obtain ⟨k', hfault⟩ := (Mutator.faults_allocFields_iff hr.counted .tuple 5).2 ⟨by decide, ho⟩
    cases hok.symm.trans hfault
  have hraise : (raiseOutOfMemory : Mutator Word) h' = .error (.raise h'.outOfMemory) h' :=
    Mutator.raiseOutOfMemory_apply h'
  cases hok.symm.trans ((hiff .tuple 5 _ _).2 ⟨⟨by decide, hsums⟩, he, hcollect, hraise⟩)

end Heap
end MovingHeap

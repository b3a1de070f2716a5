import MovingHeap.Proofs.Accounting.History
import MovingHeap.Proofs.Mutator.Stages

/-!
When a block is placed. Main statement: what holds of a new heap, and is kept by collections, by
changes that place nothing and by a block placed where there is room for it, holds of every heap
that operations lead to.
-/
namespace MovingHeap
namespace Heap

variable {h h' : Heap} {config : Config} {I : Heap → Prop}

/-- A block of `words` words is within the budget or the first since a collection. -/
def Asked (h : Heap) (words : Nat) : Prop :=
  h.sinceCollection = 0 ∨ h.sinceCollection + words ≤ h.config.tuning.minorWords

/-- There is room for a block of `words` words. -/
structure Ready (h : Heap) (words : Nat) : Prop where
  asked : h.Asked words
  limit : h.exceedsLimit words = false

/-- `I` is kept by whatever operations do to a heap: blocks are placed only where there is room. -/
structure Paced (I : Heap → Prop) : Prop where
  collect : ∀ {h h' : Heap}, I h → h.collect = .ok h' → I h'
  quiet : ∀ {h h' : Heap}, I h → Quiet h h' → I h'
  place : ∀ {h : Heap} {b : Block}, I h → h.next ≤ maxSlot → h.Ready b.words → I (h.place b).2

namespace Paced

theorem makeRoom (hI : Paced I) (words : Nat) :
    Mutator.Triple I (Mutator.makeRoom words) (fun _ h => I h ∧ h.Asked words) fun _ => I := by
  refine .makeRoom (fun h k hi _ hk => ⟨hI.collect hi hk, .inl ?_⟩)
    (fun h hi hroom => ⟨hi, .inr ?_⟩) fun _ _ hi => hi
  · obtain ⟨rfl, -⟩ := collect_eq_ok_iff.1 hk
    rw [moved_eq]
  · simp only [isOverBudget, Bool.or_eq_false_iff, decide_eq_false_iff_not] at hroom
    omega

theorem checkLimit (I : Heap → Prop) (words : Nat) :
    Mutator.Triple (fun h => I h ∧ h.Asked words) (Mutator.checkLimit words)
      (fun _ h => I h ∧ h.Ready words) fun _ => I :=
  .checkLimit (fun _ ⟨hi, ha⟩ hl => ⟨hi, ha, hl⟩) fun _ hi _ => hi.1

theorem push (hI : Paced I) (b : Block) :
    Mutator.Triple (fun h => I h ∧ h.Ready b.words) (Mutator.push b) (fun _ => I) fun _ => I :=
  .push (fun _ ⟨hi, hr⟩ hn => hI.place hi hn hr) fun _ _ hi => hi.1

theorem roots (hI : Paced I) (h : Heap) (rs : List Word) (hi : I h) : I { h with roots := rs } :=
  hI.quiet hi ⟨.roots rs, rfl, rfl⟩

/-- The stages of allocations that keep `I`. -/
def stages (hI : Paced I) : Stages where
  idle := fun _ => I
  asked := fun words h => I h ∧ h.Asked words
  ready := fun words h => I h ∧ h.Ready words
  done := I
  stopped := fun _ => I
  makeRoom := hI.makeRoom
  checkLimit := checkLimit I
  push := hI.push
  fault := by
    rintro words f h (hi | ⟨hi, -⟩ | ⟨hi, -⟩) <;> exact hi
  idle_roots := fun _ => hI.roots
  ready_roots := fun words h rs ⟨hi, hr⟩ => ⟨hI.roots h rs hi, hr.asked, hr.limit⟩
  done_roots := hI.roots
  stopped_roots := fun _ => hI.roots

theorem triple_run (hI : Paced I) {o : Operation} (ho : o.allocates = true) :
    Mutator.Triple I o.run (fun _ => I) fun _ => I := by
  have hdone : ∀ words h, hI.stages.done h → hI.stages.idle words h := fun _ _ hi => hi
  have hcount : ∀ h, I h → I { h with identities := h.nextIdentity } :=
    fun h hi => hI.quiet hi ⟨.count, rfl, rfl⟩
  cases o with
  | collect =>
    have hcollect : Mutator.Triple I Mutator.collect (fun _ => I) fun _ => I :=
      .update (fun _ _ => hI.collect) fun _ _ hi => hi
    exact hcollect.bind fun _ _ hi => hi
  | allocFields tag size => exact (hI.stages.allocFields tag size).bind fun _ _ hi => hi
  | allocString bytes => exact (hI.stages.allocString bytes).bind fun _ _ hi => hi
  | allocTuple fields => exact (hI.stages.allocTuple fields).bind fun _ _ hi => hi
  | allocSome w => exact (hI.stages.allocTuple [w]).bind fun _ _ hi => hi
  | allocStringArray items => exact (Stages.allocStringArray hdone items).bind fun _ _ hi => hi
  | allocIdentity name => exact (Stages.allocIdentity hdone hcount name).bind fun _ _ hi => hi
  | raiseTwo traced identity first second =>
    exact hI.stages.raiseTwo traced identity first second fun _ _ hi => hi
  | raiseOutOfMemory => exact fun _ hi => hi
  | realize r => exact (Stages.realize hdone (fun _ _ hi => hi) r).bind fun _ _ hi => hi
  | named name =>
    have hnamed : Mutator.Triple I (Mutator.named name) (fun _ => I) fun _ => I := by
      refine .get_bind fun h => ?_
      split <;> exact fun _ hi => hi
    exact hnamed.bind fun _ _ hi => hi
  | setField | root | setRoot | dropRoots | register | unregister | park | takePending => cases ho

theorem after (hI : Paced I) (o : Operation) (hi : I h) : I (o.after h) := by
  by_cases ho : o.allocates = true
  · rcases o.after_eq_self_or_final h with he | he
    · rwa [he]
    · rw [he]
      exact (hI.triple_run ho).final hi
  · rcases Operation.after_eq_or_quiet (Bool.eq_false_iff.2 ho) h with he | hq
    · rwa [he]
    · exact hI.quiet hi hq

theorem reachable (hI : Paced I) (hnew : I (.new config)) (hr : Reachable config h) : I h := by
  induction hr with
  | new => exact hnew
  | after o _ ih => exact hI.after o ih

end Paced
end Heap
end MovingHeap

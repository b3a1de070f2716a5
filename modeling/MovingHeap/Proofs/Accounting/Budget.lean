import MovingHeap.Proofs.Accounting.Paced
import MovingHeap.Proofs.Mutator.Limit

/-!
How often a heap collects. Main statement: what was allocated since the last collection is within
the budget, unless it is a single block, and the allocation of a single block collects at most once.
-/
namespace MovingHeap
namespace Heap

variable {h h' : Heap} {config : Config}

/-- The budget is kept by what has been placed since the last collection: before the first one, by
all but the blocks of the builtin exceptions, and later by all but a block that is alone. -/
structure Within (config : Config) (recent : List Block) (h : Heap) : Prop where
  config_eq : h.config = config
  first : h.collections = 0 → h.sinceCollection ≠ 0 ∧
    h.sinceCollection ≤ max config.tuning.minorWords (wordsIn (Heap.new config).blocks.toList)
  later : 0 < h.collections → h.sinceCollection ≤ config.tuning.minorWords ∨ ∃ b, recent = [b]

/-- `h` has a history that keeps the budget. -/
def Budgeted (config : Config) (h : Heap) : Prop :=
  ∃ earlier recent, History config earlier recent h ∧ Within config recent h

theorem budgeted_new (config : Config) : Budgeted config (.new config) := by
  have hsince : (Heap.new config).sinceCollection = wordsIn (Heap.new config).blocks.toList :=
    (Account.new config).sinceCollection
  have hne : (Heap.new {}).sinceCollection ≠ 0 := by decide +kernel
  refine ⟨_, _, .new, rfl, fun _ => ⟨hne, ?_⟩, fun hc => absurd hc (Nat.lt_irrefl 0)⟩
  exact hsince ▸ Nat.le_max_right _ _

theorem paced_budgeted (config : Config) : Paced (Budgeted config) where
  collect := by
    rintro h h' ⟨earlier, recent, hh, hw⟩ hc
    refine ⟨_, _, hh.collect hc, ?_⟩
    obtain ⟨rfl, -⟩ := collect_eq_ok_iff.1 hc
    have hsince : h.moved.sinceCollection = 0 := by rw [moved_eq]
    refine ⟨h.config_moved.trans hw.config_eq, fun hn => ?_, fun _ => .inl ?_⟩
    · rw [collections_moved] at hn
      omega
    · rw [hsince]
      exact Nat.zero_le _
  quiet := by
    rintro h h' ⟨earlier, recent, hh, hw⟩ hq
    have hsame := hq.sameWords
    refine ⟨earlier, recent, hh.quiet hq, hsame.config.trans hw.config_eq, ?_, ?_⟩
    · rw [hq.collections, hsame.sinceCollection]
      exact hw.first
    · rw [hq.collections, hsame.sinceCollection]
      exact hw.later
  place := by
    rintro h b ⟨earlier, recent, hh, hw⟩ hn ⟨ha, -⟩
    rw [Asked, hw.config_eq] at ha
    refine ⟨earlier, _, hh.place b hn, hw.config_eq, fun hc => ?_, fun hc => ?_⟩
    · -- A heap that has not collected yet has placed something, so the budget was checked.
      change h.sinceCollection + b.words ≠ 0 ∧ h.sinceCollection + b.words ≤ _
      have hne := (hw.first hc).1
      exact ⟨by omega, Nat.le_trans (ha.resolve_left hne) (Nat.le_max_left _ _)⟩
    · -- Right after a collection a block of any size may be placed, and it is alone then.
      rcases ha with ha | ha
      · have hempty : recent = [] := wordsIn_eq_zero.1 (hh.account.sinceCollection.symm.trans ha)
        exact .inr ⟨b, by rw [hempty, List.nil_append]⟩
      · exact .inl ha

end Heap

/-- Words of the block that the operation allocates, if it allocates a single one. -/
def Operation.blockWords? : Operation → Option Nat
  | allocFields _ size => some (size + 1)
  | allocString bytes => some (Block.words (.string bytes))
  | allocTuple fields => some (fields.length + 1)
  | allocSome _ => some 2
  | raiseTwo .. => some 4
  | _ => none

theorem Stages.run_of_blockWords (S : Stages) (hdone : ∀ e h, S.done h → S.stopped e h)
    {o : Operation} {words : Nat} (ho : o.blockWords? = some words) :
    Mutator.Triple (S.idle words) o.run (fun _ => S.done) S.stopped := by
  cases o with
  | allocFields tag size =>
    obtain rfl := Option.some.inj ho
    exact (S.allocFields tag size).bind fun _ _ hd => hd
  | allocString bytes =>
    obtain rfl := Option.some.inj ho
    exact (S.allocString bytes).bind fun _ _ hd => hd
  | allocTuple fields =>
    obtain rfl := Option.some.inj ho
    exact (S.allocTuple fields).bind fun _ _ hd => hd
  | allocSome w =>
    obtain rfl := Option.some.inj ho
    exact (S.allocTuple [w]).bind fun _ _ hd => hd
  | raiseTwo traced identity first second =>
    obtain rfl := Option.some.inj ho
    exact S.raiseTwo traced identity first second hdone
  | _ => cases ho

/-- The stages of an allocation as far as its collections go: they have been made with the room, if
at all. -/
def Stages.counting (idle : Nat → Heap → Prop) (made : Nat → Prop) (stopped : Stop → Nat → Prop)
    (hroom : ∀ words, Mutator.Triple (idle words) (Mutator.makeRoom words)
      (fun _ h => made h.collections) fun e h => stopped e h.collections)
    (hroots : ∀ words h rs, idle words h → idle words { h with roots := rs })
    (hidle : ∀ words f h, idle words h → stopped (.fault f) h.collections)
    (hmade : ∀ e n, made n → stopped e n) : Stages where
  idle := idle
  asked := fun _ h => made h.collections
  ready := fun _ h => made h.collections
  done := fun h => made h.collections
  stopped := fun e h => stopped e h.collections
  makeRoom := hroom
  checkLimit := fun _ => .checkLimit (fun _ hm _ => hm) fun _ hm _ => hmade _ _ hm
  push := fun _ => .push (fun _ hm _ => hm) fun _ _ hm => hmade _ _ hm
  fault := by
    rintro words f h (hi | hm | hm)
    · exact hidle words f h hi
    · exact hmade _ _ hm
    · exact hmade _ _ hm
  idle_roots := hroots
  ready_roots := fun _ _ _ hm => hm
  done_roots := fun _ _ hm => hm
  stopped_roots := fun _ _ _ he => he

/-- Making room collects once, if the budget or the limit asks for it, and else not at all. -/
theorem Mutator.makeRoom_triple {P Q : Heap → Prop} {E : Stop → Heap → Prop} {words : Nat}
    (hq : ∀ h k : Heap, P h → k.collections =
      h.collections + (h.isOverBudget words || h.exceedsLimit words).toNat → Q k)
    (he : ∀ f h, P h → E (.fault f) h) : Triple P (makeRoom words) (fun _ => Q) E := by
  refine .makeRoom (fun h k hp hover hk => hq h k hp ?_) (fun h hp hroom => hq h h hp ?_) he
  · obtain ⟨rfl, -⟩ := Heap.collect_eq_ok_iff.1 hk
    rw [hover, Heap.collections_moved]
    rfl
  · rw [hroom]
    rfl

namespace Stages

/-- After `n` collections, there is one more at most. -/
def onceAtMost (n : Nat) : Stages :=
  counting (fun _ h => h.collections = n) (fun m => n ≤ m ∧ m ≤ n + 1)
    (fun _ m => n ≤ m ∧ m ≤ n + 1)
    (fun words => Mutator.makeRoom_triple
      (fun h k hn hk => by
        have hle := (h.isOverBudget words || h.exceedsLimit words).toNat_le
        omega)
      fun _ h hn => by omega)
    (fun _ _ _ hn => hn) (fun _ _ h hn => by omega) fun _ _ hm => hm

/-- After `n` collections, there is one more in stress mode, unless there is a fault. -/
def onceUnderStress (n : Nat) : Stages :=
  counting (fun _ h => h.collections = n ∧ h.config.tuning.stress = true) (fun m => m = n + 1)
    (fun e m => ∀ r, e = .raise r → m = n + 1)
    (fun words => Mutator.makeRoom_triple
      (fun h k ⟨hn, hs⟩ hk => by
        have hover : h.isOverBudget words = true := by rw [Heap.isOverBudget, hs, Bool.true_or]
        rw [hk, hn, hover, Bool.true_or]
        rfl)
      fun f h _ r hr => by cases hr)
    (fun _ _ _ hi => hi) (fun _ _ _ _ r hr => by cases hr) fun _ _ hm _ _ => hm

/-- After `n` collections, there is none where nothing asks for it. -/
def never (n : Nat) : Stages :=
  counting (fun words h => h.collections = n ∧
      (h.isOverBudget words || h.exceedsLimit words) = false) (fun m => m = n) (fun _ m => m = n)
    (fun words => Mutator.makeRoom_triple
      (fun h k ⟨hn, hroom⟩ hk => by
        rw [hk, hn, hroom]
        rfl)
      fun _ h hi => hi.1)
    (fun _ _ _ hi => hi) (fun _ _ h hi => hi.1) fun _ _ hm => hm

end Stages

namespace Heap

variable {h : Heap} {config : Config}

theorem within_of_history (hr : Reachable config h) {earlier recent : List Block}
    (hh : History config earlier recent h) :
    (h.collections = 0 → h.sinceCollection ≤
      max config.tuning.minorWords (wordsIn (Heap.new config).blocks.toList)) ∧
    (0 < h.collections → ∀ first rest, recent = first :: rest →
      h.sinceCollection ≤ max config.tuning.minorWords first.words ∧
        (config.tuning.minorWords < h.sinceCollection → rest = [])) := by
  obtain ⟨earlier', recent', hh', hw⟩ :=
    (paced_budgeted config).reachable (budgeted_new config) hr
  refine ⟨fun hc => (hw.first hc).2, ?_⟩
  rintro hc first rest rfl
  rcases hw.later hc with hle | ⟨b, rfl⟩
  · exact ⟨Nat.le_trans hle (Nat.le_max_left _ _), fun hlt => absurd hle (Nat.not_le.2 hlt)⟩
  · -- The sizes of what was placed since the collection are the same in every history.
    have hsizes := hh.account.map_words_eq hh'.account
    rw [List.map_cons, List.map_cons, List.map_nil, List.cons.injEq, List.map_eq_nil_iff] at hsizes
    obtain ⟨-, rfl⟩ := hsizes
    have hsince : h.sinceCollection = first.words := by
      simpa [wordsIn] using hh.account.sinceCollection
    exact ⟨hsince ▸ Nat.le_max_right _ _, fun _ => rfl⟩

/-- However a heap was reached, what was allocated since the last collection exceeds the budget by
the first block only, which is then alone, or is that of a new heap. Allocating a single block
collects at most once: exactly once in stress mode, and not at all where neither stress nor the
budget nor the limit asks for it. -/
theorem collects_in_time (hr : Reachable config h) :
    (∃ earlier recent, History config earlier recent h) ∧
    (∀ earlier recent, History config earlier recent h →
      h.sinceCollection = wordsIn recent ∧
      (h.collections = 0 → h.sinceCollection ≤
        max config.tuning.minorWords (wordsIn (Heap.new config).blocks.toList)) ∧
      (0 < h.collections → ∀ first rest, recent = first :: rest →
        h.sinceCollection ≤ max config.tuning.minorWords first.words ∧
          (config.tuning.minorWords < h.sinceCollection → rest = []))) ∧
    ∀ (o : Operation) words, o.blockWords? = some words →
      (h.collections ≤ (o.after h).collections ∧ (o.after h).collections ≤ h.collections + 1) ∧
      (config.tuning.stress = true →
        (∀ ws h', o.run h = .ok ws h' → h'.collections = h.collections + 1) ∧
        ∀ r h', o.run h = .error (.raise r) h' → h'.collections = h.collections + 1) ∧
      (config.tuning.stress = false → h.sinceCollection + words ≤ config.tuning.minorWords →
        (∀ most, config.tuning.maxWords = some most → h.liveWords + words ≤ most) →
          (o.after h).collections = h.collections) := by
  obtain ⟨_, _, _, hw⟩ := (paced_budgeted config).reachable (budgeted_new config) hr
  have hconfig := hw.config_eq
  refine ⟨hr.exists_history, fun earlier recent hh => ?_, fun o words ho => ⟨?_, fun hs => ?_,
    fun hs hbudget hlimit => ?_⟩⟩
  · exact ⟨hh.account.sinceCollection, within_of_history hr hh⟩
  · rcases o.after_eq_self_or_final h with he | he
    · rw [he]
      exact ⟨Nat.le_refl _, Nat.le_succ _⟩
    · rw [he]
      exact ((Stages.onceAtMost h.collections).run_of_blockWords (fun _ _ hd => hd) ho).final rfl
  · have hrun := (Stages.onceUnderStress h.collections).run_of_blockWords (fun _ _ hd _ _ => hd) ho
      h ⟨rfl, hconfig ▸ hs⟩
    constructor
    · intro ws h' he
      rwa [he] at hrun
    · intro r h' he
      rw [he] at hrun
      exact hrun r rfl
  · have hroom : (h.isOverBudget words || h.exceedsLimit words) = false := by
      have hover : h.isOverBudget words = false := by simpa [isOverBudget, hconfig, hs] using hbudget
      have hexceeds : h.exceedsLimit words = false := by
        rw [exceedsLimit, hconfig]
        cases hm : config.tuning.maxWords with
        | none => rfl
        | some most => simpa using hlimit most hm
      rw [hover, hexceeds, Bool.or_false]
    have hrun := (Stages.never h.collections).run_of_blockWords (fun _ _ hd => hd) ho
    rcases o.after_eq_self_or_final h with he | he
    · rw [he]
    · rw [he]
      exact hrun.final ⟨rfl, hroom⟩

/-- The budget is below what a new heap has allocated. -/
def frugal : Config := { tuning := { minorWords := 4 } }

/-- A block beyond the budget was placed right after a collection. -/
def exceeded : Heap := (Operation.allocTuple [.unit, .unit, .unit, .unit, .unit]).after (.new frugal)

/-- That block is alone; a new heap with a larger budget does not collect yet. -/
theorem collects_in_time_exceeded : Reachable frugal exceeded ∧
    (∃ earlier first, History frugal earlier [first] exceeded ∧ first.words = 6) ∧
    ((Operation.allocSome .unit).after exceeded).collections ≤ exceeded.collections + 1 ∧
    ((Operation.allocSome .unit).after (.new {})).collections = 0 := by
  have hr : Reachable frugal exceeded := .after _ .new
  have hsince : exceeded.sinceCollection = 6 := by decide +kernel
  have hcollections : 0 < exceeded.collections := by decide +kernel
  have hover : frugal.tuning.minorWords < exceeded.sinceCollection := by decide +kernel
  have hlittle : (Heap.new {}).sinceCollection + 2 ≤ ({} : Tuning).minorWords := by decide +kernel
  obtain ⟨⟨earlier, recent, hh⟩, hbudget, hcollects⟩ := collects_in_time hr
  obtain ⟨hwords, -, hlater⟩ := hbudget earlier recent hh
  have hfirst : ∃ first, recent = [first] ∧ first.words = 6 := by
    cases recent with
    | nil => exact absurd (hwords.symm.trans hsince) (by decide)
    | cons first rest =>
      obtain rfl := (hlater hcollections first rest rfl).2 hover
      exact ⟨first, rfl, by simpa [wordsIn] using hwords.symm.trans hsince⟩
  obtain ⟨first, rfl, hsix⟩ := hfirst
  have hdefault : Reachable {} (.new {}) := .new
  have hnew := (collects_in_time hdefault).2.2 (.allocSome .unit) 2 rfl
  exact ⟨hr, ⟨earlier, first, hh, hsix⟩, (hcollects (.allocSome .unit) 2 rfl).1.2,
    hnew.2.2 rfl hlittle fun _ hm => by cases hm⟩

end Heap
end MovingHeap

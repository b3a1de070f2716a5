import MovingHeap.Proofs.Mutator.Exhaustion
import MovingHeap.Proofs.Schedule.Strategy
import MovingHeap.Proofs.Schedule.Collection
import MovingHeap.Proofs.Shape.Check

/-!
When a sum overflows. Only the size of a blank block is a number from outside, and it is added to
the counters of the heap as they stand: those depend on when the heap has collected.
-/
namespace MovingHeap

namespace Except

variable {ε α β : Type} {p : ε → Prop}

/-- The only errors of `x` are those with `p`. -/
def Only (p : ε → Prop) (x : Except ε α) : Prop := ∀ e, x = .error e → p e

theorem Only.ok (a : α) : Only p (.ok a) := by simp [Only]

theorem Only.error {e : ε} (he : p e) : Only p (.error e : Except ε α) := by
  intro e' h
  exact Except.error.inj h ▸ he

theorem Only.bind {x : Except ε α} {f : α → Except ε β} (hx : Only p x) (hf : ∀ a, Only p (f a)) :
    Only p (x >>= f) := by
  intro e he
  rcases bind_eq_error_iff.1 he with he | ⟨a, -, he⟩
  · exact hx e he
  · exact hf a e he

theorem Only.map {x : Except ε α} (f : α → β) (hx : Only p x) : Only p (f <$> x) := by
  cases x with
  | error e => exact .error (hx e rfl)
  | ok a => exact .ok (f a)

end Except

/-- The faults besides the overflow of a sum. -/
def Fault.isOther (f : Fault) : Prop := f ≠ .sizeOverflow

theorem Fault.isOther_of_isExhaustion {f : Fault} (hf : f.isExhaustion = true) : f.isOther := by
  rintro rfl
  simp [isExhaustion] at hf

namespace Heap

variable (h : Heap) (w x : Word) (i : Nat)

theorem invalid_isOther (r : Ref) : (h.invalid r).isOther := by
  unfold invalid Fault.isOther
  split <;> simp

theorem block_only : Except.Only Fault.isOther (h.block w) := by
  intro f hf
  obtain ⟨r, -, -, rfl⟩ := block_eq_error_iff.1 hf
  exact h.invalid_isOther r

theorem resolve_only (r : Ref) : Except.Only Fault.isOther (h.resolve r) := by
  unfold resolve
  split
  · exact .ok _
  · exact .error (h.invalid_isOther r)

theorem tag_only : Except.Only Fault.isOther (h.tag w) := (h.block_only w).map _

theorem size_only : Except.Only Fault.isOther (h.size w) := (h.block_only w).map _

theorem bytes_only : Except.Only Fault.isOther (h.bytes w) := (h.block_only w).map _

theorem field_only : Except.Only Fault.isOther (h.field w i) := by
  unfold field
  split
  · apply (h.resolve_only _).bind
    intro b
    unfold item
    split
    · exact .ok _
    · exact .error nofun
  · exact .error nofun

theorem setField_only : Except.Only Fault.isOther (h.setField w i x) := by
  unfold setField
  split
  · refine (h.resolve_only _).bind fun b => Except.Only.bind ?_ fun b => .ok _
    unfold overwrite
    split
    · exact .error nofun
    · split
      · exact .ok _
      · exact .error nofun
  · exact .error nofun

theorem narrow_only (s : Shape) : Except.Only Fault.isOther (h.narrow s w) := by
  intro f hf
  obtain ⟨-, t, v, -, -, r, -, -, rfl⟩ := narrow_eq_error_iff.1 hf
  exact h.invalid_isOther r

theorem identity?_only : Except.Only Fault.isOther (h.identity? w) := by
  apply (h.block_only w).bind
  intro b
  split
  · exact .ok _
  · apply Except.Only.bind ((h.tag_only _).bind fun t => .ok _)
    intro found
    split <;> exact .ok _
  · exact .ok _

theorem exceptionName_only : Except.Only Fault.isOther (h.exceptionName w) := by
  refine (h.identity?_only w).bind fun id => ?_
  split
  · exact .ok _
  · exact (h.field_only _ 0).bind fun name => (h.bytes_only name).bind fun bytes => .ok _

theorem exceptionArgs_only : Except.Only Fault.isOther (h.exceptionArgs w) := by
  refine (h.identity?_only w).bind fun id => ?_
  split
  · exact .ok _
  · exact (h.block_only w).bind fun b => .ok _

theorem rootValue_only (r : Root) : Except.Only Fault.isOther (h.rootValue r) := by
  unfold rootValue
  split
  · exact .ok _
  · exact .error nofun

theorem setRoot_only (r : Root) : Except.Only Fault.isOther (h.setRoot r w) := by
  unfold setRoot
  split
  · exact .ok _
  · exact .error nofun

/-- Whether a sum overflows when `words` words for a blank block are asked for. The words since the
last collection are added up first. The limit is for the live words, and these are what the roots
reach if the budget calls for a collection. -/
def Overflows (h : Heap) (words : Nat) : Prop :=
  Mutator.sizeRange ≤ h.sinceCollection + words ∨ h.config.tuning.maxWords.isSome = true ∧
    if h.isOverBudget words then
      (∃ h', h.collect = .ok h') ∧ Mutator.sizeRange ≤ h.rootedWords + words
    else Mutator.sizeRange ≤ h.liveWords + words

end Heap

namespace Mutator

variable {α β : Type} {m : Mutator α} {h h' : Heap} {f : Fault} {words : Nat}

/-- `m` ends in the fault `f` on the heap `h`. -/
def Faults (m : Mutator α) (h : Heap) (f : Fault) : Prop := ∃ h', m h = .error (.fault f) h'

theorem faults_bind_iff {k : α → Mutator β} :
    Faults (m >>= k) h f ↔ Faults m h f ∨ ∃ a h', m h = .ok a h' ∧ Faults (k a) h' f := by
  unfold Faults
  rw [bind_apply]
  cases m h <;> simp

theorem faults_bind_iff_of_ok {k : α → Mutator β} {a : α} (hm : m h = .ok a h') :
    Faults (m >>= k) h f ↔ Faults (k a) h' f := by
  rw [faults_bind_iff]
  simp [Faults, hm]

theorem faults_bind_iff_of_error {k : α → Mutator β} {e : Stop} (hm : m h = .error e h') :
    Faults (m >>= k) h f ↔ e = .fault f := by
  rw [faults_bind_iff]
  simp [Faults, hm]

theorem not_faults (hm : OnlyFaults Fault.isOther m) : ¬ Faults m h .sizeOverflow := by
  rintro ⟨h', hr⟩
  exact hm h h' _ hr rfl

theorem refuse_apply (c : Prop) [Decidable c] (f : Fault) (h : Heap) :
    refuse c f h = if c then .error (.fault f) h else .ok () h := by
  unfold refuse
  split <;> rfl

/-- The last steps of an allocation that was given its size. -/
theorem faults_checkLimitSum_bind_iff {k : Unit → Mutator α}
    (hk : OnlyFaults Fault.isOther (k ())) :
    Faults (checkLimitSum words >>= k) h .sizeOverflow ↔
      h.config.tuning.maxWords.isSome = true ∧ sizeRange ≤ h.liveWords + words := by
  by_cases hs : h.config.tuning.maxWords.isSome = true ∧ sizeRange ≤ h.liveWords + words
  · have hr : checkLimitSum words h = .error (.fault .sizeOverflow) h := by
      simp [checkLimitSum, hs]
    simp [faults_bind_iff_of_error hr, hs]
  · have hr : checkLimitSum words h = .ok () h := by
      simpa [checkLimitSum] using hs
    simp [faults_bind_iff_of_ok hr, hs, not_faults hk]

theorem faults_makeRoom_bind_iff {k : Unit → Mutator α} (hc : h.Counted)
    (hk : ∀ h', Faults (k ()) h' .sizeOverflow ↔
      h'.config.tuning.maxWords.isSome = true ∧ sizeRange ≤ h'.liveWords + words)
    (hlive : h.isOverBudget words = false →
      ¬ (h.config.tuning.maxWords.isSome = true ∧ sizeRange ≤ h.liveWords + words)) :
    Faults (makeRoom words >>= k) h .sizeOverflow ↔
      h.config.tuning.maxWords.isSome = true ∧ h.isOverBudget words = true ∧
        (∃ h', h.collect = .ok h') ∧ sizeRange ≤ h.rootedWords + words := by
  have hrooted := h.rootedWords_le
  rw [← hc.live] at hrooted
  by_cases hroom : (h.isOverBudget words || h.exceedsLimit words) = true
  · cases hr : h.collect with
    | error f =>
      have hm : makeRoom words h = .error (.fault f) h := by simp [makeRoom, update, hroom, hr]
      have hf : f ≠ .sizeOverflow := Fault.isOther_of_isExhaustion (Heap.isExhaustion_of_collect hr)
      simp [faults_bind_iff_of_error hm, hf]
    | ok h' =>
      have hm : makeRoom words h = .ok () h' := by simp [makeRoom, update, hroom, hr]
      obtain ⟨rfl, -⟩ := Heap.collect_eq_ok_iff.1 hr
      rw [faults_bind_iff_of_ok hm, hk, Heap.config_moved, Heap.liveWords_moved]
      cases hb : h.isOverBudget words with
      | true => simp
      | false =>
        have hsmall := hlive hb
        simp only [Bool.false_eq_true, false_and, and_false, iff_false]
        rintro ⟨hsome, hle⟩
        exact hsmall ⟨hsome, by omega⟩
  · have hm : makeRoom words h = .ok () h := by simp [makeRoom, update, hroom]
    have hb : h.isOverBudget words = false := by simp_all
    rw [faults_bind_iff_of_ok hm, hk]
    simp [hb, hlive hb]

theorem faults_allocFields_iff (hc : h.Counted) (tag : Tag) (size : Nat) :
    Faults (allocFields tag size) h .sizeOverflow ↔ tag ≠ .string ∧ h.Overflows (size + 1) := by
  unfold allocFields
  by_cases ht : tag = .string
  · have hr : refuse (tag = .string) .stringFields h = .error (.fault .stringFields) h := by
      rw [refuse_apply, if_pos ht]
    simp [faults_bind_iff_of_error hr, ht]
  have hr : refuse (tag = .string) .stringFields h = .ok () h := by rw [refuse_apply, if_neg ht]
  rw [faults_bind_iff_of_ok hr]
  generalize size + 1 = words
  have hlast : ∀ h', Faults (do
      checkLimitSum words; checkLimit words; refuse (fieldRange ≤ size) .capacityOverflow
      push (blank tag size)) h' .sizeOverflow ↔
      h'.config.tuning.maxWords.isSome = true ∧ sizeRange ≤ h'.liveWords + words := by
    intro h'
    refine faults_checkLimitSum_bind_iff (OnlyFaults.bind ?_ fun _ => .bind ?_ fun _ => ?_)
    · exact (checkLimit_onlyExhausts words).weaken fun _ => Fault.isOther_of_isExhaustion
    · exact .refuse _ nofun
    · exact (push_onlyExhausts _).weaken fun _ => Fault.isOther_of_isExhaustion
  simp only [Heap.Overflows, ht, ne_eq, not_false_eq_true, true_and]
  -- The sums are formed in this order; the live words may have shrunk when they are added again.
  by_cases hsince : sizeRange ≤ h.sinceCollection + words
  · have hsum : checkBudgetSum words h = .error (.fault .sizeOverflow) h := by
      simp [checkBudgetSum, hsince]
    simp [faults_bind_iff_of_error hsum, hsince]
  by_cases hlive : h.isOverBudget words = false ∧ h.config.tuning.maxWords.isSome = true ∧
      sizeRange ≤ h.liveWords + words
  · have hsum : checkBudgetSum words h = .error (.fault .sizeOverflow) h := by
      simp [checkBudgetSum, checkLimitSum, hsince, hlive]
    simp [faults_bind_iff_of_error hsum, hlive]
  have hsum : checkBudgetSum words h = .ok () h := by
    simp only [checkBudgetSum, checkLimitSum, if_neg hsince]
    split
    · rfl
    · simp_all
  rw [faults_bind_iff_of_ok hsum, faults_makeRoom_bind_iff hc hlast fun hb hl => hlive ⟨hb, hl⟩]
  cases hb : h.isOverBudget words <;> simp_all

theorem allocIdentity_onlyExhausts (name : String) : OnlyExhausts (allocIdentity name) := by
  apply (allocString_onlyExhausts _).bind
  intro text
  apply ((reserve_onlyExhausts 3).holding [text]).bind
  intro held
  refine (OnlyFaults.always fun h => ⟨h, h, rfl⟩).bind fun h => ?_
  apply (push_onlyExhausts _).bind
  intro exn
  exact (OnlyFaults.always fun h => ⟨_, _, rfl⟩).bind fun _ => .pure exn

theorem raiseTwo_onlyFaults (traced : Bool) (identity first second : Word) :
    OnlyFaults Fault.isOther (raiseTwo traced identity first second : Mutator α) := by
  have hnote : ∀ exn, OnlyFaults Fault.isOther (noteRaise traced exn) := by
    intro exn
    unfold noteRaise
    split
    · exact (OnlyFaults.read fun h => h.exceptionName_only exn).bind fun _ => .pure ()
    · exact .pure ()
  exact ((allocTuple_onlyExhausts _).weaken fun _ => Fault.isOther_of_isExhaustion).bind
    fun exn => (hnote exn).bind fun _ => .raise (.record exn)

theorem realize_onlyExhausts (r : Raise) : OnlyExhausts (realize r) := by
  intro h h' f he
  rcases realize_returns r h with ⟨exn, h₁, hr⟩ | ⟨f₁, h₁, hr, hf⟩
  · simp [hr] at he
  · simp only [hr, EStateM.Result.error.injEq, Stop.fault.injEq] at he
    exact he.1 ▸ hf

theorem allocStringArray_onlyFaults (items : List Bytes) :
    OnlyFaults Fault.isOther (allocStringArray items) := by
  have hroot : ∀ bytes, OnlyFaults Fault.isOther (do root (← allocString bytes)) := fun bytes =>
    ((allocString_onlyExhausts bytes).weaken fun _ => Fault.isOther_of_isExhaustion).bind
      fun w => .always fun h => ⟨_, _, rfl⟩
  refine OnlyFaults.frame <| (OnlyFaults.mapM fun bytes _ => hroot bytes).bind fun roots => ?_
  apply (OnlyFaults.mapM fun r _ => .read fun h => h.rootValue_only r).bind
  intro strings
  exact (allocTuple_onlyExhausts strings).weaken fun _ => Fault.isOther_of_isExhaustion

end Mutator

namespace Request

open Mutator (Faults)

/-- Whether a sum overflows when the request is made of `h`. -/
def Overflows (h : Heap) : Request → Prop
  | allocFields t n => t ≠ .string ∧ h.Overflows (n + 1)
  | _ => False

theorem run_onlyFaults (held : List Word) (frames : List Nat) {r : Request}
    (hr : ∀ tag size, r ≠ allocFields tag size) : OnlyFaults Fault.isOther (r.run held frames) := by
  have hother : ∀ {α : Type} {m : Mutator α}, OnlyExhausts m → OnlyFaults Fault.isOther m :=
    fun hm => hm.weaken fun _ => Fault.isOther_of_isExhaustion
  have hok : ∀ {a : Fact × List Word}, Except.Only Fault.isOther (.ok a) := .ok _
  cases r with
  | allocFields tag size => exact absurd rfl (hr tag size)
  | allocString bs => exact (hother (Mutator.allocString_onlyExhausts bs)).bind fun _ => .pure _
  | allocTuple xs => exact (hother (Mutator.allocTuple_onlyExhausts _)).bind fun _ => .pure _
  | allocSome x => exact (hother (Mutator.allocTuple_onlyExhausts _)).bind fun _ => .pure _
  | allocStringArray items =>
    exact (Mutator.allocStringArray_onlyFaults items).bind fun _ => .pure _
  | allocIdentity name =>
    exact (hother (Mutator.allocIdentity_onlyExhausts name)).bind fun _ => .pure _
  | raiseTwo => exact Mutator.raiseTwo_onlyFaults _ _ _ _
  | realize e x => exact (hother (Mutator.realize_onlyExhausts _)).bind fun _ => .pure _
  | raiseOutOfMemory => exact .read fun h => hok
  | field x i => exact .read fun h => (h.field_only _ i).bind fun _ => hok
  | setField x i y => exact (OnlyFaults.update fun h => h.setField_only _ _ i).bind fun _ => .pure _
  | tag x => exact .read fun h => (h.tag_only _).bind fun _ => hok
  | size x => exact .read fun h => (h.size_only _).bind fun _ => hok
  | bytes x => exact .read fun h => (h.bytes_only _).bind fun _ => hok
  | narrow s x => exact .read fun h => (h.narrow_only _ s).bind fun _ => by split <;> exact hok
  | exceptionName x => exact .read fun h => (h.exceptionName_only _).bind fun _ => hok
  | exceptionArgs x => exact .read fun h => (h.exceptionArgs_only _).bind fun _ => hok
  | root x => exact (OnlyFaults.always fun h => ⟨_, _, rfl⟩).bind fun _ => .pure _
  | rootValue r => exact .read fun h => (h.rootValue_only r).bind fun _ => hok
  | setRoot r x => exact (OnlyFaults.update fun h => h.setRoot_only _ r).bind fun _ => .pure _
  | openFrame | forget => exact .pure _
  | named name => exact .read fun h => by split <;> exact hok
  | lookup name => exact .read fun h => hok
  | closeFrame | register | unregister | park | takePending => exact .always fun h => ⟨_, _, rfl⟩

/-- A sum overflows only for the size of a blank block. -/
theorem faults_run_iff {h : Heap} (hc : h.Counted) (held : List Word) (frames : List Nat)
    (r : Request) : Faults (r.run held frames) h .sizeOverflow ↔ r.Overflows h := by
  by_cases hr : ∃ tag size, r = allocFields tag size
  · obtain ⟨tag, size, rfl⟩ := hr
    rw [run, Mutator.faults_bind_iff, Mutator.faults_allocFields_iff hc]
    have hpure : ∀ (a : Fact × List Word) h', ¬ Faults (pure a) h' .sizeOverflow :=
      fun a h' => Mutator.not_faults (.pure a)
    simp [hpure, Overflows]
  · have hne : ∀ tag size, r ≠ allocFields tag size := fun tag size he => hr ⟨tag, size, he⟩
    have hnot : ¬ r.Overflows h := by
      cases r <;> simp_all [Overflows]
    simp [hnot, Mutator.not_faults (run_onlyFaults held frames hne)]

end Request
end MovingHeap

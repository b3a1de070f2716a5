import MovingHeap.Mutator.Exception
import MovingHeap.Proofs.Mutator.Trace

/-!
Which faults a computation can end in. Main statement: turning a raise into an exception gives one
unless slots run out, and raises nothing itself.
-/
namespace MovingHeap

/-- The only faults of `m` are those with `p`. -/
def OnlyFaults {σ α : Type} (p : Fault → Prop) (m : EStateM Stop σ α) : Prop :=
  ∀ s s' f, m s = .error (.fault f) s' → p f

/-- The only faults of `m` are for want of slots. -/
abbrev OnlyExhausts {σ α : Type} (m : EStateM Stop σ α) : Prop :=
  OnlyFaults (fun f => f.isExhaustion = true) m

/-- `m` ends in no fault. -/
abbrev NeverFaults {σ α : Type} (m : EStateM Stop σ α) : Prop := OnlyFaults (fun _ => False) m

namespace OnlyFaults

variable {σ α β : Type} {p q : Fault → Prop}

theorem pure (a : α) : OnlyFaults p (Pure.pure a : EStateM Stop σ α) := by
  intro s s' f he
  simp [Pure.pure, EStateM.pure] at he

theorem bind {m : EStateM Stop σ α} {k : α → EStateM Stop σ β} (hm : OnlyFaults p m)
    (hk : ∀ a, OnlyFaults p (k a)) : OnlyFaults p (m >>= k) := by
  intro s s' f he
  rw [Mutator.bind_apply] at he
  cases hr : m s with
  | ok a s₁ =>
    rw [hr] at he
    exact hk a s₁ s' f he
  | error e s₁ =>
    simp only [hr, EStateM.Result.error.injEq] at he
    obtain ⟨rfl, rfl⟩ := he
    exact hm s s₁ f hr

theorem mapM {g : α → EStateM Stop σ β} {as : List α} (hg : ∀ a ∈ as, OnlyFaults p (g a)) :
    OnlyFaults p (as.mapM g) := by
  induction as with
  | nil => exact pure []
  | cons a as ih =>
    obtain ⟨ha, has⟩ := List.forall_mem_cons.1 hg
    rw [List.mapM_cons]
    exact ha.bind fun b => (ih has).bind fun bs => pure (b :: bs)

theorem always {m : EStateM Stop σ α} (hm : ∀ s, ∃ a s', m s = .ok a s') : OnlyFaults p m := by
  intro s s' f he
  obtain ⟨a, t, hr⟩ := hm s
  simp [hr] at he

theorem raise (r : Raise) : OnlyFaults p (Mutator.raise r : Mutator α) := by
  intro h h' f he
  simp [Mutator.raise_apply] at he

theorem weaken {m : EStateM Stop σ α} (hm : OnlyFaults p m) (hpq : ∀ f, p f → q f) :
    OnlyFaults q m := fun s s' f he => hpq f (hm s s' f he)

theorem read {g : Heap → Except Fault α} (hg : ∀ h f, g h = .error f → p f) :
    OnlyFaults p (Mutator.read g) := by
  intro h h' f he
  unfold Mutator.read at he
  cases hr : g h with
  | ok => simp [hr] at he
  | error f' =>
    simp only [hr, EStateM.Result.error.injEq, Stop.fault.injEq] at he
    exact he.1 ▸ hg h f' hr

theorem update {g : Heap → Except Fault Heap} (hg : ∀ h f, g h = .error f → p f) :
    OnlyFaults p (Mutator.update g) := by
  intro h h' f he
  unfold Mutator.update at he
  cases hr : g h with
  | ok => simp [hr] at he
  | error f' =>
    simp only [hr, EStateM.Result.error.injEq, Stop.fault.injEq] at he
    exact he.1 ▸ hg h f' hr

theorem refuse (c : Prop) [Decidable c] {f : Fault} (hf : p f) :
    OnlyFaults p (Mutator.refuse c f) := by
  intro h h' f' he
  unfold Mutator.refuse at he
  split at he
  · obtain ⟨he, -⟩ := EStateM.Result.error.inj he
    exact Stop.fault.inj he ▸ hf
  · cases he

theorem holding {body : Mutator Unit} (hb : OnlyFaults p body) (held : List Word) :
    OnlyFaults p (Mutator.holding held body) := by
  intro h h' f he
  unfold Mutator.holding at he
  cases hr : body { h with roots := h.roots ++ held } with
  | ok => simp [hr] at he
  | error e h₁ =>
    simp only [hr, EStateM.Result.error.injEq] at he
    exact hb _ h₁ f (he.1 ▸ hr)

theorem frame {body : Mutator α} (hb : OnlyFaults p body) : OnlyFaults p (Mutator.frame body) := by
  intro h h' f he
  unfold Mutator.frame at he
  cases hr : body h with
  | ok => simp [hr] at he
  | error e h₁ =>
    simp only [hr, EStateM.Result.error.injEq] at he
    exact hb _ h₁ f (he.1 ▸ hr)

end OnlyFaults

theorem Heap.isExhaustion_of_collect {h : Heap} {f : Fault} (he : h.collect = .error f) :
    f.isExhaustion = true := by
  unfold collect at he
  split at he
  · exact Except.error.inj he ▸ rfl
  · simp only at he
    split at he
    · exact Except.error.inj he ▸ rfl
    · simp at he

namespace Mutator

theorem checkLimit_onlyExhausts (words : Nat) : OnlyExhausts (checkLimit words) := by
  intro h h' f he
  unfold checkLimit at he
  split at he <;> simp at he

theorem reserve_onlyExhausts (words : Nat) : OnlyExhausts (reserve words) := by
  refine (OnlyFaults.update fun h f he => ?_).bind fun _ => checkLimit_onlyExhausts words
  split at he
  · exact Heap.isExhaustion_of_collect he
  · simp at he

theorem push_onlyExhausts (b : Block) : OnlyExhausts (push b) := by
  intro h h' f he
  unfold push at he
  split at he
  · simp only [EStateM.Result.error.injEq, Stop.fault.injEq] at he
    exact he.1 ▸ rfl
  · simp at he

theorem allocString_onlyExhausts (bytes : Bytes) : OnlyExhausts (allocString bytes) :=
  (reserve_onlyExhausts _).bind fun _ => push_onlyExhausts _

theorem allocTuple_onlyExhausts (fields : List Word) : OnlyExhausts (allocTuple fields) :=
  ((reserve_onlyExhausts _).holding fields).bind fun _ => push_onlyExhausts _

theorem allocMessage_onlyExhausts (which : Builtin) (message : Bytes) :
    OnlyExhausts (allocMessage which message) := by
  apply (allocString_onlyExhausts message).bind
  intro text
  exact ((reserve_onlyExhausts 3).holding [text]).bind
    fun held h h' f he => push_onlyExhausts _ h h' f he

/-- The heap `h` turns into the exception of a raise, unless slots run out. -/
theorem realize_returns (r : Raise) (h : Heap) :
    (∃ exn h', realize r h = .ok exn h') ∨
      ∃ f h', realize r h = .error (.fault f) h' ∧ f.isExhaustion = true := by
  have hcaught : ∀ which message, let m := orOutOfMemory (allocMessage which message)
      (∃ exn h', m h = .ok exn h') ∨
        ∃ f h', m h = .error (.fault f) h' ∧ f.isExhaustion = true := by
    intro which message
    simp only [orOutOfMemory_apply]
    cases hr : allocMessage which message h with
    | ok exn h' => exact .inl ⟨exn, h', rfl⟩
    | error e h' =>
      match e with
      | .raise (.record exn) | .raise (.constant exn) => exact .inl ⟨exn, h', rfl⟩
      | .raise (.failure _) | .raise (.invalidArgument _) => exact .inl ⟨_, h', rfl⟩
      | .fault f => exact .inr ⟨f, h', rfl, allocMessage_onlyExhausts which message h h' f hr⟩
  cases r with
  | record exn | constant exn => exact .inl ⟨exn, h, rfl⟩
  | failure message => exact hcaught .failure message
  | invalidArgument message => exact hcaught .invalidArgument (Utf8.encode message)

end Mutator
end MovingHeap

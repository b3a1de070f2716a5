import MovingHeap.Mutator.Exception
import MovingHeap.Proofs.Heap.Step

/-!
What computations make of a heap, however they end. A relation that admits collecting, placing a
block and holding words for a while admits every allocation; steps are such a relation, so what the
steps keep is kept by all operations.
-/
namespace MovingHeap

namespace Heap

/-- The heap with `ws` as further roots. -/
def hold (h : Heap) (ws : List Word) : Heap := { h with roots := h.roots ++ ws }

theorem Sound.hold {h : Heap} (h₀ : h.Sound) (ws : List Word) : (h.hold ws).Sound :=
  ⟨h₀.epoch_le, h₀.next_le⟩

/-- `R` holds between the heaps before and after whatever an allocation does to a heap. -/
structure Admits (R : Heap → Heap → Prop) : Prop where
  refl : ∀ h, R h h
  trans : ∀ {h h' h''}, R h h' → R h' h'' → R h h''
  collect : ∀ {h h'}, h.collect = .ok h' → R h h'
  place : ∀ {h : Heap} (b : Block), h.next ≤ maxSlot → R h (h.place b).2
  held : ∀ {h h'} (ws : List Word), R (h.hold ws) h' → R h (h'.truncateRoots h.roots.length)

/-- `R` admits allocations, and frames in which `S` admits them and words may be rooted. -/
structure AdmitsFrames (R S : Heap → Heap → Prop) : Prop extends Admits R where
  inner : Admits S
  root : ∀ (h : Heap) (w : Word), S h (h.hold [w])
  leave : ∀ {h h'}, S h h' → R h (h'.truncateRoots h.roots.length)

theorem admitsFrames_steps : AdmitsFrames Steps Steps := by
  have hadmits : Admits Steps := {
    refl := fun _ => .refl
    trans := Steps.trans
    collect := fun hc => .single (.collect hc)
    place := fun b hn => .single (.place b hn)
    held := fun ws hs => ((Steps.single (.roots _)).trans hs).tail (.roots _) }
  exact {
    hadmits with
    inner := hadmits
    root := fun _ _ => .single (.roots _)
    leave := fun hs => hs.tail (.roots _) }

theorem admits_rootsLength : AdmitsFrames (fun h h' => h'.roots.length = h.roots.length)
    (fun h h' => h.roots.length ≤ h'.roots.length) where
  refl := fun _ => rfl
  trans := fun hn hn' => hn'.trans hn
  collect := by
    intro h h' hc
    obtain ⟨rfl, -⟩ := collect_eq_ok_iff.1 hc
    rw [roots_moved, List.length_map]
  place := fun _ _ => rfl
  held := by
    intro h h' ws hn
    rw [hold, List.length_append] at hn
    rw [roots_truncateRoots, List.length_take, hn]
    omega
  inner := {
    refl := fun _ => Nat.le_refl _
    trans := Nat.le_trans
    collect := by
      intro h h' hc
      obtain ⟨rfl, -⟩ := collect_eq_ok_iff.1 hc
      exact Nat.le_of_eq (by rw [roots_moved, List.length_map])
    place := fun _ _ => Nat.le_refl _
    held := by
      intro h h' ws hn
      rw [hold, List.length_append] at hn
      rw [roots_truncateRoots, List.length_take]
      omega }
  root := by
    intro h w
    rw [hold, List.length_append]
    omega
  leave := by
    intro h h' hn
    rw [roots_truncateRoots, List.length_take]
    omega

end Heap

namespace Mutator

variable {α β : Type}

/-- The heap that a computation leaves behind, however it ends. -/
def final (m : Mutator α) (h : Heap) : Heap :=
  match m h with
  | .ok _ h' => h'
  | .error _ h' => h'

/-- Whether `m` comes to its end. -/
def succeeds {σ : Type} (m : EStateM Stop σ α) (s : σ) : Bool :=
  match m s with
  | .ok _ _ => true
  | .error _ _ => false

/-- Whether `m` stops with a raise. -/
def raises {σ : Type} (m : EStateM Stop σ α) (s : σ) : Bool :=
  match m s with
  | .error (.raise _) _ => true
  | _ => false

/-- Whether `m` stops for want of slots. -/
def exhausts {σ : Type} (m : EStateM Stop σ α) (s : σ) : Bool :=
  match m s with
  | .error (.fault f) _ => f.isExhaustion
  | _ => false

theorem succeeds_iff {σ : Type} {m : EStateM Stop σ α} {s : σ} :
    succeeds m s = true ↔ ∃ a s', m s = .ok a s' := by
  unfold succeeds
  cases m s <;> simp

theorem raises_iff {σ : Type} {m : EStateM Stop σ α} {s : σ} :
    raises m s = true ↔ ∃ r s', m s = .error (.raise r) s' := by
  unfold raises
  cases m s with
  | ok => simp
  | error e => cases e <;> simp

/-- Whether `m` returns, with a result and a heap that pass `p`. -/
def succeedsWith (m : Mutator α) (p : α → Heap → Bool) (h : Heap) : Bool :=
  match m h with
  | .ok a h' => p a h'
  | .error _ _ => false

theorem succeedsWith_iff {m : Mutator α} {p : α → Heap → Bool} {h : Heap} :
    m.succeedsWith p h = true ↔ ∃ a h', m h = .ok a h' ∧ p a h' = true := by
  unfold succeedsWith
  cases m h with
  | ok a h' =>
    constructor
    · exact fun hp => ⟨a, h', rfl, hp⟩
    · rintro ⟨_, _, he, hp⟩
      obtain ⟨rfl, rfl⟩ := EStateM.Result.ok.inj he
      exact hp
  | error => simp

/-- `m` looks at the heap, and where it stops, it stops with a fault. -/
def IsTest (m : Mutator Unit) : Prop := ∀ h : Heap, m h = .ok () h ∨ ∃ f, m h = .error (.fault f) h

theorem isTest_refuse (c : Prop) [Decidable c] (f : Fault) : IsTest (refuse c f) := by
  intro h
  unfold refuse
  split
  · exact .inr ⟨_, rfl⟩
  · exact .inl rfl

theorem isTest_checkLimitSum (words : Nat) : IsTest (checkLimitSum words) := by
  intro h
  unfold checkLimitSum
  split
  · exact .inr ⟨_, rfl⟩
  · exact .inl rfl

theorem isTest_checkBudgetSum (words : Nat) : IsTest (checkBudgetSum words) := by
  intro h
  unfold checkBudgetSum
  split
  · exact .inr ⟨_, rfl⟩
  · split
    · exact .inl rfl
    · exact isTest_checkLimitSum words h

theorem noteRaise_apply (traced : Bool) (exn : Word) (h : Heap) :
    noteRaise traced exn h =
      if traced then
        match h.exceptionName exn with
        | .ok _ => .ok () h
        | .error f => .error (.fault f) h
      else .ok () h := by
  unfold noteRaise
  split
  · simp only [bind_apply, read]
    cases h.exceptionName exn <;> rfl
  · rfl

theorem isTest_noteRaise (traced : Bool) (exn : Word) : IsTest (noteRaise traced exn) := by
  intro h
  rw [noteRaise_apply]
  split
  · cases h.exceptionName exn with
    | ok => exact .inl rfl
    | error f => exact .inr ⟨f, rfl⟩
  · exact .inl rfl

/-- No result comes of it, so it ends alike whatever result is asked for. -/
theorem raiseTwo_ends (traced : Bool) (identity first second : Word) (h : Heap) :
    ∃ e h', ∀ α : Type, (raiseTwo traced identity first second : Mutator α) h = .error e h' := by
  cases hr : allocTuple [identity, first, second] h with
  | ok exn k =>
    rcases isTest_noteRaise traced exn k with hn | ⟨f, hn⟩
    · exact ⟨.raise (.record exn), k, fun α => by simp only [raiseTwo_apply, hr, hn]⟩
    · exact ⟨.fault f, k, fun α => by simp only [raiseTwo_apply, hr, hn]⟩
  | error e k => exact ⟨e, k, fun α => by simp only [raiseTwo_apply, hr]⟩

/-- `m` changes the heap by steps. -/
def Traced (m : Mutator α) : Prop := ∀ h : Heap, h.Steps (m.final h)

/-- `R` holds between the heaps before and after `m`. -/
def Along (R : Heap → Heap → Prop) (m : Mutator α) : Prop := ∀ h : Heap, R h (m.final h)

theorem final_eq_of_ok {m : Mutator α} {h h' : Heap} {a : α} (hr : m h = .ok a h') :
    m.final h = h' := by
  rw [final, hr]

theorem final_eq_of_error {m : Mutator α} {h h' : Heap} {e : Stop} (hr : m h = .error e h') :
    m.final h = h' := by
  rw [final, hr]

theorem final_bind_return (m : Mutator α) (f : α → β) (h : Heap) :
    (m >>= fun a => pure (f a)).final h = m.final h := by
  rw [final, bind_apply, final]
  cases m h <;> rfl

theorem final_update_return (f : Heap → Except Fault Heap) (a : α) (h : Heap) :
    (do update f; return a : Mutator α).final h =
      match f h with
      | .ok h' => h'
      | .error _ => h := by
  unfold final
  rw [bind_apply]
  unfold update
  cases f h <;> rfl

theorem holding_apply (held : List Word) (body : Mutator Unit) (h : Heap) :
    holding held body h =
      match body (h.hold held) with
      | .ok _ k => .ok (k.roots.drop h.roots.length) (k.truncateRoots h.roots.length)
      | .error e k => .error e (k.truncateRoots h.roots.length) := rfl

/-- A new exception identity, before it is counted. -/
def uncountedIdentity (name : String) : Mutator Word := do
  let text ← allocString (Utf8.encode name)
  let held ← holding [text] (reserve 3)
  push (.object (held ++ [.ofInt (← get).nextIdentity]))

theorem allocIdentity_eq (name : String) :
    allocIdentity name = do
      let exn ← uncountedIdentity name
      modify fun h => { h with identities := h.nextIdentity }
      return exn := by
  simp only [allocIdentity, uncountedIdentity, bind_assoc]

namespace Along

open Heap (Admits AdmitsFrames)

variable {R S : Heap → Heap → Prop}

theorem bind {m : Mutator α} {k : α → Mutator β} (hR : Admits R) (hm : Along R m)
    (hk : ∀ a, Along R (k a)) : Along R (m >>= k) := by
  intro h
  have h₁ := hm h
  unfold final at h₁ ⊢
  rw [bind_apply]
  cases hr : m h with
  | ok a h' =>
    rw [hr] at h₁
    exact hR.trans h₁ (hk a h')
  | error e h' => rwa [hr] at h₁

theorem tryCatch {m : Mutator α} {handle : Stop → Mutator α} (hR : Admits R) (hm : Along R m)
    (hh : ∀ e, Along R (handle e)) : Along R (MonadExcept.tryCatch m handle) := by
  intro h
  have h₁ := hm h
  unfold final at h₁ ⊢
  rw [tryCatch_apply]
  cases hr : m h with
  | ok a h' => rwa [hr] at h₁
  | error e h' =>
    rw [hr] at h₁
    exact hR.trans h₁ (hh e h')

theorem get_bind {k : Heap → Mutator α} (hk : ∀ h, Along R (k h)) : Along R (get >>= k) :=
  fun h => hk h h

theorem update {f : Heap → Except Fault Heap} (hrefl : ∀ h, R h h)
    (hf : ∀ h h', f h = .ok h' → R h h') : Along R (Mutator.update f) := by
  intro h
  unfold final Mutator.update
  cases hr : f h with
  | ok h' => exact hf h h' hr
  | error => exact hrefl h

section Admits

variable (hR : Admits R)
include hR

theorem pure (a : α) : Along R (Pure.pure a : Mutator α) := fun h => hR.refl h

theorem throw (e : Stop) : Along R (throw e : Mutator α) := fun h => hR.refl h

theorem read (f : Heap → Except Fault α) : Along R (Mutator.read f) := by
  intro h
  unfold final Mutator.read
  cases f h <;> exact hR.refl h

theorem test {m : Mutator Unit} (hm : IsTest m) : Along R m := by
  intro h
  unfold final
  rcases hm h with hr | ⟨f, hr⟩ <;> rw [hr] <;> exact hR.refl h

theorem push (b : Block) : Along R (Mutator.push b) := by
  intro h
  unfold final Mutator.push
  by_cases hn : maxSlot < h.next
  · rw [if_pos hn]
    exact hR.refl h
  · rw [if_neg hn]
    exact hR.place b (Nat.not_lt.1 hn)

theorem holding {body : Mutator Unit} (hb : Along R body) (held : List Word) :
    Along R (Mutator.holding held body) := by
  intro h
  have h₁ := hb (h.hold held)
  unfold final at h₁ ⊢
  rw [holding_apply]
  cases hr : body (h.hold held) with
  | ok | error =>
    rw [hr] at h₁
    exact hR.held held h₁

theorem mapM {f : α → Mutator β} (hf : ∀ a, Along R (f a)) (as : List α) :
    Along R (as.mapM f) := by
  induction as with
  | nil => exact pure hR []
  | cons a as ih =>
    rw [List.mapM_cons]
    exact (hf a).bind hR fun b => ih.bind hR fun bs => pure hR (b :: bs)

theorem collect : Along R Mutator.collect := update hR.refl fun _ _ hc => hR.collect hc

theorem makeRoom (words : Nat) : Along R (Mutator.makeRoom words) := by
  apply update hR.refl
  intro h h' hr
  split at hr
  · exact hR.collect hr
  · obtain rfl := Except.ok.inj hr
    exact hR.refl h

theorem checkLimit (words : Nat) : Along R (Mutator.checkLimit words) := by
  intro h
  unfold final Mutator.checkLimit
  by_cases hw : h.exceedsLimit words = true
  · rw [if_pos hw]
    exact hR.refl h
  · rw [if_neg hw]
    exact hR.refl h

theorem reserve (words : Nat) : Along R (Mutator.reserve words) :=
  (makeRoom hR words).bind hR fun _ => checkLimit hR words

theorem allocate (b : Block) : Along R (Mutator.allocate b) :=
  (reserve hR b.words).bind hR fun _ => push hR b

theorem allocFields (tag : Tag) (size : Nat) : Along R (Mutator.allocFields tag size) :=
  (test hR (isTest_refuse _ _)).bind hR fun _ =>
    (test hR (isTest_checkBudgetSum _)).bind hR fun _ => (makeRoom hR _).bind hR fun _ =>
      (test hR (isTest_checkLimitSum _)).bind hR fun _ => (checkLimit hR _).bind hR fun _ =>
        (test hR (isTest_refuse _ _)).bind hR fun _ => push hR _

theorem allocString (bytes : Bytes) : Along R (Mutator.allocString bytes) := allocate hR _

theorem allocTuple (fields : List Word) : Along R (Mutator.allocTuple fields) :=
  (holding hR (reserve hR _) fields).bind hR fun _ => push hR _

theorem allocMessage (which : Builtin) (message : Bytes) :
    Along R (Mutator.allocMessage which message) :=
  (allocString hR _).bind hR fun text => (holding hR (reserve hR 3) [text]).bind hR fun _ =>
    get_bind fun _ => push hR _

theorem orOutOfMemory {m : Mutator Word} (hm : Along R m) : Along R (Mutator.orOutOfMemory m) := by
  apply hm.tryCatch hR
  intro e
  split
  · exact pure hR _
  · exact pure hR _
  · exact get_bind fun _ => pure hR _
  · exact throw hR _

theorem realize (r : Raise) : Along R (Mutator.realize r) := by
  cases r with
  | record | constant => exact pure hR _
  | failure | invalidArgument => exact orOutOfMemory hR (allocMessage hR _ _)

theorem raiseTwo (traced : Bool) (identity first second : Word) :
    Along R (Mutator.raiseTwo traced identity first second : Mutator α) :=
  (allocTuple hR _).bind hR fun exn => (test hR (isTest_noteRaise traced exn)).bind hR fun _ =>
    throw hR _

theorem raiseOutOfMemory : Along R (Mutator.raiseOutOfMemory : Mutator α) :=
  get_bind fun _ => throw hR _

theorem named (name : Bytes) : Along R (Mutator.named name) := by
  apply get_bind
  intro h
  split
  · exact pure hR _
  · exact throw hR _

theorem uncountedIdentity (name : String) : Along R (Mutator.uncountedIdentity name) :=
  (allocString hR _).bind hR fun text => (holding hR (reserve hR 3) [text]).bind hR fun _ =>
    get_bind fun _ => push hR _

theorem allocIdentity (hcount : ∀ h : Heap, R h { h with identities := h.nextIdentity })
    (name : String) : Along R (Mutator.allocIdentity name) := by
  rw [allocIdentity_eq]
  exact (uncountedIdentity hR name).bind hR fun exn => hcount

end Admits

theorem frame {body : Mutator α} (hR : AdmitsFrames R S) (hb : Along S body) :
    Along R (Mutator.frame body) := by
  intro h
  have h₁ := hb h
  unfold final at h₁ ⊢
  unfold Mutator.frame
  cases hr : body h with
  | ok | error =>
    rw [hr] at h₁
    exact hR.leave h₁

theorem allocStringArray (hR : AdmitsFrames R S) (items : List Bytes) :
    Along R (Mutator.allocStringArray items) := by
  have hroot : ∀ w, Along S (Mutator.root w) := fun w h => hR.root h w
  have hrooted : ∀ bytes, Along S (Mutator.allocString bytes >>= Mutator.root) :=
    fun bytes => (allocString hR.inner bytes).bind hR.inner hroot
  refine frame hR <| (mapM hR.inner hrooted items).bind hR.inner fun roots => ?_
  exact (mapM hR.inner (fun _ => read hR.inner _) roots).bind hR.inner fun strings =>
    allocTuple hR.inner strings

end Along
end Mutator
end MovingHeap

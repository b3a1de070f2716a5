import MovingHeap.Proofs.Mutator.Trace

/-!
Assertions about computations, with one for the result and one for where the computation stops. Main
statement: an allocation makes room, checks the limit and places its block, in this order, and what
these three stages guarantee holds of every allocator.
-/
namespace MovingHeap
namespace Mutator

/-- From a state with `P`, `m` ends with `Q` or stops with `E`. -/
def Triple {σ α : Type} (P : σ → Prop) (m : EStateM Stop σ α) (Q : α → σ → Prop)
    (E : Stop → σ → Prop) : Prop :=
  ∀ s, P s →
    match m s with
    | .ok a s' => Q a s'
    | .error e s' => E e s'

namespace Triple

section State

variable {σ α β : Type} {P P' : σ → Prop} {Q Q' : α → σ → Prop} {R : β → σ → Prop}
  {E E' : Stop → σ → Prop}

theorem weaken {m : EStateM Stop σ α} (hm : Triple P m Q E) (hp : ∀ s, P' s → P s)
    (hq : ∀ a s, Q a s → Q' a s) (he : ∀ e s, E e s → E' e s) : Triple P' m Q' E' := by
  intro s hp'
  have h₁ := hm s (hp s hp')
  cases hr : m s with
  | ok a s' =>
    rw [hr] at h₁
    exact hq a s' h₁
  | error e s' =>
    rw [hr] at h₁
    exact he e s' h₁

theorem strengthen {m : EStateM Stop σ α} (hm : Triple P m Q E) (hp : ∀ s, P' s → P s) :
    Triple P' m Q E := hm.weaken hp (fun _ _ hq => hq) fun _ _ he => he

theorem bind {m : EStateM Stop σ α} {k : α → EStateM Stop σ β} (hm : Triple P m Q E)
    (hk : ∀ a, Triple (Q a) (k a) R E) : Triple P (m >>= k) R E := by
  intro s hp
  have h₁ := hm s hp
  rw [bind_apply]
  cases hr : m s with
  | ok a s' =>
    rw [hr] at h₁
    exact hk a s' h₁
  | error e s' => rwa [hr] at h₁

theorem get_bind {k : σ → EStateM Stop σ α} (hk : ∀ t, Triple P (k t) Q E) :
    Triple P (get >>= k) Q E := fun s hp => hk s s hp

theorem tryCatch {m : EStateM Stop σ α} {handle : Stop → EStateM Stop σ α} (hm : Triple P m Q E)
    (hh : ∀ e, Triple (E e) (handle e) Q E') : Triple P (MonadExcept.tryCatch m handle) Q E' := by
  intro s hp
  have h₁ := hm s hp
  rw [tryCatch_apply]
  cases hr : m s with
  | ok a s' => rwa [hr] at h₁
  | error e s' =>
    rw [hr] at h₁
    exact hh e s' h₁

theorem mapM {f : α → EStateM Stop σ β} (hf : ∀ a, Triple P (f a) (fun _ => P) E) (as : List α) :
    Triple P (as.mapM f) (fun _ => P) E := by
  induction as with
  | nil => exact fun _ hp => hp
  | cons a as ih =>
    rw [List.mapM_cons]
    exact (hf a).bind fun b => ih.bind fun _ _ hp => hp

end State

variable {α : Type} {P P' : Heap → Prop} {Q : α → Heap → Prop} {E : Stop → Heap → Prop}

theorem read (f : Heap → Except Fault α) (he : ∀ e h, P h → E (.fault e) h) :
    Triple P (Mutator.read f) (fun _ => P) E := by
  intro h hp
  unfold Mutator.read
  cases f h with
  | ok => exact hp
  | error e => exact he e h hp

theorem update {f : Heap → Except Fault Heap} (hp : ∀ h h', P h → f h = .ok h' → P' h')
    (he : ∀ e h, P h → E (.fault e) h) : Triple P (Mutator.update f) (fun _ => P') E := by
  intro h hi
  unfold Mutator.update
  cases hf : f h with
  | ok h' => exact hp h h' hi hf
  | error e => exact he e h hi

theorem final {m : Mutator α} (hm : Triple P m (fun _ => P') fun _ => P') {h : Heap} (hp : P h) :
    P' (m.final h) := by
  have h₁ := hm h hp
  unfold Mutator.final
  cases hr : m h <;> rwa [hr] at h₁

theorem test {m : Mutator Unit} (hm : IsTest m) (he : ∀ e h, P h → E (.fault e) h) :
    Triple P m (fun _ => P) E := by
  intro h hp
  rcases hm h with hr | ⟨f, hr⟩
  · rwa [hr]
  · rw [hr]
    exact he f h hp

theorem makeRoom {words : Nat}
    (hcollect : ∀ h k, P h → (h.isOverBudget words || h.exceedsLimit words) = true →
      h.collect = .ok k → P' k)
    (hroom : ∀ h, P h → (h.isOverBudget words || h.exceedsLimit words) = false → P' h)
    (he : ∀ e h, P h → E (.fault e) h) :
    Triple P (Mutator.makeRoom words) (fun _ => P') E := by
  refine .update (fun h k hp hk => ?_) he
  by_cases hover : (h.isOverBudget words || h.exceedsLimit words) = true
  · rw [if_pos hover] at hk
    exact hcollect h k hp hover hk
  · rw [if_neg hover] at hk
    obtain rfl := Except.ok.inj hk
    exact hroom h hp (Bool.eq_false_iff.2 hover)

theorem checkLimit {words : Nat} (hp : ∀ h, P h → h.exceedsLimit words = false → P' h)
    (he : ∀ h, P h → h.exceedsLimit words = true → E (.raise h.outOfMemory) h) :
    Triple P (Mutator.checkLimit words) (fun _ => P') E := by
  intro h hi
  unfold Mutator.checkLimit
  by_cases hover : h.exceedsLimit words = true
  · rw [if_pos hover]
    exact he h hi hover
  · rw [if_neg hover]
    exact hp h hi (Bool.eq_false_iff.2 hover)

theorem push {b : Block} (hp : ∀ h, P h → h.next ≤ maxSlot → P' (h.place b).2)
    (he : ∀ e h, P h → E (.fault e) h) : Triple P (Mutator.push b) (fun _ => P') E := by
  intro h hi
  unfold Mutator.push
  by_cases hn : maxSlot < h.next
  · rw [if_pos hn]
    exact he _ h hi
  · rw [if_neg hn]
    exact hp h hi (Nat.not_lt.1 hn)

theorem frame {body : Mutator α} (hb : Triple P body Q E)
    (hq : ∀ a h n, Q a h → Q a (h.truncateRoots n))
    (he : ∀ e h n, E e h → E e (h.truncateRoots n)) : Triple P (Mutator.frame body) Q E := by
  intro h hp
  have h₁ := hb h hp
  unfold Mutator.frame
  cases hr : body h with
  | ok a h' =>
    rw [hr] at h₁
    exact hq a h' _ h₁
  | error e h' =>
    rw [hr] at h₁
    exact he e h' _ h₁

end Triple
end Mutator

open Mutator (Triple)

/-- The stages of an allocation of so many words: before it, with room made for them, with the limit
checked for them, with the block in its place, and where the allocation has stopped. None of them
looks at the roots. -/
structure Stages where
  idle : Nat → Heap → Prop
  asked : Nat → Heap → Prop
  ready : Nat → Heap → Prop
  done : Heap → Prop
  stopped : Stop → Heap → Prop
  makeRoom : ∀ words, Triple (idle words) (Mutator.makeRoom words) (fun _ => asked words) stopped
  checkLimit : ∀ words, Triple (asked words) (Mutator.checkLimit words) (fun _ => ready words) stopped
  push : ∀ b, Triple (ready b.words) (Mutator.push b) (fun _ => done) stopped
  fault : ∀ words f h, idle words h ∨ asked words h ∨ ready words h → stopped (.fault f) h
  idle_roots : ∀ words h rs, idle words h → idle words { h with roots := rs }
  ready_roots : ∀ words h rs, ready words h → ready words { h with roots := rs }
  done_roots : ∀ h rs, done h → done { h with roots := rs }
  stopped_roots : ∀ e h rs, stopped e h → stopped e { h with roots := rs }

namespace Stages

variable (S : Stages)

theorem reserve (words : Nat) :
    Triple (S.idle words) (Mutator.reserve words) (fun _ => S.ready words) S.stopped :=
  (S.makeRoom words).bind fun _ => S.checkLimit words

theorem allocString (bytes : Bytes) : Triple (S.idle (Block.words (.string bytes)))
    (Mutator.allocString bytes) (fun _ => S.done) S.stopped :=
  (S.reserve _).bind fun _ => S.push (.string bytes)

theorem allocFields (tag : Tag) (size : Nat) :
    Triple (S.idle (size + 1)) (Mutator.allocFields tag size) (fun _ => S.done) S.stopped := by
  have hidle : ∀ {m : Mutator Unit}, Mutator.IsTest m →
      Triple (S.idle (size + 1)) m (fun _ => S.idle (size + 1)) S.stopped :=
    fun hm => .test hm fun f h hi => S.fault _ f h (.inl hi)
  have hasked : ∀ {m : Mutator Unit}, Mutator.IsTest m →
      Triple (S.asked (size + 1)) m (fun _ => S.asked (size + 1)) S.stopped :=
    fun hm => .test hm fun f h ha => S.fault _ f h (.inr (.inl ha))
  have hready : ∀ {m : Mutator Unit}, Mutator.IsTest m →
      Triple (S.ready (size + 1)) m (fun _ => S.ready (size + 1)) S.stopped :=
    fun hm => .test hm fun f h hr => S.fault _ f h (.inr (.inr hr))
  have hwords : (Mutator.blank tag size).words = size + 1 := by
    unfold Mutator.blank
    split <;> simp [Block.words, Block.size]
  have hpush := S.push (Mutator.blank tag size)
  rw [hwords] at hpush
  exact (hidle (Mutator.isTest_refuse _ _)).bind fun _ =>
    (hidle (Mutator.isTest_checkBudgetSum _)).bind fun _ => (S.makeRoom _).bind fun _ =>
      (hasked (Mutator.isTest_checkLimitSum _)).bind fun _ => (S.checkLimit _).bind fun _ =>
        (hready (Mutator.isTest_refuse _ _)).bind fun _ => hpush

/-- The held words come back, as many as they were. -/
theorem holding_reserve (held : List Word) (words : Nat) :
    Triple (S.idle words) (Mutator.holding held (Mutator.reserve words))
      (fun moved h => moved.length = held.length ∧ S.ready words h) S.stopped := by
  intro h hi
  have h₁ := S.reserve words (h.hold held) (S.idle_roots _ h _ hi)
  have hlen := Mutator.Along.reserve Heap.admits_rootsLength.toAdmits words (h.hold held)
  rw [Mutator.holding_apply]
  cases hr : Mutator.reserve words (h.hold held) with
  | ok _ k =>
    rw [hr] at h₁
    rw [Mutator.final_eq_of_ok hr, Heap.hold, List.length_append] at hlen
    refine ⟨?_, S.ready_roots _ k _ h₁⟩
    rw [List.length_drop, hlen]
    omega
  | error e k =>
    rw [hr] at h₁
    exact S.stopped_roots e k _ h₁

theorem allocTuple (fields : List Word) : Triple (S.idle (fields.length + 1))
    (Mutator.allocTuple fields) (fun _ => S.done) S.stopped := by
  refine (S.holding_reserve fields _).bind fun moved h ⟨hlen, hr⟩ => ?_
  refine S.push (.tuple moved) h ?_
  rwa [Block.words, Block.size, hlen]

theorem raiseTwo {α : Type} {Q : α → Heap → Prop} (traced : Bool) (identity first second : Word)
    (hdone : ∀ e h, S.done h → S.stopped e h) :
    Triple (S.idle 4) (Mutator.raiseTwo traced identity first second) Q S.stopped :=
  (S.allocTuple [identity, first, second]).bind fun w =>
    (Triple.test (Mutator.isTest_noteRaise traced w) fun f => hdone (.fault f)).bind fun _ =>
      hdone (.raise (.record w))

section Sequences

/-! Allocators that place several blocks, one after the other. -/

variable {S} (hdone : ∀ words h, S.done h → S.idle words h)
include hdone

theorem again {α : Type} {words : Nat} {m : Mutator α}
    (hm : Triple (S.idle words) m (fun _ => S.done) S.stopped) :
    Triple S.done m (fun _ => S.done) S.stopped := hm.strengthen (hdone words)

theorem allocStringArray (items : List Bytes) :
    Triple S.done (Mutator.allocStringArray items) (fun _ => S.done) S.stopped := by
  have hrooted : ∀ bytes, Triple S.done (Mutator.allocString bytes >>= Mutator.root)
      (fun _ => S.done) S.stopped :=
    fun bytes => (again hdone (S.allocString bytes)).bind fun _ h hd => S.done_roots h _ hd
  have hread : ∀ r, Triple S.done (Mutator.read (·.rootValue r)) (fun _ => S.done) S.stopped :=
    fun r => .read _ fun f h hd => S.fault 0 f h (.inl (hdone 0 h hd))
  refine .frame ?_ (fun _ h _ => S.done_roots h _) fun e h _ => S.stopped_roots e h _
  exact (Triple.mapM hrooted items).bind fun roots =>
    (Triple.mapM hread roots).bind fun strings => again hdone (S.allocTuple strings)

theorem allocMessage (which : Builtin) (message : Bytes) :
    Triple S.done (Mutator.allocMessage which message) (fun _ => S.done) S.stopped := by
  refine (again hdone (S.allocString message)).bind fun text =>
    ((S.holding_reserve [text] 3).strengthen (hdone 3)).bind fun held =>
      .get_bind fun k h ⟨hlen, hr⟩ => ?_
  refine S.push (.tuple (k.builtin which :: held)) h ?_
  rwa [Block.words, Block.size, List.length_cons, hlen]

theorem uncountedIdentity (name : String) :
    Triple S.done (Mutator.uncountedIdentity name) (fun _ => S.done) S.stopped := by
  refine (again hdone (S.allocString _)).bind fun text =>
    ((S.holding_reserve [text] 3).strengthen (hdone 3)).bind fun held =>
      .get_bind fun k h ⟨hlen, hr⟩ => ?_
  refine S.push (.object (held ++ [.ofInt k.nextIdentity])) h ?_
  rwa [Block.words, Block.size, List.length_append, hlen]

theorem allocIdentity (hcount : ∀ h, S.done h → S.done { h with identities := h.nextIdentity })
    (name : String) :
    Triple S.done (Mutator.allocIdentity name) (fun _ => S.done) S.stopped := by
  rw [Mutator.allocIdentity_eq]
  exact (uncountedIdentity hdone name).bind fun _ h hd => hcount h hd

theorem realize (hresume : ∀ r h, S.stopped (.raise r) h → S.done h) (r : Raise) :
    Triple S.done (Mutator.realize r) (fun _ => S.done) S.stopped := by
  have hmessage : ∀ which message, Triple S.done
      (Mutator.orOutOfMemory (Mutator.allocMessage which message)) (fun _ => S.done) S.stopped := by
    intro which message
    refine (allocMessage hdone which message).tryCatch fun e => ?_
    split
    · exact fun h he => hresume _ h he
    · exact fun h he => hresume _ h he
    · exact .get_bind fun _ h he => hresume _ h he
    · exact fun _ he => he
  cases r with
  | record | constant => exact fun _ hd => hd
  | failure | invalidArgument => exact hmessage _ _

end Sequences
end Stages
end MovingHeap

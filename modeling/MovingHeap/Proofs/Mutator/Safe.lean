import MovingHeap.Proofs.Heap.Closed
import MovingHeap.Proofs.Mutator.Operation

/-!
Computations that keep a heap closed and give out current words only, in their results and in their
raises.
-/
namespace MovingHeap

namespace Heap

def AllCurrent (h : Heap) (ws : List Word) : Prop := ∀ w ∈ ws, h.isCurrent w = true

end Heap

namespace Mutator

variable {α β : Type} {P : Heap → Prop} {Q : α → Heap → Prop} {R : β → Heap → Prop}

/-- From a closed heap with `P`, `m` leads to a closed heap; its result satisfies `Q`, and what it
raises is current. -/
def Safe (P : Heap → Prop) (m : Mutator α) (Q : α → Heap → Prop) : Prop :=
  ∀ h : Heap, h.Closed → P h →
    match m h with
    | .ok a h' => h'.Closed ∧ Q a h'
    | .error e h' => h'.Closed ∧ h'.AllCurrent e.words

/-- What a safe allocation gives. -/
def Current (w : Word) (h : Heap) : Prop := h.isCurrent w = true

namespace Safe

theorem pure (a : α) : Safe (Q a) (Pure.pure a) Q := fun _ hc hq => ⟨hc, hq⟩

theorem bind {m : Mutator α} {k : α → Mutator β} (hm : Safe P m Q) (hk : ∀ a, Safe (Q a) (k a) R) :
    Safe P (m >>= k) R := by
  intro h hc hp
  have h₁ := hm h hc hp
  rw [bind_apply]
  cases hr : m h with
  | ok a h' =>
    rw [hr] at h₁
    exact hk a h' h₁.1 h₁.2
  | error e h' => rwa [hr] at h₁

theorem weaken {m : Mutator α} {P' : Heap → Prop} {Q' : α → Heap → Prop} (hm : Safe P m Q)
    (hp : ∀ h : Heap, P' h → P h) (hq : ∀ a (h : Heap), Q a h → Q' a h) : Safe P' m Q' := by
  intro h hc hp'
  have h₁ := hm h hc (hp h hp')
  cases hr : m h with
  | ok a h' =>
    rw [hr] at h₁
    exact ⟨h₁.1, hq a h' h₁.2⟩
  | error e h' => rwa [hr] at h₁

theorem strengthen {m : Mutator α} {P' : Heap → Prop} (hm : Safe P m Q)
    (hp : ∀ h : Heap, P' h → P h) : Safe P' m Q := hm.weaken hp fun _ _ hq => hq

theorem anywhere {m : Mutator α} (hm : Safe (fun _ => True) m Q) : Safe P m Q :=
  hm.strengthen fun _ _ => trivial

theorem get_bind {k : Heap → Mutator α} (hk : ∀ h, Safe (fun h' => h' = h ∧ P h') (k h) Q) :
    Safe P (get >>= k) Q := fun h hc hp => hk h h hc ⟨rfl, hp⟩

theorem raise (r : Raise) : Safe (·.AllCurrent r.words) (Mutator.raise r) Q :=
  fun _ hc hw => ⟨hc, hw⟩

theorem read {f : Heap → Except Fault α}
    (hf : ∀ (h : Heap) a, h.Closed → P h → f h = .ok a → Q a h) :
    Safe P (Mutator.read f) Q := by
  intro h hc hp
  unfold Mutator.read
  cases hr : f h with
  | ok a => exact ⟨hc, hf h a hc hp hr⟩
  | error f => exact ⟨hc, fun _ hw => absurd hw List.not_mem_nil⟩

theorem update {f : Heap → Except Fault Heap} {Q : Heap → Prop}
    (hf : ∀ h h' : Heap, h.Closed → P h → f h = .ok h' → h'.Closed ∧ Q h') :
    Safe P (Mutator.update f) fun _ => Q := by
  intro h hc hp
  unfold Mutator.update
  cases hr : f h with
  | ok h' => exact hf h h' hc hp hr
  | error f => exact ⟨hc, fun _ hw => absurd hw List.not_mem_nil⟩

theorem collect : Safe (fun _ => True) Mutator.collect fun _ _ => True :=
  update fun _ _ hc _ hr => ⟨hc.collect hr, trivial⟩

theorem makeRoom (words : Nat) : Safe (fun _ => True) (Mutator.makeRoom words) fun _ _ => True := by
  apply update
  intro h h' hc _ hr
  split at hr
  · exact ⟨hc.collect hr, trivial⟩
  · exact ⟨Except.ok.inj hr ▸ hc, trivial⟩

end Safe
end Mutator

namespace Heap

variable {h : Heap}

theorem Closed.named? (hc : h.Closed) {name : Bytes} {w : Word} (hw : h.named? name = some w) :
    h.isCurrent w = true := by
  apply hc.roots
  simp only [rootWords, List.mem_append]
  exact .inr (.inl (Registry.mem_words_of_find? hw))

theorem Closed.builtin (hc : h.Closed) (b : Builtin) : h.isCurrent (h.builtin b) = true :=
  hc.roots _ (h.builtin_mem_rootWords b)

theorem Closed.rootWord (hc : h.Closed) {w : Word} (hw : w ∈ h.roots) : h.isCurrent w = true :=
  hc.roots w (List.mem_append_left _ hw)

theorem Closed.outOfMemory (hc : h.Closed) : h.AllCurrent h.outOfMemory.words := by
  unfold Heap.outOfMemory Heap.named
  cases hn : h.named? (Utf8.encode Builtin.outOfMemory.name) with
  | none => exact fun _ hw => absurd hw List.not_mem_nil
  | some w =>
    intro v hv
    rw [List.mem_singleton.1 hv]
    exact hc.named? hn

end Heap

namespace Mutator
namespace Safe

variable {α β : Type} {P : Heap → Prop} {Q : α → Heap → Prop}

theorem checkLimit (words : Nat) :
    Safe (fun _ => True) (Mutator.checkLimit words) fun _ _ => True := by
  intro h hc _
  unfold Mutator.checkLimit
  by_cases hw : h.exceedsLimit words = true
  · rw [if_pos hw]
    exact ⟨hc, hc.outOfMemory⟩
  · rw [if_neg hw]
    exact ⟨hc, trivial⟩

theorem test {m : Mutator Unit} (hm : IsTest m) : Safe P m fun _ => P := by
  intro h hc hp
  rcases hm h with hr | ⟨f, hr⟩ <;> rw [hr]
  · exact ⟨hc, hp⟩
  · exact ⟨hc, fun _ hw => absurd hw List.not_mem_nil⟩

theorem reserve (words : Nat) : Safe (fun _ => True) (Mutator.reserve words) fun _ _ => True :=
  (makeRoom words).bind fun _ => checkLimit words

theorem push (b : Block) : Safe (·.AllCurrent b.fields) (Mutator.push b) Current := by
  intro h hc hb
  unfold Mutator.push
  by_cases hn : maxSlot < h.next
  · rw [if_pos hn]
    exact ⟨hc, fun _ hw => absurd hw List.not_mem_nil⟩
  · rw [if_neg hn]
    have hn := Nat.not_lt.1 hn
    exact ⟨hc.place hn hb, Heap.isCurrent_of_slot? (hc.slot?_place hn b)⟩

theorem truncateRoots {h : Heap} (hc : h.Closed) (n : Nat) : (h.truncateRoots n).Closed := by
  refine hc.withRoots ⟨rfl, rfl, rfl⟩ fun w hw => hc.roots w ?_
  simp only [Heap.rootWords, List.mem_append] at hw ⊢
  exact hw.imp_left fun hw => List.mem_of_mem_take hw

theorem appendRoots {h : Heap} (hc : h.Closed) {ws : List Word} (hw : h.AllCurrent ws) :
    ({ h with roots := h.roots ++ ws } : Heap).Closed := by
  refine hc.withRoots ⟨rfl, rfl, rfl⟩ fun v hv => ?_
  simp only [Heap.rootWords, List.mem_append] at hv
  rcases hv with (hv | hv) | hv
  · exact hc.rootWord hv
  · exact hw v hv
  · exact hc.roots v (List.mem_append_right _ (by simpa only [List.mem_append] using hv))

theorem root (w : Word) : Safe (Current w) (Mutator.root w) fun _ _ => True :=
  fun _ hc hw => ⟨appendRoots hc (List.forall_mem_singleton.2 hw), trivial⟩

theorem frame {body : Mutator α} (hb : Safe P body Q)
    (hq : ∀ a (h : Heap) n, Q a h → Q a (h.truncateRoots n)) : Safe P (Mutator.frame body) Q := by
  intro h hc hp
  have h₁ := hb h hc hp
  unfold Mutator.frame
  cases hr : body h with
  | ok a h' =>
    rw [hr] at h₁
    exact ⟨truncateRoots h₁.1 _, hq a h' _ h₁.2⟩
  | error e h' =>
    rw [hr] at h₁
    exact ⟨truncateRoots h₁.1 _, h₁.2⟩

/-- Held words are roots meanwhile, so they come back current whatever has moved. -/
theorem holding (held : List Word) (words : Nat) :
    Safe (·.AllCurrent held) (Mutator.holding held (Mutator.reserve words)) fun ws h =>
      h.AllCurrent ws := by
  intro h hc hw
  have h₁ := reserve words _ (appendRoots hc hw) trivial
  unfold Mutator.holding
  cases hr : Mutator.reserve words { h with roots := h.roots ++ held } with
  | ok a h' =>
    rw [hr] at h₁
    exact ⟨truncateRoots h₁.1 _, fun v hv => h₁.1.rootWord (List.mem_of_mem_drop hv)⟩
  | error e h' =>
    rw [hr] at h₁
    exact ⟨truncateRoots h₁.1 _, h₁.2⟩

/-- A change of the roots alone. -/
theorem roots {f : Heap → Heap} {Q : Heap → Prop} (hs : ∀ h : Heap, Heap.SameStore h (f h))
    (hr : ∀ h : Heap, h.Closed → P h → ∀ w ∈ (f h).rootWords, h.isCurrent w = true)
    (hq : ∀ h : Heap, h.Closed → P h → Q (f h)) : Safe P (modify f) fun _ => Q :=
  fun h hc hp => ⟨hc.withRoots (hs h) (hr h hc hp), hq h hc hp⟩

theorem dropRoots (n : Nat) : Safe (fun _ => True) (modify (·.truncateRoots n)) fun _ _ => True :=
  fun _ hc _ => ⟨truncateRoots hc n, trivial⟩

theorem register (name : Bytes) (w : Word) (old : List Word) :
    Safe (fun h => h.AllCurrent old ∧ Current w h) (modify (·.register name w)) fun _ h =>
      h.AllCurrent old := by
  refine roots (fun _ => ⟨rfl, rfl, rfl⟩) (fun h hc hp v hv => ?_) fun h _ hp => hp.1
  simp only [Heap.rootWords, Heap.register, List.mem_append] at hv
  rcases hv with hv | hv | hv
  · exact hc.rootWord hv
  · rcases Registry.mem_words_insert hv with rfl | hv
    · exact hp.2
    · exact hc.roots v (List.mem_append_right _ (List.mem_append_left _ hv))
  · refine hc.roots v (List.mem_append_right _ (List.mem_append_right _ ?_))
    simpa only [List.mem_append] using hv

theorem unregister (name : Bytes) (old : List Word) :
    Safe (·.AllCurrent old) (modify (·.unregister name)) fun _ h => h.AllCurrent old := by
  refine roots (fun _ => ⟨rfl, rfl, rfl⟩) (fun h hc hp v hv => hc.roots v ?_) fun h _ hp => hp
  simp only [Heap.rootWords, Heap.unregister, List.mem_append] at hv ⊢
  exact hv.imp_right (Or.imp_left Registry.mem_words_erase)

theorem park (w : Word) : Safe (Current w) (Mutator.park w) fun _ _ => True := by
  refine roots (fun _ => ⟨rfl, rfl, rfl⟩) (fun h hc hw v hv => ?_) fun _ _ _ => trivial
  simp only [Heap.rootWords, Option.toList, List.mem_append, List.mem_singleton] at hv
  rcases hv with hv | hv | hv | rfl
  · exact hc.rootWord hv
  · exact hc.roots v (List.mem_append_right _ (List.mem_append_left _ hv))
  · refine hc.roots v (List.mem_append_right _ (List.mem_append_right _ ?_))
    exact List.mem_append_left _ hv
  · exact hw

theorem takePending :
    Safe (fun _ => True) Mutator.takePending fun exn h => h.AllCurrent exn.toList := by
  intro h hc _
  have hsub : ∀ w ∈ h.pending.toList, w ∈ h.rootWords := fun w hw =>
    List.mem_append_right _ (List.mem_append_right _ (List.mem_append_right _ hw))
  refine ⟨hc.withRoots ⟨rfl, rfl, rfl⟩ fun w hw => hc.roots w ?_,
    fun w hw => hc.roots w (hsub w hw)⟩
  simp only [Heap.rootWords, Option.toList, List.append_nil] at hw
  simp only [Heap.rootWords, ← List.append_assoc] at hw ⊢
  exact List.mem_append_left _ hw

theorem setRoot (r : Root) (w : Word) :
    Safe (Current w) (Mutator.update (·.setRoot r w)) fun _ _ => True := by
  refine update fun h h' hc hw hr => ⟨?_, trivial⟩
  obtain ⟨-, rfl⟩ := Heap.setRoot_eq_ok_iff.1 hr
  refine hc.withRoots ⟨rfl, rfl, rfl⟩ fun v hv => ?_
  rcases List.mem_append.1 hv with hv | hv
  · rcases List.mem_or_eq_of_mem_set hv with hv | rfl
    · exact hc.rootWord hv
    · exact hw
  · exact hc.roots v (List.mem_append_right _ hv)

theorem setField (w : Word) (i : Nat) (x : Word) :
    Safe (Current x) (Mutator.update (·.setField w i x)) fun _ _ => True :=
  update fun _ _ hc hx hr => ⟨hc.setField hx hr, trivial⟩

theorem get_named? (name : Bytes) {k : Option Word → Mutator α}
    (hk : ∀ old, Safe (fun h => h.AllCurrent old.toList ∧ P h) (k old) Q) :
    Safe P (get >>= fun h => k (h.named? name)) Q := by
  intro h hc hp
  exact hk _ h hc ⟨fun w hw => hc.named? (Option.mem_toList.1 hw), hp⟩

theorem mapM {f : α → Mutator β} (hf : ∀ a, Safe (fun _ => True) (f a) fun _ _ => True)
    (as : List α) : Safe (fun _ => True) (as.mapM f) fun _ _ => True := by
  induction as with
  | nil => exact pure (Q := fun _ _ => True) []
  | cons a as ih =>
    rw [List.mapM_cons]
    exact (hf a).bind fun b => ih.bind fun bs => pure (Q := fun _ _ => True) (b :: bs)

/-- Reading roots leaves the heap alone, so what has been read stays current. -/
theorem readRoots (rs : List Root) (P : Heap → Prop) :
    Safe P (rs.mapM fun r => Mutator.read (·.rootValue r)) fun ws h => P h ∧ h.AllCurrent ws := by
  induction rs generalizing P with
  | nil => exact fun h hc hp => ⟨hc, hp, fun _ hw => absurd hw List.not_mem_nil⟩
  | cons r rs ih =>
    have hread : Safe P (Mutator.read (·.rootValue r)) fun w h => P h ∧ Current w h :=
      read fun h w hc hp hr =>
        ⟨hp, hc.rootWord (List.mem_of_getElem? (Heap.rootValue_eq_ok_iff.1 hr))⟩
    rw [List.mapM_cons]
    refine hread.bind fun w => (ih fun h => P h ∧ Current w h).bind fun ws => ?_
    intro h hc hp
    exact ⟨hc, hp.1.1, List.forall_mem_cons.2 ⟨hp.1.2, hp.2⟩⟩

theorem allocFields (tag : Tag) (size : Nat) :
    Safe (fun _ => True) (Mutator.allocFields tag size) Current := by
  have hblank : ∀ h : Heap, h.AllCurrent (blank tag size).fields := by
    intro h w hw
    rw [eq_unit_of_mem_blank hw]
    exact h.isCurrent_unit
  exact (test (isTest_refuse _ _)).bind fun _ => (test (isTest_checkBudgetSum _)).bind fun _ =>
    (makeRoom _).bind fun _ => (test (isTest_checkLimitSum _)).bind fun _ =>
      (checkLimit _).bind fun _ => (test (isTest_refuse _ _)).bind fun _ =>
        (push _).weaken (fun h _ => hblank h) fun _ _ hw => hw

theorem allocString (bytes : Bytes) : Safe (fun _ => True) (Mutator.allocString bytes) Current :=
  (reserve _).bind fun _ =>
    (push (.string bytes)).weaken (fun _ _ _ hw => absurd hw List.not_mem_nil) fun _ _ hw => hw

theorem allocTuple (fields : List Word) :
    Safe (·.AllCurrent fields) (Mutator.allocTuple fields) Current :=
  (holding fields _).bind fun moved => push (.tuple moved)

theorem allocStringArray (items : List Bytes) :
    Safe (fun _ => True) (Mutator.allocStringArray items) Current := by
  refine frame ?_ fun _ _ _ hw => hw
  apply (mapM (fun bytes => (allocString bytes).bind fun w => root w) items).bind
  intro roots
  apply (readRoots roots fun _ => True).bind
  intro strings
  exact (allocTuple strings).weaken (fun _ h => h.2) fun _ _ hw => hw

/-- An identity is made of a string and an immediate; numbering it changes no block. -/
theorem allocIdentity (name : String) :
    Safe (fun _ => True) (Mutator.allocIdentity name) Current := by
  apply (allocString _).bind
  intro text
  refine ((holding [text] _).weaken (fun _ hw => ?_) fun _ _ hw => hw).bind fun held => ?_
  · exact List.forall_mem_singleton.2 hw
  apply get_bind
  intro h₀
  refine ((push _).weaken (fun h hw => ?_) fun _ _ hw => hw).bind fun exn => ?_
  · exact List.forall_mem_append.2 ⟨hw.2, List.forall_mem_singleton.2 (h.isCurrent_ofInt _)⟩
  intro h hc hw
  exact ⟨hc.withRoots ⟨rfl, rfl, rfl⟩ hc.roots, hw⟩

theorem raiseTwo (traced : Bool) (identity first second : Word) :
    Safe (·.AllCurrent [identity, first, second]) (Mutator.raiseTwo traced identity first second)
      Q :=
  (allocTuple _).bind fun w => (test (isTest_noteRaise traced w)).bind fun _ =>
    (raise (.record w)).weaken (fun _ hw => List.forall_mem_singleton.2 hw) fun _ _ hq => hq

theorem raiseOutOfMemory : Safe P Mutator.raiseOutOfMemory Q := fun _ hc _ => ⟨hc, hc.outOfMemory⟩

theorem named (name : Bytes) : Safe P (Mutator.named name) Current := by
  apply get_bind
  intro h₀
  cases hn : h₀.named name with
  | ok w =>
    rintro h hc ⟨rfl, -⟩
    exact ⟨hc, hc.named? (Heap.named_eq_ok_iff.1 hn)⟩
  | error r =>
    intro h hc hp
    refine ⟨hc, fun w hw => ?_⟩
    unfold Heap.named at hn
    split at hn
    · simp at hn
    · obtain rfl := Except.error.inj hn
      exact absurd hw List.not_mem_nil

theorem allocMessage (which : Builtin) (message : Bytes) :
    Safe (fun _ => True) (Mutator.allocMessage which message) Current := by
  apply (allocString _).bind
  intro text
  refine ((holding [text] _).weaken (fun _ hw => ?_) fun _ _ hw => hw).bind fun held => ?_
  · exact List.forall_mem_singleton.2 hw
  intro h hc hw
  exact push (.tuple (h.builtin which :: held)) h hc (List.forall_mem_cons.2 ⟨hc.builtin which, hw⟩)

theorem orOutOfMemory {m : Mutator Word} (hm : Safe P m Current) :
    Safe P (Mutator.orOutOfMemory m) Current := by
  intro h hc hp
  have h₁ := hm h hc hp
  rw [orOutOfMemory_apply]
  cases hr : m h with
  | ok w h' => rwa [hr] at h₁
  | error e h' =>
    rw [hr] at h₁
    match e with
    | .raise (.record exn) | .raise (.constant exn) =>
      exact ⟨h₁.1, h₁.2 exn List.mem_cons_self⟩
    | .raise (.failure _) | .raise (.invalidArgument _) =>
      exact ⟨h₁.1, h₁.1.builtin .outOfMemory⟩
    | .fault f => exact h₁

theorem realize (r : Raise) : Safe (·.AllCurrent r.words) (Mutator.realize r) Current := by
  cases r with
  | record exn | constant exn => exact fun h hc hw => ⟨hc, hw exn List.mem_cons_self⟩
  | failure | invalidArgument =>
    exact (orOutOfMemory (allocMessage _ _)).weaken (fun _ _ => trivial) fun _ _ hw => hw

end Safe
end Mutator
end MovingHeap

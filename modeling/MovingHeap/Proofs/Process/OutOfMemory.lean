import MovingHeap.Proofs.Heap.Builtins
import MovingHeap.Proofs.Heap.Closed
import MovingHeap.Proofs.Mutator.Failure
import MovingHeap.Proofs.Native.Stages

/-!
What is raised for want of memory. Main statement: the builtin exceptions keep their identities
through any run, and as long as nothing else is done with the name of the out-of-memory exception,
every refused allocation raises that exception, as it is when the allocation returns.
-/
namespace MovingHeap

open Mutator (Triple)

/-- A raise, if it is one, is the one for want of memory. -/
def Stop.Wanting (h : Heap) (e : Stop) : Prop := ∀ r, e = .raise r → r = h.outOfMemory

theorem Stop.wanting_fault (f : Fault) (h : Heap) : (Stop.fault f).Wanting h :=
  fun _ hr => by cases hr

theorem Stop.wanting_outOfMemory (h : Heap) : (Stop.raise h.outOfMemory).Wanting h :=
  fun _ hr => (Stop.raise.inj hr).symm

/-- The stages of allocations that raise for want of memory only. -/
def Stages.wanting : Stages where
  idle := fun _ _ => True
  asked := fun _ _ => True
  ready := fun _ _ => True
  done := fun _ => True
  stopped := fun e h => e.Wanting h
  makeRoom := fun _ => .update (fun _ _ _ _ => trivial) fun f h _ => Stop.wanting_fault f h
  checkLimit := fun _ => .checkLimit (fun _ _ _ => trivial) fun h _ _ => Stop.wanting_outOfMemory h
  push := fun _ => .push (fun _ _ _ => trivial) fun f h _ => Stop.wanting_fault f h
  fault := fun _ f h _ => Stop.wanting_fault f h
  idle_roots := fun _ _ _ _ => trivial
  ready_roots := fun _ _ _ _ => trivial
  done_roots := fun _ _ _ => trivial
  stopped_roots := fun _ _ _ he => he

theorem Mutator.eq_outOfMemory {α : Type} {m : Mutator α} {Q : α → Heap → Prop} {h h' : Heap}
    {r : Raise} (hm : Triple (fun _ => True) m Q fun e k => e.Wanting k)
    (he : m h = .error (.raise r) h') : r = h'.outOfMemory := by
  have hall := hm h trivial
  rw [he] at hall
  exact hall r rfl

namespace Operation

variable {h h' : Heap} {o : Operation} {r : Raise}

/-- An operation raises for want of memory, or it raises the record that it was asked to raise, or
it looks for a name. -/
theorem raise_cases (he : o.run h = .error (.raise r) h') : r = h'.outOfMemory ∨
    (∃ traced identity first second w, o = raiseTwo traced identity first second ∧
      r = .record w) ∨
      ∃ name, o = named name := by
  have hlist : ∀ {m : Mutator Word}, Triple (fun _ => True) m (fun _ _ => True)
      (fun e k => e.Wanting k) → (do return [← m] : Mutator (List Word)) h = .error (.raise r) h' →
        r = h'.outOfMemory :=
    fun hm => Mutator.eq_outOfMemory (Q := fun _ _ => True) (hm.bind fun _ _ _ => trivial)
  have hdone : ∀ words h, Stages.wanting.done h → Stages.wanting.idle words h :=
    fun _ _ _ => trivial
  have ho := allocates_of_raise he
  cases o with
  | collect =>
    have hcollect : Triple (fun _ => True) Mutator.collect (fun _ _ => True)
        fun e k => e.Wanting k :=
      .update (fun _ _ _ _ => trivial) fun f k _ => Stop.wanting_fault f k
    exact .inl (Mutator.eq_outOfMemory (Q := fun _ _ => True)
      (hcollect.bind fun _ _ _ => trivial) he)
  | allocFields tag size => exact .inl (hlist (Stages.wanting.allocFields tag size) he)
  | allocString bytes => exact .inl (hlist (Stages.wanting.allocString bytes) he)
  | allocTuple fields => exact .inl (hlist (Stages.wanting.allocTuple fields) he)
  | allocSome w => exact .inl (hlist (Stages.wanting.allocTuple [w]) he)
  | allocStringArray items => exact .inl (hlist (Stages.allocStringArray hdone items) he)
  | allocIdentity name =>
    exact .inl (hlist (Stages.allocIdentity hdone (fun _ hd => hd) name) he)
  | raiseTwo traced identity first second =>
    simp only [run, Mutator.raiseTwo_apply] at he
    cases hr : Mutator.allocTuple [identity, first, second] h with
    | ok w k =>
      rw [hr] at he
      rcases Mutator.isTest_noteRaise traced w k with hn | ⟨f, hn⟩
      · simp only [hn] at he
        obtain ⟨hstop, -⟩ := EStateM.Result.error.inj he
        exact .inr (.inl ⟨traced, identity, first, second, w, rfl, (Stop.raise.inj hstop).symm⟩)
      · simp [hn] at he
    | error e k =>
      rw [hr] at he
      obtain ⟨rfl, rfl⟩ := EStateM.Result.error.inj he
      exact .inl (Mutator.eq_outOfMemory (Stages.wanting.allocTuple _) hr)
  | raiseOutOfMemory =>
    obtain ⟨hstop, rfl⟩ := EStateM.Result.error.inj he
    exact .inl (Stop.raise.inj hstop).symm
  | realize r => exact .inl (hlist (Stages.realize hdone (fun _ _ _ => trivial) r) he)
  | named name => exact .inr (.inr ⟨name, rfl⟩)
  | setField | root | setRoot | dropRoots | register | unregister | park | takePending => cases ho

end Operation

namespace Native

variable {α : Type} {h : Heap} {n : Native Unit α} {t t' : NativeMemory × Unit} {r : Raise}

/-- The stages of conversions that raise for want of memory only, with the exception that `h` has
for it. -/
def Stages.wanting (h : Heap) : Stages Unit h where
  kept := fun _ => True
  served := fun _ => True
  stopped := fun e _ => e.Wanting h
  allocate := by
    intro size t _
    unfold Native.allocate
    by_cases hg : t.1.grants t.1.requests (max size 1) = true
    · rw [if_pos hg]
      exact ⟨trivial, trivial⟩
    · rw [if_neg hg]
      exact Stop.wanting_outOfMemory h
  write := fun _ _ _ _ _ => trivial
  fault := fun f _ _ => Stop.wanting_fault f h

theorem eq_outOfMemory (hn : Triple (fun _ => True) n (fun _ _ => True) fun e _ => e.Wanting h)
    (he : n t = .error (.raise r) t') : r = h.outOfMemory := by
  have hall := hn t trivial
  rw [he] at hall
  exact hall r rfl

end Native

namespace Heap

variable {h : Heap} {config : Config}

theorem NamesOutOfMemory.outOfMemory_eq (hn : h.NamesOutOfMemory) :
    h.outOfMemory = .constant (h.builtin .outOfMemory) := by
  have hnamed := named_eq_ok_iff.2 hn
  unfold outOfMemory
  rw [hnamed]

/-- In every heap that operations lead to, the builtin exceptions are different words, and each
resolves to an object with two fields. In runs that leave the name of the out-of-memory exception
alone, if it is registered from the start, that exception is under its name, and it is what is
raised on demand, by every refused allocation, and for every refusal of native memory: each time in
the word that it has when the raise comes. -/
theorem builtins_keep_identity (config : Config) :
    (∀ h, Reachable config h →
      (∀ b, h.isCurrent (h.builtin b) = true ∧
        ∃ x y, h.block (h.builtin b) = .ok (some (.object [x, y]))) ∧
      ∀ b c, b ≠ c → h.builtin b ≠ h.builtin c) ∧
    ∀ os h, config.registerOutOfMemory = true →
      (∀ o ∈ os, o.renames (Utf8.encode Builtin.outOfMemory.name) = false) →
      h = (Heap.new config).perform os →
      h.named? (Utf8.encode Builtin.outOfMemory.name) = some (h.builtin .outOfMemory) ∧
      (∀ α : Type, (Mutator.raiseOutOfMemory : Mutator α) h =
        .error (.raise (.constant (h.builtin .outOfMemory))) h) ∧
      (∀ (o : Operation) r h', o.run h = .error (.raise r) h' →
        r = .constant (h'.builtin .outOfMemory) ∨
          (∃ traced identity first second w, o = .raiseTwo traced identity first second ∧
            r = .record w) ∨
            ∃ name, o = .named name) ∧
      (∀ size (memory : NativeMemory), memory.grants memory.requests (max size 1) = false →
        Native.allocate h size (memory, ()) =
          .error (.raise (.constant (h.builtin .outOfMemory))) (memory.refuse, ())) ∧
      (∀ (bytes : Bytes) t r t', (Native.copy h bytes : Native Unit Buffer) t =
        .error (.raise r) t' → r = .constant (h.builtin .outOfMemory)) ∧
      (∀ x t r t', (Native.ofString h x : Native Unit Buffer) t =
        .error (.raise r) t' → r = .constant (h.builtin .outOfMemory)) ∧
      (∀ x t r t', (Native.ofStringOption h x : Native Unit (Option Buffer)) t =
        .error (.raise r) t' → r = .constant (h.builtin .outOfMemory)) ∧
      ∀ x t r t', (Native.ofStrings h x : Native Unit (Option BufferArray)) t =
        .error (.raise r) t' → r = .constant (h.builtin .outOfMemory) := by
  constructor
  · intro h hr
    obtain ⟨slot, hd⟩ := hr.distinguishes
    exact ⟨fun b => ⟨isCurrent_of_slot? (hd.slot? b), hd.block b⟩, fun b c => hd.builtin_ne⟩
  rintro os h hregister hos rfl
  have hn := (namesOutOfMemory_new hregister).perform hos
  have hnative : ∀ {α : Type} {n : Native Unit α},
      Triple (fun _ => True) n (fun _ _ => True) (fun e _ => e.Wanting ((new config).perform os)) →
      ∀ t r t', n t = .error (.raise r) t' →
        r = .constant (((new config).perform os).builtin .outOfMemory) :=
    fun hw t r t' he => (Native.eq_outOfMemory hw he).trans hn.outOfMemory_eq
  refine ⟨hn, fun α => ?_, fun o r h' he => ?_, fun size memory hg => ?_,
    fun bytes => hnative ((Native.Stages.wanting _).copy bytes),
    fun x => hnative ((Native.Stages.wanting _).ofString x),
    fun x => hnative ((Native.Stages.wanting ((new config).perform os)).ofStringOption x),
    fun x => hnative ((Native.Stages.wanting _).ofStrings x)⟩
  · rw [Mutator.raiseOutOfMemory_apply, hn.outOfMemory_eq]
  · have hn' := hn.after (o.renames_of_allocates (o.allocates_of_raise he) _)
    rw [Operation.after_of_raise he] at hn'
    exact (Operation.raise_cases he).imp_left fun hr => hr.trans hn'.outOfMemory_eq
  · have hno : ¬ memory.grants memory.requests (max size 1) = true := by simp [hg]
    rw [Native.allocate, if_neg hno, hn.outOfMemory_eq]

/-- Nothing fits beside what a new heap holds. -/
def full : Config := { tuning := { maxWords := some 24 } }

/-- The exceptions have moved once before the string is refused, and once more for it. -/
theorem builtins_keep_identity_full :
    Reachable full ((Heap.new full).perform [.collect]) ∧
    (Operation.collect.renames (Utf8.encode Builtin.outOfMemory.name) = false) ∧
    ∃ r h', (Operation.allocString [97]).run ((Heap.new full).perform [.collect]) =
        .error (.raise r) h' ∧
      r = .constant (h'.builtin .outOfMemory) ∧ h'.builtin .outOfMemory = .ofRef ⟨16, 2⟩ := by
  have hr : Reachable full ((Heap.new full).perform [.collect]) := Reachable.new.perform _
  have hraises : Mutator.raises (Operation.allocString [97]).run
      ((Heap.new full).perform [.collect]) = true := by decide +kernel
  have hword : ((Operation.allocString [97]).after ((Heap.new full).perform [.collect])).builtin
      .outOfMemory = .ofRef ⟨16, 2⟩ := by decide +kernel
  have hos : ∀ o ∈ [Operation.collect], o.renames (Utf8.encode Builtin.outOfMemory.name) = false :=
    fun o ho => List.mem_singleton.1 ho ▸ rfl
  obtain ⟨r, h', he⟩ := Mutator.raises_iff.1 hraises
  rw [Operation.after_of_raise he] at hword
  have hraise := ((builtins_keep_identity full).2 [.collect] _ rfl hos rfl).2.2.1 _ r h' he
  obtain hr' | ⟨_, _, _, _, _, ho, -⟩ | ⟨_, ho⟩ := hraise
  · exact ⟨hr, rfl, r, h', he, hr', hword⟩
  · cases ho
  · cases ho

end Heap
end MovingHeap

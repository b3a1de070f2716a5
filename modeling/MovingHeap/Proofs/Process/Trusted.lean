import MovingHeap.Proofs.Mutator.Exhaustion
import MovingHeap.Proofs.Mutator.Safe
import MovingHeap.Proofs.Process.Guard

/-!
Runs whose callers hand in current words only. Main statement: in every heap that such a run
reaches all roots and fields are current, and so is every word that an operation or a guarded body
gives out, whatever was collected inside it.
-/
namespace MovingHeap
namespace Operation

/-- The operands that the heap is to hold or to give out. An operand that is only looked at, such as
the block of `setField`, is not among them. -/
def contents : Operation → List Word
  | allocTuple fields => fields
  | raiseTwo _ identity first second => [identity, first, second]
  | realize r => r.words
  | allocSome w | setField _ _ w | root w | setRoot _ w | register _ w | park w => [w]
  | _ => []

open Mutator in
/-- Every operation keeps a closed heap closed, and gives out current words, if its contents are. -/
theorem safe (o : Operation) :
    Safe (·.AllCurrent o.contents) o.run fun ws h => h.AllCurrent ws := by
  have hword : ∀ w : Word, Safe (Current w) (pure [w]) fun ws h => h.AllCurrent ws :=
    fun w h hc hw => ⟨hc, List.forall_mem_singleton.2 hw⟩
  have hnone : Safe (fun _ => True) (pure []) fun ws h => h.AllCurrent ws :=
    fun h hc _ => ⟨hc, fun _ hw => absurd hw List.not_mem_nil⟩
  have hone : ∀ (w : Word) (h : Heap), h.AllCurrent [w] → Current w h :=
    fun w _ hw => hw w List.mem_cons_self
  have hold : ∀ old : Option Word,
      Safe (·.AllCurrent old.toList) (pure old.toList) fun ws h => h.AllCurrent ws :=
    fun _ h hc hw => ⟨hc, hw⟩
  cases o with
  | collect => exact (Safe.collect.bind fun _ => hnone).anywhere
  | allocFields tag size => exact ((Safe.allocFields tag size).bind hword).anywhere
  | allocString bytes => exact ((Safe.allocString bytes).bind hword).anywhere
  | allocTuple fields => exact (Safe.allocTuple fields).bind hword
  | allocSome w => exact (Safe.allocTuple [w]).bind hword
  | allocStringArray items => exact ((Safe.allocStringArray items).bind hword).anywhere
  | allocIdentity name => exact ((Safe.allocIdentity name).bind hword).anywhere
  | raiseTwo traced identity first second => exact .raiseTwo traced identity first second
  | raiseOutOfMemory => exact .raiseOutOfMemory
  | realize r => exact (Safe.realize r).bind hword
  | setField w i x => exact ((Safe.setField w i x).strengthen (hone x)).bind fun _ => hnone
  | root w => exact ((Safe.root w).strengthen (hone w)).bind fun _ => hnone
  | setRoot r w => exact ((Safe.setRoot r w).strengthen (hone w)).bind fun _ => hnone
  | dropRoots n => exact (Safe.dropRoots n).anywhere.bind fun _ => hnone
  | register name w =>
    refine Safe.get_named? name (k := fun old => do modify (·.register name w); pure old.toList) ?_
    intro old
    apply ((Safe.register name w _).strengthen fun h hw => ⟨hw.1, hone w h hw.2⟩).bind
    exact fun _ => hold old
  | unregister name =>
    refine Safe.get_named? name (k := fun old => do modify (·.unregister name); pure old.toList) ?_
    intro old
    exact ((Safe.unregister name _).strengthen fun h hw => hw.1).bind fun _ => hold old
  | named name => exact (Safe.named name).bind hword
  | park w => exact ((Safe.park w).strengthen (hone w)).bind fun _ => hnone
  | takePending => exact Safe.takePending.anywhere.bind hold

end Operation

namespace Heap

theorem mem_rootWords_new {config : Config} {w : Word} (hw : w ∈ (Heap.new config).rootWords) :
    w ∈ (Heap.new {}).rootWords := by
  obtain ⟨tuning, register, limit⟩ := config
  cases register with
  | true => exact hw
  | false => exact List.mem_of_mem_tail (a := w) (l := (Heap.new {}).rootWords) hw

theorem new_closed (config : Config) : (Heap.new config).Closed := by
  have hroots : ∀ w ∈ (Heap.new {}).rootWords, (Heap.new {}).isCurrent w = true := by decide +kernel
  have hfields : ∀ b ∈ (Heap.new {}).blocks.toList, ∀ w ∈ b.fields,
      (Heap.new {}).isCurrent w = true := by decide +kernel
  have hnew : (Heap.new {}).Closed := by
    refine { new_sound {} with roots := hroots, fields := fun s b hb => ?_ }
    exact hfields b (List.mem_of_getElem? (Array.getElem?_toList ▸ (blockAt?_eq_some_iff.1 hb).2))
  exact hnew.withRoots ⟨rfl, rfl, rfl⟩ fun w hw => hroots w (mem_rootWords_new hw)

/-- The heaps that operations lead to from a new heap where the contents of each operation are
current when it is called. -/
inductive Trusted (config : Config) : Heap → Prop
  | new : Trusted config (Heap.new config)
  | after {h : Heap} (ht : Trusted config h) (o : Operation) (hw : h.AllCurrent o.contents) :
    Trusted config (o.after h)

theorem Trusted.closed {config : Config} {h : Heap} (ht : Trusted config h) : h.Closed := by
  induction ht with
  | new => exact new_closed config
  | after _ o hw ih =>
    have ho := o.safe _ ih hw
    rcases o.after_eq_self_or_final _ with he | he
    · rwa [he]
    · rw [he, Mutator.final]
      cases hr : o.run _ with
      | ok | error =>
        rw [hr] at ho
        exact ho.1

end Heap

namespace Call

variable {α : Type}

/-- From `p`, `body` goes on with a trusted run and ends with a result that satisfies `Q`, or with a
raise of current words, or with a fault, which may be that slots run out in the midst of it. -/
def StaysTrusted (config : Config) (body : Call α) (p : Process) (Q : α → Heap → Prop) : Prop :=
  match body p with
  | .ok a q => Heap.Trusted config q.heap ∧ Q a q.heap
  | .error (.raise r) q => Heap.Trusted config q.heap ∧ q.heap.AllCurrent r.words
  | .error (.fault f) q => f.isExhaustion = true ∨ Heap.Trusted config q.heap

/-- A result with `Q`, or a current exception. -/
def Answered (Q : α → Heap → Prop) : Except Word α → Heap → Prop
  | .ok a, h => Q a h
  | .error exn, h => h.isCurrent exn = true

/-- A result with `Q`, or none and a current exception that is pending. -/
def Parked (Q : α → Heap → Prop) : Option α → Heap → Prop
  | some a, h => Q a h
  | none, h => ∃ exn, h.pending = some exn ∧ h.isCurrent exn = true

theorem attempt_staysTrusted {config : Config} {body : Call α} {p : Process}
    {Q : α → Heap → Prop} (hb : body.StaysTrusted config p Q) :
    (attempt body).StaysTrusted config p (Answered Q) := by
  unfold StaysTrusted at hb ⊢
  rw [attempt_apply]
  cases hr : body p with
  | ok a q => rwa [hr] at hb
  | error e q =>
    rw [hr] at hb
    cases e with
    | fault f => exact hb
    | raise r =>
      have ht := hb.1.after (.realize r) hb.2
      have hw := Operation.safe (.realize r) q.heap hb.1.closed hb.2
      rcases Mutator.realize_returns r q.heap with ⟨exn, h', hx⟩ | ⟨f, h', hx, hf⟩
      · have hrun : (Operation.realize r).run q.heap = .ok [exn] h' :=
          Operation.run_of_word rfl hx
        rw [Operation.after_of_ok hrun] at ht
        rw [hrun] at hw
        simp only [hx]
        exact ⟨ht, hw.2 exn List.mem_cons_self⟩
      · simp only [hx]
        exact .inl hf

theorem park_staysTrusted {config : Config} {body : Call α} {p : Process}
    {Q : α → Heap → Prop} (hb : body.StaysTrusted config p Q) :
    (park body).StaysTrusted config p (Parked Q) := by
  have ha := attempt_staysTrusted hb
  unfold StaysTrusted at ha ⊢
  rw [park_apply]
  cases hr : attempt body p with
  | ok x q =>
    rw [hr] at ha
    cases x with
    | ok a => exact ha
    | error exn =>
      exact ⟨ha.1.after (.park exn) (List.forall_mem_singleton.2 ha.2), exn, rfl, ha.2⟩
  | error e q =>
    rw [hr] at ha
    cases e <;> exact ha

end Call

namespace Heap

/-- Where only current words are handed in, the heap holds only current words, and operations and
guarded bodies give out only such. -/
theorem words_current_of_trusted {config : Config} {h : Heap} (ht : Trusted config h) :
    (∀ w ∈ h.rootWords, h.isCurrent w = true) ∧
    (∀ s b, h.blockAt? s = some b → ∀ w ∈ b.fields, h.isCurrent w = true) ∧
    (∀ o : Operation, h.AllCurrent o.contents →
      match o.run h with
      | .ok ws h' => h'.AllCurrent ws
      | .error e h' => h'.AllCurrent e.words) ∧
    ∀ {α : Type} (body : Call α) (memory : NativeMemory) (Q : α → Heap → Prop),
      body.StaysTrusted config ⟨h, memory⟩ Q →
      (Call.attempt body).StaysTrusted config ⟨h, memory⟩ (Call.Answered Q) ∧
      (Call.park body).StaysTrusted config ⟨h, memory⟩ (Call.Parked Q) := by
  have hc := ht.closed
  refine ⟨hc.roots, hc.fields, fun o hw => ?_, fun body memory Q hb => ?_⟩
  · have ho := o.safe h hc hw
    cases hr : o.run h with
    | ok | error =>
      rw [hr] at ho
      exact ho.2
  · exact ⟨Call.attempt_staysTrusted hb, Call.park_staysTrusted hb⟩

def stressed : Config := { tuning := { stress := true } }

/-- A string, held by a root, in a heap that collects before every allocation. -/
def held : Heap :=
  (Operation.root (.ofRef ⟨16, 1⟩)).after <| (Operation.allocString [97]).after (.new stressed)

theorem words_current_of_held :
    Trusted stressed held ∧ held.AllCurrent (Operation.allocSome (.ofRef ⟨16, 1⟩)).contents ∧
    (∃ h', (Operation.allocSome (.ofRef ⟨16, 1⟩)).run held = .ok [.ofRef ⟨26, 2⟩] h' ∧
      h'.AllCurrent [.ofRef ⟨26, 2⟩] ∧ ¬ h'.isCurrent (.ofRef ⟨16, 1⟩)) ∧
    (Call.park (Call.raise (.failure []) : Call Empty)).StaysTrusted stressed ⟨held, {}⟩
      (Call.Parked fun _ _ => False) := by
  have hs : Trusted stressed ((Operation.allocString [97]).after (.new stressed)) :=
    .after .new _ fun _ hw => absurd hw List.not_mem_nil
  have ht : Trusted stressed held := .after hs _ (by unfold AllCurrent; decide +kernel)
  have hw : held.AllCurrent (Operation.allocSome (.ofRef ⟨16, 1⟩)).contents := by
    unfold AllCurrent
    decide +kernel
  have hrun : (match (Operation.allocSome (.ofRef ⟨16, 1⟩)).run held with
      | .ok ws h' => some (ws, h'.isCurrent (.ofRef ⟨16, 1⟩))
      | .error _ _ => none) = some ([.ofRef ⟨26, 2⟩], false) := by decide +kernel
  have hc := words_current_of_trusted ht
  have ho := hc.2.2.1 _ hw
  have hb : (Call.raise (.failure []) : Call Empty).StaysTrusted stressed ⟨held, {}⟩
      fun _ _ => False := ⟨ht, fun _ hw => absurd hw List.not_mem_nil⟩
  refine ⟨ht, hw, ?_, (hc.2.2.2 _ _ _ hb).2⟩
  cases hr : (Operation.allocSome (.ofRef ⟨16, 1⟩)).run held with
  | ok ws h' =>
    rw [hr] at hrun ho
    obtain ⟨rfl, hn⟩ := Prod.mk.inj (Option.some.inj hrun)
    exact ⟨h', rfl, ho, by simp [hn]⟩
  | error e h' => simp [hr] at hrun

end Heap
end MovingHeap

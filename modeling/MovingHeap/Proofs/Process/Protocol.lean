import MovingHeap.Proofs.Mutator.Pending
import MovingHeap.Proofs.Process.EntryPoint

/-!
The pending exception as native callers see it. A run mixes calls of the entry points, guarded
bodies and operations on the heap, and records the operations that they come down to. Main
statement: an exception is reported exactly if one was parked and not taken since, the last one
parked is the one that is taken, and a null answer without an exception means an absent value.
-/
namespace MovingHeap
namespace Process

/-- The runs from `p` with the operations that they come down to. They mix operations on the heap,
use of native memory by others, of which `R` says what it may do, calls of the entry points that
come back, and guarded bodies, which are runs in their turn. -/
inductive Run (R : NativeMemory → NativeMemory → Prop) :
    Process → List Operation → Process → Prop
  | start (p : Process) : Run R p [] p
  | operation {p q : Process} {os : List Operation} (o : Operation) :
    Run R p os q → Run R p (os ++ [o]) { q with heap := o.after q.heap }
  | native {p q : Process} {os : List Operation} (memory : NativeMemory) :
    Run R p os q → R q.memory memory → Run R p os { q with memory }
  | entry {p q q' : Process} {os : List Operation} (e : EntryPoint) {a : e.Answer} :
    Run R p os q → e.call q = .ok a q' → Run R p (os ++ e.operations q) q'
  | isPending {p q q' : Process} {os : List Operation} {b : Bool} :
    Run R p os q → Entry.isPending q = .ok b q' → Run R p os q'
  | takeException {p q q' : Process} {os : List Operation} {w : Word} :
    Run R p os q → Entry.takeException q = .ok w q' → Run R p (os ++ [.takePending]) q'
  | guarded {p q q' : Process} {os os' : List Operation} {α : Type} (body : Call α) {x : Option α} :
    Run R p os q → Run R q os' (body.final q) → Call.park body q = .ok x q' →
      Run R p (os ++ os' ++ Call.parking body q) q'

variable {R : NativeMemory → NativeMemory → Prop}

theorem Run.heap {p q : Process} {os : List Operation} (hr : Run R p os q) :
    q.heap = p.heap.perform os := by
  induction hr with
  | start => rfl
  | operation o _ ih => rw [Heap.perform_append, ← ih]; rfl
  | native _ _ _ ih => exact ih
  | entry e _ hc ih => rw [Heap.perform_append, ← ih, EntryPoint.heap_of_call hc]
  | isPending _ hc ih =>
    obtain ⟨-, rfl⟩ := EStateM.Result.ok.inj hc
    exact ih
  | takeException _ hc ih =>
    obtain ⟨-, rfl⟩ := EStateM.Result.ok.inj hc
    rw [Heap.perform_append, ← ih]
    rfl
  | guarded body _ _ hp ih ih' =>
    rw [Heap.perform_append, Heap.perform_append, ← ih, ← ih', Call.heap_of_park hp]

/-- An exception is reported exactly if one was parked and not taken since. The one parked last is
taken: the collections have turned its word `exn` into `f exn`, which refers to the same block, with
the fields that were not written turned by `f` too. An entry point that raises leaves an exception
behind and gives a null answer; one that does not raise leaves the heap alone, and its answer is
null exactly for an absent value. -/
theorem pending_of_run {config : Config} {memory : NativeMemory} {os : List Operation} {q : Process}
    (hr : Run R ⟨.new config, memory⟩ os q) :
    (∃ b, Entry.isPending q = .ok b q ∧ (b = true ↔ Operation.Parked os)) ∧
    (∀ front exn back h, os = front ++ .park exn :: back → (∀ o ∈ back, o.settles = false) →
      h = (Heap.new config).perform (front ++ [.park exn]) →
      ∃ f, h.Drifts f q.heap ∧
        Entry.takeException q = .ok (f exn) { q with heap := { q.heap with pending := none } } ∧
        ∀ s b, h.slot? exn = some s → h.blockAt? s = some b →
          ∃ t c, q.heap.slot? (f exn) = some t ∧ q.heap.blockAt? t = some c ∧
            b.Remains c ∧ c.size = b.size ∧
            ∀ i x, ¬ Heap.WritesPending back h i → b.fields[i]? = some x →
              c.fields[i]? = some (f x)) ∧
    (∀ (e : EntryPoint) (a : e.Answer) (q' : Process), e.call q = .ok a q' →
      (e.body.Raises q → e.IsNull a ∧ q'.heap.pending.isSome = true) ∧
      (¬ e.body.Raises q → q'.heap = q.heap) ∧
      (e.IsNull a ∧ ¬ e.body.Raises q ↔ e.Absent q.heap)) ∧
    ∀ w out out' q', Entry.intOption w out q = .ok (false, out') q' → out' = out := by
  have hheap : q.heap = (Heap.new config).perform os := hr.heap
  have hsound := Heap.new_sound config
  refine ⟨⟨_, rfl, ?_⟩, ?_, fun e a q' hc => EntryPoint.answer_of_call hc,
    fun w out out' q' hc => EntryPoint.out_of_intOption hc⟩
  · rw [hheap]
    exact Heap.isSome_pending_perform_iff hsound rfl os
  · rintro front exn back h rfl hback rfl
    have hparked : ((Heap.new config).perform (front ++ [.park exn])).pending = some exn := by
      rw [Heap.perform_append]
      rfl
    have hback' : q.heap = ((Heap.new config).perform (front ++ [.park exn])).perform back := by
      rw [← Heap.perform_append, List.append_assoc]
      exact hheap
    obtain ⟨f, hf⟩ := Heap.Tracks.perform hback
      ((Heap.steps_perform (front ++ [.park exn]) (.new config)).sound hsound)
    rw [← hback'] at hf
    have hpending : q.heap.pending = some (f exn) := by rw [hf.pending, hparked, Option.map_some]
    refine ⟨f, hf.drifts, ?_, fun s b hs hb => ?_⟩
    · change EStateM.Result.ok (q.heap.pending.getD .unit) _ = _
      rw [hpending]
      rfl
    · obtain ⟨t, c, ht, hc, hbc, hfields⟩ := hf.block exn s b hparked hs hb
      exact ⟨t, c, ht, hc, hbc, hbc.size, hfields⟩

/-- A string was asked for where there is a number. -/
def refused : Process := (Entry.string (.ofInt 5)).final ⟨.new {}, {}⟩

/-- The exception of the refusal is taken after a collection has moved it. -/
theorem pending_of_run_refused :
    ∃ r q, Run (fun _ _ => False) ⟨.new {}, {}⟩ [.realize r, .park (.ofRef ⟨9, 0⟩), .collect] q ∧
      Entry.isPending q = .ok true q ∧
      Entry.takeException q =
        .ok (.ofRef ⟨14, 1⟩) { q with heap := { q.heap with pending := none } } := by
  have hsucceeds : Mutator.succeeds (EntryPoint.string (.ofInt 5)).call ⟨.new {}, {}⟩ = true := by
    decide +kernel
  have hraises : Mutator.raises (EntryPoint.string (.ofInt 5)).body ⟨.new {}, {}⟩ = true := by
    decide +kernel
  have hparked : refused.heap.pending = some (.ofRef ⟨9, 0⟩) := by decide +kernel
  have hmoved : (Operation.collect.after refused.heap).pending = some (.ofRef ⟨14, 1⟩) := by
    decide +kernel
  obtain ⟨a, q, hcall⟩ := Mutator.succeeds_iff.1 hsucceeds
  obtain rfl : refused = q := Call.final_eq_of_ok hcall
  obtain ⟨r, exn, hos, hexn⟩ := EntryPoint.operations_of_raises hcall (Mutator.raises_iff.1 hraises)
  obtain rfl : exn = .ofRef ⟨9, 0⟩ := Option.some.inj (hexn.symm.trans hparked)
  have hrun := Run.operation (R := fun _ _ => False) .collect
    (.entry (.string (.ofInt 5)) (.start _) hcall)
  rw [hos] at hrun
  obtain ⟨⟨b, hb, hreport⟩, htake, -⟩ := pending_of_run hrun
  obtain rfl : b = true := hreport.2 ⟨[.realize r], _, [.collect], rfl, by simp⟩
  obtain ⟨f, -, htake, -⟩ := htake [.realize r] _ [.collect] _ rfl (by simp [Operation.settles]) rfl
  have hword' : f (.ofRef ⟨9, 0⟩) = .ofRef ⟨14, 1⟩ := by
    obtain ⟨hfirst, -⟩ := EStateM.Result.ok.inj htake
    rw [← hfirst]
    exact congrArg (Option.getD · Word.unit) hmoved
  exact ⟨r, _, hrun, hb, hword' ▸ htake⟩

/-- A name stands for unit. -/
def unitNamed : Process := ⟨(Operation.register [120] .unit).after (.new {}), {}⟩

/-- The options and the empty array are not all the cases of a null answer without a raise. -/
theorem named_unit_without_raise :
    Run (fun _ _ => False) ⟨.new {}, {}⟩ [.register [120] .unit] unitNamed ∧
      ¬ ∀ (e : EntryPoint) (a : e.Answer) (q : Process), e.call unitNamed = .ok a q → e.IsNull a →
        e.body.Raises unitNamed ∨ e = .stringOption .absent ∨
          (∃ n, e = .intOption .absent (some n)) ∨
          ∃ w, e = .strings w ∧ unitNamed.heap.block w = .ok (some (.tuple [])) := by
  refine ⟨.operation (.register [120] .unit) (.start _), fun hall => ?_⟩
  have hname : unitNamed.heap.named? (cString [120]) = some .unit := Heap.named?_register_self _ _ _
  obtain ⟨a, hc, hnull, hnot⟩ :=
    EntryPoint.call_of_absent (e := .named (some [120])) ⟨[120], rfl, hname⟩
  obtain hr | he | ⟨n, he⟩ | ⟨w, he, -⟩ := hall _ a _ hc hnull
  · exact hnot hr
  all_goals cases he

end Process
end MovingHeap

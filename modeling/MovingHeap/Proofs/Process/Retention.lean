import MovingHeap.Proofs.Native.Memory
import MovingHeap.Proofs.Native.Stages
import MovingHeap.Proofs.Process.Protocol

/-!
What is held in native memory through a run. Main statement: operations on the heap, the entry
points and guarded bodies leave every region as it was that was served before; so whatever a copy
holds, it holds at any later time, as long as the other users of native memory leave it alone too.
-/
namespace MovingHeap

open Mutator (Triple)

/-- The stages of conversions that leave the regions of `m` as they are. -/
def Native.Stages.retaining (m : NativeMemory) (h : Heap) : Native.Stages Unit h where
  kept := fun t => m.Retains t.1
  served := fun place => m.regions.size ≤ place
  stopped := fun _ t => m.Retains t.1
  allocate := by
    intro size t ht
    unfold Native.allocate
    cases hg : t.1.grants t.1.requests (max size 1) with
    | true => exact ⟨ht.serve _, ht.size_le⟩
    | false => exact ht
  write := fun _ filling hplace _ ht => ht.write hplace filling
  fault := fun _ _ ht => ht

namespace Call

variable {α : Type} {m : NativeMemory} {p q : Process}

/-- The regions of `m` stay as they are, however the computation ends. -/
abbrev Retaining (m : NativeMemory) (c : Call α) : Prop :=
  Triple (fun p => m.Retains p.memory) c (fun _ p => m.Retains p.memory)
    fun _ p => m.Retains p.memory

theorem managed_retaining (m : NativeMemory) (c : Mutator α) : Retaining m (managed c) := by
  intro p hp
  unfold managed
  cases c p.heap with
  | ok | error => exact hp

theorem native_retaining {n : Heap → Native Unit α} (hn : ∀ h, Triple (fun t => m.Retains t.1)
    (n h) (fun _ t => m.Retains t.1) fun _ t => m.Retains t.1) : Retaining m (native n) := by
  intro p hp
  have hall := hn p.heap (p.memory, ()) hp
  unfold native
  cases hr : n p.heap (p.memory, ()) with
  | ok | error => rwa [hr] at hall

theorem narrow_retaining (m : NativeMemory) (s : Shape) (w : Word) : Retaining m (narrow s w) := by
  apply (managed_retaining m _).bind
  intro x
  cases x with
  | ok | error => exact fun _ hp => hp

theorem Retaining.final {c : Call α} (hc : Retaining m c) (hp : m.Retains p.memory) :
    m.Retains (c.final p).memory := by
  have hall := hc p hp
  unfold Call.final
  cases hr : c p with
  | ok | error => rwa [hr] at hall

/-- A guard does not work in native memory. -/
theorem memory_of_park {body : Call α} {x : Option α} (hp : park body p = .ok x q) :
    q.memory = (body.final p).memory := by
  obtain ⟨a, -, hb⟩ | ⟨r, q₁, exn, h, -, hb, -, rfl⟩ := park_eq_ok hp
  · rw [final_eq_of_ok hb]
  · rw [final, hb]

end Call

namespace EntryPoint

theorem body_retaining (m : NativeMemory) (e : EntryPoint) : Call.Retaining m e.body := by
  cases e with
  | allocate size =>
    show Call.Retaining m (Call.native fun h => Native.allocate h size)
    apply Call.native_retaining
    intro h
    apply ((Native.Stages.retaining m h).allocate size).weaken
    · exact fun _ ht => ht
    · exact fun _ _ ht => ht.1
    · exact fun _ _ ht => ht
  | string w =>
    apply (Call.narrow_retaining m _ w).bind
    exact fun x => Call.native_retaining fun h => (Native.Stages.retaining m h).ofString x
  | stringOption w =>
    apply (Call.narrow_retaining m _ w).bind
    exact fun x => Call.native_retaining fun h => (Native.Stages.retaining m h).ofStringOption x
  | intOption w out =>
    apply (Call.narrow_retaining m _ w).bind
    intro x
    cases out with
    | none => exact fun _ hp => hp
    | some n => exact Call.managed_retaining m _
  | strings w =>
    apply (Call.narrow_retaining m _ w).bind
    exact fun x => Call.native_retaining fun h => (Native.Stages.retaining m h).ofStrings x
  | raiseTwo traced identity first second =>
    exact Call.managed_retaining m (Mutator.raiseTwo traced identity first second)
  | raiseOutOfMemory =>
    exact Call.managed_retaining m (Mutator.raiseOutOfMemory : Mutator Unit)
  | named name =>
    cases name with
    | none => exact fun _ hp => hp
    | some bytes => exact Call.managed_retaining m _

end EntryPoint

namespace Process

theorem Run.retains {p q : Process} {os : List Operation}
    (hr : Run NativeMemory.Retains p os q) : p.memory.Retains q.memory := by
  induction hr with
  | start p => exact .refl p.memory
  | operation _ _ ih => exact ih
  | native memory _ hm ih => exact ih.trans hm
  | entry e _ hc ih =>
    obtain ⟨x, hp, -⟩ := EntryPoint.call_eq_ok hc
    rw [Call.memory_of_park hp]
    exact (EntryPoint.body_retaining _ e).final ih
  | isPending _ hc ih =>
    obtain ⟨-, rfl⟩ := EStateM.Result.ok.inj hc
    exact ih
  | takeException _ hc ih =>
    obtain ⟨-, rfl⟩ := EStateM.Result.ok.inj hc
    exact ih
  | guarded body _ _ hp ih ih' =>
    rw [Call.memory_of_park hp]
    exact ih.trans ih'

/-- A copy is unchanged by whatever happens later in the process. -/
theorem Run.holds {p q : Process} {os : List Operation} {b : Buffer}
    (hr : Run NativeMemory.Retains p os q) (hb : p.memory.Holds b) : q.memory.Holds b :=
  hb.of_retains hr.retains

end Process
end MovingHeap

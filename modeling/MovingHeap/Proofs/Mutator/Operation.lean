import MovingHeap.Proofs.Mutator.Trace

/-!
The operations that a heap offers to its users, as data, and the heaps that they lead to. Looking at
a heap does not change it, so the operations that only look are left out; a guarded body is the
operations in it followed by `realize` of its raise and, where the raise is parked, by `park`.
-/
namespace MovingHeap

/-- An operation together with its operands. -/
inductive Operation
  | collect
  | allocFields (tag : Tag) (size : Nat)
  | allocString (bytes : Bytes)
  | allocTuple (fields : List Word)
  | allocSome (w : Word)
  | allocStringArray (items : List Bytes)
  | allocIdentity (name : String)
  | raiseTwo (traced : Bool) (identity first second : Word)
  | raiseOutOfMemory
  | realize (r : Raise)
  | setField (w : Word) (i : Nat) (x : Word)
  | root (w : Word)
  | setRoot (r : Root) (w : Word)
  /-- Drops a frame: the oldest `n` roots stay. -/
  | dropRoots (n : Nat)
  | register (name : Bytes) (w : Word)
  | unregister (name : Bytes)
  | named (name : Bytes)
  | park (w : Word)
  | takePending

namespace Operation

/-- Performs the operation, and gives the words that it gives back. -/
def run : Operation → Mutator (List Word)
  | collect => do
    Mutator.collect
    return []
  | allocFields tag size => return [← Mutator.allocFields tag size]
  | allocString bytes => return [← Mutator.allocString bytes]
  | allocTuple fields => return [← Mutator.allocTuple fields]
  | allocSome w => return [← Mutator.allocSome w]
  | allocStringArray items => return [← Mutator.allocStringArray items]
  | allocIdentity name => return [← Mutator.allocIdentity name]
  | raiseTwo traced identity first second => Mutator.raiseTwo traced identity first second
  | raiseOutOfMemory => Mutator.raiseOutOfMemory
  | realize r => return [← Mutator.realize r]
  | setField w i x => do
    Mutator.update (·.setField w i x)
    return []
  | root w => do
    let _ ← Mutator.root w
    return []
  | setRoot r w => do
    Mutator.update (·.setRoot r w)
    return []
  | dropRoots n => do
    modify (·.truncateRoots n)
    return []
  | register name w => do
    let old := (← get).named? name
    modify (·.register name w)
    return old.toList
  | unregister name => do
    let old := (← get).named? name
    modify (·.unregister name)
    return old.toList
  | named name => return [← Mutator.named name]
  | park w => do
    Mutator.park w
    return []
  | takePending => return (← Mutator.takePending).toList

/-- The heap that a run goes on with after the operation, also where it stopped with a raise or a
fault. No run goes on after a want of slots, which leaves the heap half-way through a change: such
an operation is passed over. -/
def after (o : Operation) (h : Heap) : Heap := if Mutator.exhausts o.run h then h else o.run.final h

variable {h h' : Heap}

theorem after_eq_self_or_final (o : Operation) (h : Heap) :
    o.after h = h ∨ o.after h = o.run.final h := by
  unfold after
  split
  · exact .inl rfl
  · exact .inr rfl

/-- An operation that gives a single word gives the result of the computation behind it. -/
theorem run_of_word {o : Operation} {m : Mutator Word} {w : Word} (ho : o.run = do return [← m])
    (hm : m h = .ok w h') : o.run h = .ok [w] h' := by
  rw [ho, Mutator.bind_apply, hm]
  rfl

theorem after_of_ok {o : Operation} {ws : List Word} (hr : o.run h = .ok ws h') :
    o.after h = h' := by
  simp [after, Mutator.exhausts, Mutator.final, hr]

theorem after_of_raise {o : Operation} {r : Raise} (hr : o.run h = .error (.raise r) h') :
    o.after h = h' := by
  simp [after, Mutator.exhausts, Mutator.final, hr]

/-- Where a replacement of the heap fails, the heap is what it was. -/
theorem after_of_update {o : Operation} {f : Heap → Except Fault Heap}
    (ho : o.run = do Mutator.update f; return []) (h : Heap) :
    o.after h =
      match f h with
      | .ok h' => h'
      | .error _ => h := by
  have hfinal := Mutator.final_update_return f ([] : List Word) h
  rw [← ho] at hfinal
  cases hf : f h with
  | ok h' =>
    have hrun : o.run h = .ok [] h' := by
      rw [ho, Mutator.bind_apply, Mutator.update, hf]
      rfl
    exact after_of_ok hrun
  | error e =>
    rw [hf] at hfinal
    rcases o.after_eq_self_or_final h with he | he
    · exact he
    · exact he.trans hfinal

/-- Whether the operation does nothing to a heap but collect and allocate. -/
def allocates : Operation → Bool
  | collect | allocFields _ _ | allocString _ | allocTuple _ | allocSome _ | allocStringArray _
  | allocIdentity _ | raiseTwo .. | raiseOutOfMemory | realize _ | named _ => true
  | _ => false

/-- Whether the operation sets or takes the pending exception. -/
def settles : Operation → Bool
  | park _ | takePending => true
  | _ => false

theorem along {R S : Heap → Heap → Prop} (hR : Heap.AdmitsFrames R S) {o : Operation}
    (hcount : ∀ name, o = allocIdentity name →
      ∀ h : Heap, R h { h with identities := h.nextIdentity })
    (ho : o.allocates = true) : o.run.Along R := by
  have hA := hR.toAdmits
  have hpure : ∀ ws : List Word, (pure ws : Mutator (List Word)).Along R := Mutator.Along.pure hA
  cases o with
  | collect => exact (Mutator.Along.collect hA).bind hA fun _ => hpure _
  | allocFields tag size => exact (Mutator.Along.allocFields hA tag size).bind hA fun _ => hpure _
  | allocString bytes => exact (Mutator.Along.allocString hA bytes).bind hA fun _ => hpure _
  | allocTuple fields => exact (Mutator.Along.allocTuple hA fields).bind hA fun _ => hpure _
  | allocSome w => exact (Mutator.Along.allocTuple hA [w]).bind hA fun _ => hpure _
  | allocStringArray items =>
    exact (Mutator.Along.allocStringArray hR items).bind hA fun _ => hpure _
  | allocIdentity name =>
    exact (Mutator.Along.allocIdentity hA (hcount name rfl) name).bind hA fun _ => hpure _
  | raiseTwo traced identity first second => exact .raiseTwo hA traced identity first second
  | raiseOutOfMemory => exact .raiseOutOfMemory hA
  | realize r => exact (Mutator.Along.realize hA r).bind hA fun _ => hpure _
  | named name => exact (Mutator.Along.named hA name).bind hA fun _ => hpure _
  | setField | root | setRoot | dropRoots | register | unregister | park | takePending => cases ho

/-- Writing a field touches the blocks only, also where it fails. -/
theorem exists_after_setField (w : Word) (i : Nat) (x : Word) (h : Heap) :
    ∃ blocks, (setField w i x).after h = { h with blocks := blocks } := by
  rw [after_of_update rfl]
  cases hs : h.setField w i x with
  | ok k =>
    obtain ⟨s, b, -, -, -, rfl⟩ := Heap.setField_eq_ok_iff.1 hs
    exact ⟨_, rfl⟩
  | error => exact ⟨h.blocks, rfl⟩

/-- Writing a root touches the roots only, also where it fails. -/
theorem exists_after_setRoot (r : Root) (w : Word) (h : Heap) :
    ∃ roots, (setRoot r w).after h = { h with roots := roots } := by
  rw [after_of_update rfl]
  cases hs : h.setRoot r w with
  | ok k =>
    obtain ⟨-, rfl⟩ := Heap.setRoot_eq_ok_iff.1 hs
    exact ⟨_, rfl⟩
  | error => exact ⟨h.roots, rfl⟩

/-- An operation that does not allocate touches nothing but blocks, roots, names and the pending
exception. -/
theorem exists_after_eq {o : Operation} (ho : o.allocates = false) (h : Heap) :
    ∃ blocks roots registry pending, o.after h =
      { h with blocks := blocks, roots := roots, registry := registry, pending := pending } := by
  cases o with
  | setField w i x =>
    obtain ⟨blocks, he⟩ := exists_after_setField w i x h
    exact ⟨blocks, _, _, _, he⟩
  | setRoot r w =>
    obtain ⟨roots, he⟩ := exists_after_setRoot r w h
    exact ⟨_, roots, _, _, he⟩
  | root | dropRoots | register | unregister | park | takePending => exact ⟨_, _, _, _, rfl⟩
  | _ => cases ho

/-- An operation that does not allocate neither collects nor places a block. -/
theorem after_eq_or_quiet {o : Operation} (ho : o.allocates = false) (h : Heap) :
    o.after h = h ∨ Heap.Quiet h (o.after h) := by
  cases o with
  | setField w i x =>
    rw [after_of_update rfl]
    cases hs : h.setField w i x with
    | ok k =>
      obtain ⟨s, b, -, -, -, rfl⟩ := Heap.setField_eq_ok_iff.1 hs
      exact .inr ⟨.setField hs, rfl, by simp [Heap.next, Heap.write]⟩
    | error => exact .inl rfl
  | root w => exact .inr ⟨.roots _, rfl, rfl⟩
  | setRoot r w =>
    obtain ⟨rs, he⟩ := exists_after_setRoot r w h
    rw [he]
    exact .inr ⟨.roots rs, rfl, rfl⟩
  | dropRoots n => exact .inr ⟨.roots _, rfl, rfl⟩
  | register name w => exact .inr ⟨.register name w, rfl, rfl⟩
  | unregister name => exact .inr ⟨.unregister name, rfl, rfl⟩
  | park w => exact .inr ⟨.pending _, rfl, rfl⟩
  | takePending => exact .inr ⟨.pending _, rfl, rfl⟩
  | _ => cases ho

/-- What holds between the heaps before and after all allocations holds between those before and
after the operation. -/
theorem after_along {R S : Heap → Heap → Prop} (hR : Heap.AdmitsFrames R S) {o : Operation}
    (hcount : ∀ name, o = allocIdentity name →
      ∀ h : Heap, R h { h with identities := h.nextIdentity })
    (ho : o.allocates = true) (h : Heap) : R h (o.after h) := by
  rcases o.after_eq_self_or_final h with he | he
  · rw [he]
    exact hR.refl h
  · rw [he]
    exact along hR hcount ho h

theorem steps_after (o : Operation) (h : Heap) : h.Steps (o.after h) := by
  by_cases ho : o.allocates = true
  · exact after_along Heap.admitsFrames_steps (fun _ _ _ => .single .count) ho h
  · rcases o.after_eq_or_quiet (Bool.eq_false_iff.2 ho) h with he | hq
    · rw [he]
      exact .refl
    · exact .single hq.step

end Operation

namespace Heap

/-- The heaps that operations lead to, in any number and any order, from a new heap. -/
inductive Reachable (config : Config) : Heap → Prop
  | new : Reachable config (Heap.new config)
  | after {h : Heap} (o : Operation) : Reachable config h → Reachable config (o.after h)

theorem Reachable.steps {config : Config} {h : Heap} (hr : Reachable config h) :
    (Heap.new config).Steps h := by
  induction hr with
  | new => exact .refl
  | after o _ ih => exact ih.trans (o.steps_after _)

/-- The heap after some operations, one after the other. -/
def perform (h : Heap) (os : List Operation) : Heap := os.foldl (fun h o => o.after h) h

theorem perform_append (os os' : List Operation) (h : Heap) :
    h.perform (os ++ os') = (h.perform os).perform os' := List.foldl_append

theorem steps_perform (os : List Operation) (h : Heap) : h.Steps (h.perform os) := by
  induction os generalizing h with
  | nil => exact .refl
  | cons o os ih => exact (o.steps_after h).trans (ih _)

theorem Reachable.perform {config : Config} {h : Heap} (hr : Reachable config h)
    (os : List Operation) : Reachable config (h.perform os) := by
  induction os generalizing h with
  | nil => exact hr
  | cons o os ih => exact ih (hr.after o)

theorem new_sound (config : Config) : (Heap.new config).Sound := by
  constructor
  · simp [new, define, place]
  · simp [new, define, place, next, maxSlot]

theorem Reachable.sound {config : Config} {h : Heap} (hr : Reachable config h) : h.Sound :=
  hr.steps.sound (new_sound config)

end Heap
end MovingHeap

import MovingHeap.Process
import MovingHeap.Proofs.Mutator.Operation
import MovingHeap.Proofs.Shape.Check

/-!
What guarded bodies and shape checks do to a process, case by case.
-/
namespace MovingHeap

theorem Mutator.read_eq_ok {α : Type} {f : Heap → Except Fault α} {h h' : Heap} {x : α}
    (hr : Mutator.read f h = .ok x h') : f h = .ok x := by
  unfold Mutator.read at hr
  cases hf : f h with
  | ok y =>
    rw [hf] at hr
    rw [(EStateM.Result.ok.inj hr).1]
  | error e =>
    rw [hf] at hr
    cases hr

theorem Mutator.return_eq_ok {σ α β : Type} {m : EStateM Stop σ α} {g : α → β} {s s' : σ} {y : β}
    (hy : (do return g (← m) : EStateM Stop σ β) s = .ok y s') : ∃ x, m s = .ok x s' ∧ y = g x := by
  rw [Mutator.bind_apply] at hy
  cases hm : m s with
  | ok x s₁ =>
    rw [hm] at hy
    obtain ⟨rfl, rfl⟩ := EStateM.Result.ok.inj hy
    exact ⟨x, rfl, rfl⟩
  | error e s₁ =>
    rw [hm] at hy
    cases hy

namespace Call

variable {α β : Type} {body : Call α} {p q : Process}

theorem raise_apply (r : Raise) (p : Process) : (raise r : Call α) p = .error (.raise r) p := rfl

theorem attempt_apply (body : Call α) (p : Process) :
    attempt body p =
      match body p with
      | .ok a q => .ok (.ok a) q
      | .error (.raise r) q =>
        match Mutator.realize r q.heap with
        | .ok exn heap => .ok (.error exn) { q with heap }
        | .error e heap => .error e { q with heap }
      | .error (.fault f) q => .error (.fault f) q := by
  simp only [attempt, Mutator.tryCatch_apply, Functor.map, EStateM.map]
  cases body p with
  | ok => rfl
  | error e q =>
    cases e with
    | raise r =>
      change EStateM.map Except.error (managed (Mutator.realize r)) q = _
      simp only [EStateM.map, managed]
      cases Mutator.realize r q.heap <;> rfl
    | fault f => rfl

theorem park_apply (body : Call α) (p : Process) :
    park body p =
      match attempt body p with
      | .ok (.ok a) q => .ok (some a) q
      | .ok (.error exn) q => .ok none { q with heap := { q.heap with pending := some exn } }
      | .error e q => .error e q := by
  simp only [park, bind, EStateM.bind]
  cases attempt body p with
  | ok x q => cases x <;> rfl
  | error => rfl

theorem narrow_apply (s : Shape) (w : Word) (p : Process) :
    narrow s w p =
      match p.heap.narrow s w with
      | .ok (.ok x) => .ok x p
      | .ok (.error m) => .error (.raise m.toRaise) p
      | .error f => .error (.fault f) p := by
  simp only [narrow, managed, Mutator.read, bind, EStateM.bind]
  cases p.heap.narrow s w with
  | ok x => cases x <;> rfl
  | error => rfl

/-- The process after `c`, also where it stopped with a raise or a fault. -/
def final (c : Call α) (p : Process) : Process :=
  match c p with
  | .ok _ q | .error _ q => q

theorem final_eq_of_ok {c : Call α} {x : α} (hc : c p = .ok x q) : c.final p = q := by
  rw [final, hc]

def Raises (c : Call α) (p : Process) : Prop := ∃ r q, c p = .error (.raise r) q

/-- The operations by which a guard parks the raise of `body`, if there is one. -/
def parking (body : Call α) (p : Process) : List Operation :=
  match body p with
  | .error (.raise r) q =>
    match Mutator.realize r q.heap with
    | .ok exn _ => [.realize r, .park exn]
    | .error _ _ => []
  | _ => []

/-- A body that begins with a check gives a result only for a word that passes. -/
theorem narrow_bind_eq_ok {s : Shape} {w : Word} {k : Handle s → Call β} {x : β} :
    (narrow s w >>= k) p = .ok x q ↔
      p.heap.isCurrent w = true ∧ p.heap.Fits s w ∧ k ⟨w⟩ p = .ok x q := by
  rw [Mutator.bind_apply, narrow_apply]
  constructor
  · intro hx
    split at hx
    next y p' hy =>
      split at hy
      next z hn =>
        obtain ⟨rfl, rfl⟩ := EStateM.Result.ok.inj hy
        obtain ⟨rfl, hw, hfit⟩ := Heap.narrow_eq_ok_iff.1 hn
        exact ⟨hw, hfit, hx⟩
      all_goals cases hy
    next => cases hx
  · rintro ⟨hw, hfit, hx⟩
    simpa only [Heap.narrow_eq_ok_iff.2 ⟨rfl, hw, hfit⟩] using hx

theorem managed_eq_ok {m : Mutator α} {x : α} (hm : managed m p = .ok x q) :
    m p.heap = .ok x q.heap := by
  unfold managed at hm
  cases hr : m p.heap with
  | ok y h =>
    rw [hr] at hm
    obtain ⟨rfl, rfl⟩ := EStateM.Result.ok.inj hm
    rfl
  | error e h =>
    rw [hr] at hm
    cases hm

theorem native_eq_ok {n : Heap → Native Unit α} {x : α} (hn : native n p = .ok x q) :
    ∃ t, n p.heap (p.memory, ()) = .ok x t := by
  unfold native at hn
  cases hr : n p.heap (p.memory, ()) with
  | ok y t =>
    rw [hr] at hn
    obtain ⟨rfl, -⟩ := EStateM.Result.ok.inj hn
    exact ⟨t, rfl⟩
  | error e t =>
    rw [hr] at hn
    cases hn

theorem native_of_ok {n : Heap → Native Unit α} {x : α}
    (hn : n p.heap (p.memory, ()) = .ok x (p.memory, ())) : native n p = .ok x p := by
  unfold native
  rw [hn]

/-- How a guarded body comes back: with its result, or with the exception of its raise parked. -/
theorem park_eq_ok {x : Option α} (hp : park body p = .ok x q) :
    (∃ a, x = some a ∧ body p = .ok a q) ∨
      ∃ r q₁ exn h, x = none ∧ body p = .error (.raise r) q₁ ∧
        Mutator.realize r q₁.heap = .ok exn h ∧
        q = { q₁ with heap := { h with pending := some exn } } := by
  rw [park_apply, attempt_apply] at hp
  cases hb : body p with
  | ok a q₁ =>
    simp only [hb, EStateM.Result.ok.injEq] at hp
    obtain ⟨rfl, rfl⟩ := hp
    exact .inl ⟨a, rfl, rfl⟩
  | error e q₁ =>
    cases e with
    | fault f => simp [hb] at hp
    | raise r =>
      cases hr : Mutator.realize r q₁.heap with
      | error e h => simp [hb, hr] at hp
      | ok exn h =>
        simp only [hb, hr, EStateM.Result.ok.injEq] at hp
        obtain ⟨rfl, rfl⟩ := hp
        exact .inr ⟨r, q₁, exn, h, rfl, rfl, hr, rfl⟩

theorem exhausts_of_park {x : Option α} (hp : park body p = .ok x q) :
    Mutator.exhausts body p = false := by
  obtain ⟨a, -, hb⟩ | ⟨r, q₁, exn, h, -, hb, -⟩ := park_eq_ok hp
  · rw [Mutator.exhausts, hb]
  · rw [Mutator.exhausts, hb]

/-- What a guard does to the heap, after its body. -/
theorem heap_of_park {x : Option α} (hp : park body p = .ok x q) :
    q.heap = (body.final p).heap.perform (parking body p) := by
  obtain ⟨a, -, hb⟩ | ⟨r, q₁, exn, h, -, hb, hr, rfl⟩ := park_eq_ok hp
  · simp only [final, parking, hb]
    rfl
  · have hrealize : (Operation.realize r).after q₁.heap = h :=
      Operation.after_of_ok (Operation.run_of_word rfl hr)
    simp only [final, parking, hb, hr]
    change { h with pending := some exn } =
      (Operation.park exn).after ((Operation.realize r).after q₁.heap)
    rw [hrealize]
    rfl

theorem heap_final_managed (m : Mutator α) (p : Process) :
    ((managed m).final p).heap = m.final p.heap := by
  unfold final managed Mutator.final
  cases m p.heap <;> rfl

theorem exhausts_managed (m : Mutator α) (p : Process) :
    Mutator.exhausts (managed m) p = Mutator.exhausts m p.heap := by
  unfold Mutator.exhausts managed
  cases m p.heap with
  | ok => rfl
  | error e => cases e <;> rfl

/-- The computation leaves the heap as it was, however it ends. -/
def LeavesHeap (c : Call α) : Prop := ∀ p : Process, (c.final p).heap = p.heap

namespace LeavesHeap

theorem raise (r : Raise) : (Call.raise r : Call α).LeavesHeap := fun _ => rfl

theorem native (n : Heap → Native Unit α) : (Call.native n).LeavesHeap := by
  intro p
  unfold final Call.native
  cases n p.heap (p.memory, ()) <;> rfl

theorem managed {m : Mutator α} (hm : ∀ h : Heap, m.final h = h) :
    (Call.managed m).LeavesHeap := fun p => (heap_final_managed m p).trans (hm p.heap)

theorem bind {c : Call α} {k : α → Call β} (hc : c.LeavesHeap) (hk : ∀ a, (k a).LeavesHeap) :
    (c >>= k).LeavesHeap := by
  intro p
  have hp := hc p
  unfold final at hp ⊢
  rw [Mutator.bind_apply]
  cases hr : c p with
  | ok a q =>
    rw [hr] at hp
    exact (hk a q).trans hp
  | error e q => rwa [hr] at hp

theorem narrow (s : Shape) (w : Word) : (Call.narrow s w).LeavesHeap := by
  intro p
  unfold final
  rw [narrow_apply]
  cases p.heap.narrow s w with
  | ok x => cases x <;> rfl
  | error f => rfl

end LeavesHeap

end Call
end MovingHeap

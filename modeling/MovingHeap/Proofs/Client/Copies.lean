import MovingHeap.Client.Run
import MovingHeap.Proofs.Native.StringOption
import MovingHeap.Proofs.Process.Retention

/-!
Copies that a program keeps. Main statements: a copy stays what it is under its name, whatever the
program goes on to do, until the name is used for another copy or freed; the copy of a string option
is such a copy, and its bytes stay in native memory.
-/
namespace MovingHeap.Client

namespace Table

variable {α : Type} {name other : String}

theorem get?_erase_of_ne (t : Table α) (hne : name ≠ other) :
    (t.erase other).get? name = t.get? name := by
  obtain ⟨entries⟩ := t
  simp only [erase, get?]
  induction entries with
  | nil => rfl
  | cons e entries ih =>
    obtain ⟨key, a⟩ := e
    by_cases hkey : key = other
    · subst hkey
      simp [List.lookup_cons, beq_false_of_ne hne, ih]
    · simp [List.lookup_cons, hkey, ih]

theorem get?_insert_of_ne (t : Table α) (hne : name ≠ other) (a : α) :
    (t.insert other a).get? name = t.get? name := by
  have hfirst : (t.insert other a).get? name = (t.erase other).get? name := by
    simp [insert, get?, List.lookup_cons, beq_false_of_ne hne]
  rw [hfirst, get?_erase_of_ne t hne]

end Table

/-- Whether the step keeps or frees something under `name`. -/
def NativeOp.replaces (name : String) : NativeOp → Bool
  | string _ keep | stringOption _ keep | copy _ keep => keep == some name
  | free other | retake other => other == name
  | _ => false

def Op.replaces (name : String) : Op → Bool
  | native op => op.replaces name
  | _ => false

mutual

/-- Whether something is kept or freed under `name` in the course of a step. -/
def Step.replaces (name : String) : Step → Bool
  | .op o _ => o.replaces name
  | .frame body | .attempt body _ | .park body => Step.anyReplaces name body

def Step.anyReplaces (name : String) : List Step → Bool
  | [] => false
  | step :: rest => step.replaces name || Step.anyReplaces name rest

end

namespace SessionM

variable {α β : Type}

/-- The session that a computation leaves behind, however it ends. -/
def final (m : SessionM α) (s : Session) : Session :=
  match m s with
  | .ok _ s' => s'
  | .error _ s' => s'

/-- The copy under `name` is left as it is. -/
def Spares (name : String) (m : SessionM α) : Prop :=
  ∀ s, (m.final s).buffers.get? name = s.buffers.get? name

end SessionM

namespace SessionM.Spares

variable {α β : Type} {name : String}

theorem pure (a : α) : Spares name (Pure.pure a : SessionM α) := fun _ => rfl

theorem throw (e : Interruption) : Spares name (MonadExcept.throw e : SessionM α) := fun _ => rfl

theorem bind {m : SessionM α} {k : α → SessionM β} (hm : Spares name m)
    (hk : ∀ a, Spares name (k a)) : Spares name (m >>= k) := by
  intro s
  have h₁ := hm s
  simp only [final, Bind.bind, EStateM.bind] at h₁ ⊢
  cases hr : m s with
  | ok a s' =>
    rw [hr] at h₁
    exact (hk a s').trans h₁
  | error e s' => rwa [hr] at h₁

theorem map {m : SessionM α} (hm : Spares name m) (f : α → β) : Spares name (f <$> m) := by
  intro s
  have h₁ := hm s
  simp only [final, Functor.map, EStateM.map] at h₁ ⊢
  cases hr : m s with
  | ok | error => rwa [hr] at h₁

theorem get_bind {k : Session → SessionM α} (hk : ∀ s, Spares name (k s)) :
    Spares name (get >>= k) := fun s => hk s s

theorem get_bind_self {k : Session → SessionM α}
    (hk : ∀ s, ((k s).final s).buffers.get? name = s.buffers.get? name) :
    Spares name (get >>= k) := hk

theorem modify {f : Session → Session}
    (hf : ∀ s, (f s).buffers.get? name = s.buffers.get? name) :
    Spares name (modify f : SessionM Unit) := hf

theorem tryCatch {m : SessionM α} {handle : Interruption → SessionM α} (hm : Spares name m)
    (hh : ∀ e, Spares name (handle e)) : Spares name (MonadExcept.tryCatch m handle) := by
  intro s
  have h₁ := hm s
  change (final (EStateM.tryCatch m handle) s).buffers.get? name = _
  simp only [final, EStateM.tryCatch] at h₁ ⊢
  cases hr : m s with
  | ok a s' => rwa [hr] at h₁
  | error e s' =>
    rw [hr] at h₁
    exact (hh e s').trans h₁

/-- Work on the heap and in native memory does not touch copies that have been made. -/
theorem call (c : Call α) : Spares name (SessionM.call c) := by
  intro s
  simp only [final, SessionM.call]
  cases c s.process <;> rfl

theorem mutate (m : Mutator α) : Spares name (SessionM.mutate m) := call _

theorem read (f : Heap → Except Fault α) : Spares name (SessionM.read f) := mutate _

theorem heap : Spares name SessionM.heap := fun _ => rfl

theorem undefined (operand : String) : Spares name (SessionM.undefined operand : SessionM α) :=
  throw _

theorem mapM {f : α → SessionM β} (hf : ∀ a, Spares name (f a)) (as : List α) :
    Spares name (as.mapM f) := by
  induction as with
  | nil => exact pure []
  | cons a as ih =>
    rw [List.mapM_cons]
    exact (hf a).bind fun b => ih.bind fun bs => pure (b :: bs)

theorem forM {f : α → SessionM Unit} (hf : ∀ a, Spares name (f a)) (as : List α) :
    Spares name (as.forM f) := by
  induction as with
  | nil => exact pure ()
  | cons a as ih => exact (hf a).bind fun _ => ih

theorem collectTimes (times : Nat) : Spares name (Client.collectTimes times) := by
  induction times with
  | zero => exact pure ()
  | succ times ih => exact (mutate _).bind fun _ => ih

theorem rootOf (handle : String) : Spares name (SessionM.rootOf handle) := by
  refine get_bind fun s => ?_
  split
  · exact pure _
  · exact undefined _

theorem eval (v : Operand) : Spares name (SessionM.eval v) := by
  cases v with
  | word w => exact pure w
  | ref r => exact read _
  | var x =>
    refine get_bind fun s => ?_
    split
    · exact pure _
    · exact undefined _
  | rooted handle => exact (rootOf handle).bind fun _ => read _
  | builtin b => exact heap.bind fun _ => pure _
  | registered x =>
    refine heap.bind fun h => ?_
    split
    · exact pure _
    · exact undefined _

theorem evalAll (vs : List Operand) : Spares name (SessionM.evalAll vs) := mapM eval vs

theorem evalRaise (form : RaiseForm) : Spares name (SessionM.evalRaise form) := by
  cases form with
  | record v | constant v => exact (eval v).bind fun _ => pure _
  | failure | invalidArgument => exact pure _

theorem narrow (shape : Shape) (w : Word) : Spares name (SessionM.narrow shape w) := by
  refine (read _).bind fun answer => ?_
  cases answer with
  | ok x => exact pure x
  | error m => exact throw _

theorem evalTyped (shape : Shape) (v : Typed) : Spares name (SessionM.evalTyped shape v) := by
  refine (eval _).bind fun w => ?_
  split
  · exact pure _
  · exact narrow shape w

theorem save (dest : Option String) (w : Word) : Spares name (SessionM.save dest w) := by
  cases dest with
  | none => exact pure w
  | some x => exact (modify fun _ => rfl).bind fun _ => pure w

theorem keepArray (keep : Option String) (a : BufferArray) :
    Spares name (SessionM.keepArray keep a) := by
  cases keep with
  | none => exact pure a
  | some x => exact (modify fun _ => rfl).bind fun _ => pure a

theorem keepRoot (handle : String) (r : Root) : Spares name (SessionM.keepRoot handle r) :=
  modify fun _ => rfl

theorem keepBuffer {keep : Option String} (hkeep : (keep == some name) = false) (b : Buffer) :
    Spares name (SessionM.keepBuffer keep b) := by
  cases keep with
  | none => exact pure b
  | some other =>
    have hne : name ≠ other := by
      rintro rfl
      simp at hkeep
    exact (modify fun s => s.buffers.get?_insert_of_ne hne b).bind fun _ => pure b

end SessionM.Spares

open SessionM (Spares)

section Ops

variable {name : String} (dest : Option String)

theorem HeapOp.spares (op : HeapOp) : Spares name (op.run dest) := by
  cases op with
  | bind v => exact (Spares.eval v).bind fun w => (Spares.save dest w).bind fun _ => .pure _
  | bits v => exact (Spares.eval v).bind fun _ => .pure _
  | lookup v | outline v | isCurrent v =>
    exact (Spares.eval v).bind fun _ => Spares.heap.bind fun _ => .pure _
  | equal a b => exact (Spares.eval a).bind fun _ => (Spares.eval b).bind fun _ => .pure _
  | allocFields | allocString | allocStringArray | allocIdentity =>
    exact (Spares.mutate _).bind fun w => (Spares.save dest w).bind fun _ => .pure _
  | allocTuple vs =>
    exact (Spares.evalAll vs).bind fun _ =>
      (Spares.mutate _).bind fun w => (Spares.save dest w).bind fun _ => .pure _
  | allocSome v =>
    exact (Spares.eval v).bind fun _ =>
      (Spares.mutate _).bind fun w => (Spares.save dest w).bind fun _ => .pure _
  | field v =>
    exact (Spares.eval v).bind fun _ =>
      (Spares.read _).bind fun w => (Spares.save dest w).bind fun _ => .pure _
  | setField v x =>
    exact (Spares.eval v).bind fun _ => (Spares.eval x).bind fun _ =>
      (Spares.mutate _).bind fun _ => .pure _
  | block v | tag v | size v | bytes v =>
    exact (Spares.eval v).bind fun _ => (Spares.read _).bind fun _ => .pure _
  | graph vs => exact (Spares.evalAll vs).bind fun _ => Spares.heap.bind fun _ => .pure _
  | collect times => exact (Spares.collectTimes times).bind fun _ => .pure _
  | config => exact Spares.heap.bind fun _ => .pure _

theorem RootOp.spares (op : RootOp) : Spares name (op.run dest) := by
  cases op with
  | root v handle =>
    exact (Spares.eval v).bind fun _ => (Spares.mutate _).bind fun r =>
      (Spares.keepRoot handle r).bind fun _ => .pure _
  | rootAll vs =>
    refine (Spares.evalAll vs).bind fun _ => (Spares.mapM (fun _ => .mutate _) _).bind fun _ => ?_
    exact (Spares.forM (fun e : String × Root => .keepRoot e.1 e.2) _).bind fun _ => .pure _
  | set v handle =>
    exact (Spares.eval v).bind fun _ => (Spares.rootOf handle).bind fun _ =>
      (Spares.mutate _).bind fun _ => .pure _
  | view handle =>
    exact (Spares.rootOf handle).bind fun _ => (Spares.read _).bind fun _ => .pure _
  | frameLength => exact Spares.get_bind fun _ => .pure _
  | register v =>
    exact (Spares.eval v).bind fun _ => Spares.heap.bind fun _ =>
      (Spares.mutate _).bind fun _ => .pure _
  | unregister => exact Spares.heap.bind fun _ => (Spares.mutate _).bind fun _ => .pure _
  | named =>
    refine Spares.heap.bind fun _ => ?_
    split
    next w _ => exact (Spares.save dest w).bind fun _ => .pure _
    next => exact .pure _
  | namedOrRaise => exact (Spares.mutate _).bind fun w => (Spares.save dest w).bind fun _ => .pure _

theorem savingRecord_spares {α : Type} {m : SessionM α} (hm : Spares name m) :
    Spares name (savingRecord dest m) := by
  refine hm.tryCatch fun e => ?_
  split
  next exn => exact (Spares.save dest exn).bind fun _ => .throw _
  next => exact .throw e

theorem ExceptionOp.spares (op : ExceptionOp) : Spares name (op.run dest) := by
  cases op with
  | raiseTwo identity first second =>
    exact (Spares.eval identity).bind fun _ => (Spares.eval first).bind fun _ =>
      (Spares.eval second).bind fun _ => .get_bind fun _ => savingRecord_spares dest (.mutate _)
  | raiseOutOfMemory => exact .mutate _
  | raise form => exact (Spares.evalRaise form).bind fun _ => .mutate _
  | realize form =>
    exact (Spares.evalRaise form).bind fun _ => (Spares.mutate _).bind fun w =>
      (Spares.save dest w).bind fun _ => .pure _
  | name v => exact (Spares.eval v).bind fun _ => (Spares.read _).bind fun _ => .pure _
  | args v chosen =>
    refine (Spares.eval v).bind fun _ => (Spares.read _).bind fun args => ?_
    split
    next arg _ => exact (Spares.save dest arg).bind fun _ => .pure _
    next => exact .pure _
  | setPending v => exact (Spares.eval v).bind fun _ => (Spares.mutate _).bind fun _ => .pure _
  | takePending =>
    refine (Spares.mutate _).bind fun taken => ?_
    cases taken with
    | some w => exact (Spares.save dest w).bind fun _ => .pure _
    | none => exact .pure _

theorem HandleOp.spares (op : HandleOp) : Spares name (op.run dest) := by
  cases op with
  | narrow v shape =>
    exact (Spares.eval v).bind fun w => (Spares.narrow shape w).bind fun x =>
      (Spares.save dest x.word).bind fun _ => .pure _
  | int v => exact (Spares.evalTyped _ v).bind fun _ => .pure _
  | string v => exact (Spares.evalTyped _ v).bind fun _ => (Spares.read _).bind fun _ => .pure _
  | option v payload =>
    refine (Spares.evalTyped _ v).bind fun _ => (Spares.read _).bind fun y => ?_
    cases y with
    | some y => exact (Spares.save dest y.word).bind fun _ => .pure _
    | none => exact .pure _
  | element v shape =>
    exact (Spares.evalTyped _ v).bind fun _ => (Spares.read _).bind fun y =>
      (Spares.save dest y.word).bind fun _ => .pure _
  | elements v => exact (Spares.evalTyped _ v).bind fun _ => (Spares.read _).bind fun _ => .pure _

theorem EntryOp.spares (op : EntryOp) : Spares name (op.run dest) := by
  cases op with
  | allocate => exact (Spares.call _).bind fun _ => .pure _
  | string v | stringOption v | strings v =>
    exact (Spares.eval v).bind fun _ => (Spares.call _).bind fun _ => .pure _
  | intOption v => exact (Spares.eval v).bind fun _ => (Spares.call _).bind fun _ => .pure _
  | raiseTwo identity first second =>
    exact (Spares.eval identity).bind fun _ => (Spares.eval first).bind fun _ =>
      (Spares.eval second).bind fun _ => .get_bind fun _ =>
        (Spares.call _).bind fun _ => .pure _
  | raiseOutOfMemory => exact (Spares.call _).bind fun _ => .pure _
  | named | takeException =>
    exact (Spares.call _).bind fun w => (Spares.save dest w).bind fun _ => .pure _
  | isPending => exact (Spares.call _).bind fun _ => .pure _

theorem mapCounting_spares {shape : Shape} (x : Handle (.array shape))
    (f : Heap → Handle shape → Native Nat Buffer) (keep : Option String) :
    Spares name (mapCounting x f keep) := by
  refine Spares.get_bind fun s => ?_
  dsimp only
  split
  next a _ _ _ =>
    refine (Spares.modify ?_).bind fun _ => ?_
    · exact fun _ => rfl
    · cases a with
      | none => exact .pure _
      | some a => exact ((Spares.keepArray keep a).map some).bind fun _ => .pure _
  next =>
    refine (Spares.modify ?_).bind fun _ => .pure _
    exact fun _ => rfl

/-- A step of native memory touches the copies that it keeps or frees, and no others. -/
theorem NativeOp.spares {op : NativeOp} (hop : op.replaces name = false) :
    Spares name op.run := by
  cases op with
  | string v keep =>
    exact (Spares.evalTyped _ v).bind fun _ => (Spares.call _).bind fun b =>
      (Spares.keepBuffer hop b).bind fun _ => .pure _
  | stringOption v keep =>
    refine (Spares.evalTyped _ v).bind fun _ => (Spares.call _).bind fun copied => ?_
    cases copied with
    | some b => exact (Spares.keepBuffer hop b).bind fun _ => .pure _
    | none => exact .pure _
  | storeInt v => exact (Spares.evalTyped _ v).bind fun _ => (Spares.read _).bind fun _ => .pure _
  | int v => exact (Spares.evalTyped _ v).bind fun _ => (Spares.read _).bind fun _ => .pure _
  | strings v keep =>
    refine (Spares.evalTyped _ v).bind fun _ => (Spares.call _).bind fun copied => ?_
    cases copied with
    | some a => exact (Spares.keepArray keep a).bind fun _ => .pure _
    | none => exact .pure _
  | map v element rendering failure keep =>
    refine (Spares.eval _).bind fun w => ?_
    have hmapped (failure : Option (Nat × Raise)) : Spares name (do
        let x ← if v.trusted = true then Pure.pure ⟨w⟩ else SessionM.narrow (.array element) w
        mapCounting x (fun h y => rendering.convert h failure y) keep) := by
      split
      · exact (Spares.pure _).bind fun x => mapCounting_spares x _ keep
      · exact (Spares.narrow _ w).bind fun x => mapCounting_spares x _ keep
    cases failure with
    | none => exact hmapped none
    | some failure =>
      exact (((Spares.evalRaise failure.2).bind fun _ => .pure _).map some).bind hmapped
  | allocate => exact (Spares.call _).bind fun _ => .pure _
  | copy bytes keep =>
    exact (Spares.call _).bind fun b => (Spares.keepBuffer hop b).bind fun _ => .pure _
  | «recall» | text =>
    refine Spares.get_bind fun s => ?_
    split
    · exact .pure _
    · exact .pure _
    · exact .undefined _
  | item =>
    refine Spares.get_bind fun s => ?_
    split
    · exact .pure _
    · exact .undefined _
  | free other =>
    have hne : name ≠ other := by
      rintro rfl
      simp [replaces] at hop
    refine Spares.get_bind_self fun s => ?_
    split
    · rfl
    · exact s.buffers.get?_erase_of_ne hne
    · rfl
  | retake other =>
    refine Spares.get_bind fun s => ?_
    split
    next b _ =>
      have hkeep : (some other == some name) = false := hop
      exact (Spares.keepBuffer hkeep b.retaken).bind fun _ => .pure _
    next => exact .pure _

theorem Op.spares {op : Op} (hop : op.replaces name = false) : Spares name (op.run dest) := by
  cases op with
  | heap op => exact op.spares dest
  | root op => exact op.spares dest
  | exception op => exact op.spares dest
  | handle op => exact op.spares dest
  | native op => exact op.spares hop
  | entry op => exact op.spares dest

end Ops

section Runs

variable {name : String}

theorem answering_spares {m : SessionM Answer} (hm : Spares name m) (s : Session) :
    (answering m s).2.buffers.get? name = s.buffers.get? name := by
  have h₁ := hm s
  simp only [SessionM.final, answering] at h₁ ⊢
  cases hr : m s with
  | ok | error => rwa [hr] at h₁

theorem Step.runAll_cons_snd (guarded : Bool) (step : Step) (rest : List Step) (s : Session) :
    (Step.runAll guarded (step :: rest) s).2 =
      if (guarded && (step.run guarded s).1.2.isSome) = true then (step.run guarded s).2
      else (Step.runAll guarded rest (step.run guarded s).2).2 := by
  rw [Step.runAll]
  rcases hr : step.run guarded s with ⟨⟨reply, raised⟩, s'⟩
  simp only [bind, StateT.bind, hr]
  split <;> rfl

mutual

theorem Step.spares (step : Step) (hstep : step.replaces name = false) (guarded : Bool)
    (s : Session) : (step.run guarded s).2.buffers.get? name = s.buffers.get? name := by
  match step with
  | .op o dest =>
    rw [Step.run]
    exact answering_spares ((o.spares dest hstep).map _) s
  | .frame body =>
    rw [Step.run]
    exact Step.spares_runAll body hstep guarded _
  | .attempt body dest =>
    rw [Step.run]
    refine (answering_spares ?_ _).trans (Step.spares_runAll body hstep true s)
    cases (Step.runAll true body s).1.2 with
    | none => exact .pure _
    | some r =>
      exact ((Spares.mutate _).map some).bind fun exn => by
        cases exn with
        | none => exact .pure _
        | some exn => exact (Spares.save dest exn).bind fun _ => .pure _
  | .park body =>
    rw [Step.run]
    refine (answering_spares ?_ _).trans (Step.spares_runAll body hstep true s)
    cases (Step.runAll true body s).1.2 with
    | none => exact .pure _
    | some r => exact (Spares.mutate _).bind fun _ => .pure _

theorem Step.spares_runAll (steps : List Step) (hsteps : Step.anyReplaces name steps = false)
    (guarded : Bool) (s : Session) :
    (Step.runAll guarded steps s).2.buffers.get? name = s.buffers.get? name := by
  match steps with
  | [] =>
    rw [Step.runAll]
    rfl
  | step :: rest =>
    obtain ⟨hstep, hrest⟩ := Bool.or_eq_false_iff.1 hsteps
    have hfirst := Step.spares step hstep guarded s
    rw [Step.runAll_cons_snd]
    split
    · exact hfirst
    · exact (Step.spares_runAll rest hrest guarded _).trans hfirst

end

end Runs

section StringOption

open Heap (Reachable Recovers Presents)

variable {s : Session} {v : Word} {name : String} {b : Buffer} {m : NativeMemory}

theorem bind_of_ok {α β : Type} {m : SessionM α} {k : α → SessionM β} {a : α} {s' : Session}
    (hm : m s = .ok a s') : (m >>= k) s = k a s' := by
  simp only [bind, EStateM.bind, hm]

theorem evalTyped_of_narrow {shape : Shape} (hn : s.process.heap.narrow shape v = .ok (.ok ⟨v⟩)) :
    SessionM.evalTyped shape ⟨.word v, false⟩ s = .ok ⟨v⟩ s := by
  have hread : SessionM.read (·.narrow shape v) s = .ok (.ok ⟨v⟩) s := by
    simp only [SessionM.read, SessionM.mutate, SessionM.call, Call.managed, Mutator.read, hn]
  have hnarrow : SessionM.narrow shape v s = .ok ⟨v⟩ s := bind_of_ok hread
  exact hnarrow

/-- The copy of a present option is kept under its name. -/
theorem run_stringOption (hn : s.process.heap.narrow (.option .string) v = .ok (.ok ⟨v⟩))
    (hcopy : Native.ofStringOption s.process.heap ⟨v⟩ (s.process.memory, ()) =
      .ok (some b) (m, ())) :
    (NativeOp.stringOption ⟨.word v, false⟩ (some name)).run s =
      .ok (.buffer b) { s with
        process := { s.process with memory := m }
        buffers := s.buffers.insert name b } := by
  have hcall : SessionM.call (.native fun h => Native.ofStringOption h ⟨v⟩) s =
      .ok (some b) { s with process := { s.process with memory := m } } := by
    simp only [SessionM.call, Call.native, hcopy]
  exact (bind_of_ok (evalTyped_of_narrow hn)).trans (bind_of_ok hcall)

/-- Whatever bytes a string is allocated with, and however often it has moved before an option is
made of it, the option is accepted as one of a string, and its copy takes one request and has the
bytes: they are in native memory with their terminator, in a region that was asked for with their
size. There they stay in any run that follows, as long as the other users of native memory leave
what is not theirs alone. A program that keeps the copy finds it as it was after any further steps
that keep and free nothing under its name. There is no copy of the absent option. -/
theorem stringOption_copied {config : Config} {h h₁ h₂ h' : Heap} {bytes : Bytes} {w w' v : Word}
    (hr : Reachable config h) (hs : Mutator.allocString bytes h = .ok w h₁)
    (hw : Recovers h₁ w h₂ w') (hv : Mutator.allocSome w' h₂ = .ok v h') :
    h'.narrow (.option .string) v = .ok (.ok ⟨v⟩) ∧
    (∀ (σ : Type) (t : NativeMemory × σ), t.1.grants t.1.requests (bytes.length + 1) = true →
      ∃ b m, Native.ofStringOption h' ⟨v⟩ t = .ok (some b) (m, t.2) ∧ t.1.Grows 1 m ∧
        m.Holds b ∧ b.Copies bytes) ∧
    (∀ p : Process, p.heap = h' →
      p.memory.grants p.memory.requests (bytes.length + 1) = true →
      ∃ b p', Call.native (fun h => Native.ofStringOption h ⟨v⟩) p = .ok (some b) p' ∧
        p'.heap = h' ∧ p.memory.Grows 1 p'.memory ∧ b.Copies bytes ∧
        ∀ os q, Process.Run NativeMemory.Retains p' os q → q.memory.Holds b) ∧
    (∀ (s : Session) (name : String), s.process.heap = h' →
      s.process.memory.grants s.process.memory.requests (bytes.length + 1) = true →
      ∃ b s', (NativeOp.stringOption ⟨.word v, false⟩ (some name)).run s = .ok (.buffer b) s' ∧
        b.Copies bytes ∧ s'.process.heap = h' ∧
        s'.process.memory.allocations = s.process.memory.allocations + 1 ∧
        ∀ guarded steps, Step.anyReplaces name steps = false →
          (Step.runAll guarded steps s').2.buffers.get? name = some b) ∧
    ∀ (k : Heap) (σ : Type) (t : NativeMemory × σ),
      k.narrow (.option .string) .absent = .ok (.ok ⟨.absent⟩) ∧
        Native.ofStringOption k ⟨.absent⟩ t = .ok none t := by
  have hpresents := Heap.presents_of_alloc hr hs hw hv
  have ⟨x, hoption, hstring⟩ := hpresents
  have hgrows := fun m : NativeMemory => NativeMemory.Grows.copied m bytes
  have hholds := fun m : NativeMemory => NativeMemory.holds_copied m bytes
  refine ⟨hpresents.narrow, fun σ t ht => ?_, fun p hheap ht => ?_, fun s name hheap ht => ?_,
    fun k σ t => ?_⟩
  · exact ⟨_, _, Native.ofStringOption_apply hoption hstring ht, hgrows t.1, hholds t.1,
      Buffer.mk_copies _ bytes⟩
  · subst hheap
    have hcopy := Native.ofStringOption_apply hoption hstring (t := (p.memory, ())) ht
    refine ⟨{ place := p.memory.regions.size, bytes },
      { p with memory := p.memory.copied bytes }, ?_, rfl, hgrows p.memory,
      Buffer.mk_copies _ bytes, fun os q hrun => hrun.holds (hholds p.memory)⟩
    simp only [Call.native, hcopy]
  · subst hheap
    have hcopy := Native.ofStringOption_apply hoption hstring (t := (s.process.memory, ())) ht
    refine ⟨_, _, run_stringOption hpresents.narrow hcopy, Buffer.mk_copies _ bytes, rfl,
      (hgrows s.process.memory).allocations, fun guarded steps hsteps => ?_⟩
    rw [Step.spares_runAll steps hsteps guarded]
    exact s.buffers.get?_insert_self name _
  · have hfits : k.Fits (.option .string) .absent := .inl rfl
    exact ⟨hfits.narrow rfl, Native.ofStringOption_absent k t⟩

/-- A string with a zero byte is put under a root and moves twice before its option is made. The
program goes on to collect, and to make another copy in a frame. -/
theorem stringOption_copied_moved :
    let moves : List Operation := [.root (.ofRef ⟨8, 0⟩), .collect, .collect]
    let steps : List Step :=
      [.op (.heap (.collect 2)) none, .frame [.op (.native (.copy [1] (some "other"))) none]]
    ∃ h₁ h' v, Mutator.allocString [104, 0, 105] (.new {}) = .ok (.ofRef ⟨8, 0⟩) h₁ ∧
      Mutator.allocSome (.ofRef ⟨18, 2⟩) (h₁.perform moves) = .ok v h' ∧
      ∃ b s', (NativeOp.stringOption ⟨.word v, false⟩ (some "copy")).run
          { process := { heap := h' } } = .ok (.buffer b) s' ∧
        b.terminated = [104, 0, 105, 0] ∧ b.visible = [104] ∧ b.retaken ≠ b ∧
        (Step.runAll false steps s').2.buffers.get? "copy" = some b := by
  intro moves steps
  have hrun : Mutator.succeedsWith (Mutator.allocString [104, 0, 105])
      (fun w h₁ => w == .ofRef ⟨8, 0⟩ && h₁.roots == [] &&
        (h₁.perform moves).roots == [.ofRef ⟨18, 2⟩] &&
        Mutator.succeeds (Mutator.allocSome (.ofRef ⟨18, 2⟩)) (h₁.perform moves)) (.new {}) =
          true := by decide +kernel
  obtain ⟨w, h₁, hs, hfound⟩ := Mutator.succeedsWith_iff.1 hrun
  simp only [Bool.and_eq_true, beq_iff_eq] at hfound
  obtain ⟨⟨⟨rfl, hbare⟩, hroots⟩, hsome⟩ := hfound
  obtain ⟨v, h', hv⟩ := Mutator.succeeds_iff.1 hsome
  have hput : (Place.root 0).value? (h₁.perform [.root (.ofRef ⟨8, 0⟩)]) =
      some (.ofRef ⟨8, 0⟩) := by
    change (h₁.roots ++ [Word.ofRef ⟨8, 0⟩])[0]? = _
    rw [hbare]
    rfl
  have hfound : (Place.root 0).value? (h₁.perform moves) = some (.ofRef ⟨18, 2⟩) := by
    change (h₁.perform moves).roots[0]? = _
    rw [hroots]
    rfl
  have hrecovers : Recovers h₁ (.ofRef ⟨8, 0⟩) (h₁.perform moves) (.ofRef ⟨18, 2⟩) :=
    .inr ⟨.root 0, [.root (.ofRef ⟨8, 0⟩)], [.collect, .collect], by decide, hput,
      Heap.spared_of_allocates (by decide) _, rfl, hfound⟩
  have hserves : ({} : NativeMemory).grants 0 4 = true := NativeMemory.grants_new 0 (by decide)
  obtain ⟨-, -, -, hkept, -⟩ := stringOption_copied .new hs hrecovers hv
  obtain ⟨b, s', hcopied, hb, -, -, hlater⟩ :=
    hkept { process := { heap := h' } } "copy" rfl hserves
  refine ⟨h₁, h', v, hs, hv, b, s', hcopied, hb.terminated, hb.visible.2, ?_,
    hlater false steps (by decide)⟩
  rw [Ne, hb.retaken_eq_iff]
  decide

end StringOption
end MovingHeap.Client

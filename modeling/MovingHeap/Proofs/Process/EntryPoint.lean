import MovingHeap.Proofs.Process.Conversion

/-!
The entry points that work behind a guard, taken together: what a call does to the heap, and which
answers stand for a raise.
-/
namespace MovingHeap
namespace Native

variable {σ : Type} {h : Heap} {w : Word} {t t' : NativeMemory × σ}

theorem ofStringOption_eq_none_iff {x : Option Buffer} (hw : h.Fits (.option .string) w)
    (hx : ofStringOption h ⟨w⟩ t = .ok x t') : x = none ↔ w = .absent := by
  unfold ofStringOption at hx
  by_cases ha : w = .absent
  · subst ha
    rw [read_bind Heap.payload_absent] at hx
    exact iff_of_true (EStateM.Result.ok.inj hx).1.symm rfl
  · obtain ⟨y, hb, -⟩ := hw.resolve_left ha
    rw [read_bind (Heap.payload_of_block hb ha)] at hx
    obtain ⟨b, -, rfl⟩ := Mutator.return_eq_ok hx
    exact iff_of_false (Option.some_ne_none b) ha

theorem ofStrings_eq_none_iff {x : Option BufferArray} (hw : h.Fits (.array .string) w)
    (hx : ofStrings h ⟨w⟩ t = .ok x t') : x = none ↔ h.block w = .ok (some (.tuple [])) := by
  obtain ⟨fields, hb, -⟩ := hw
  unfold ofStrings mapArray at hx
  rw [read_bind (Heap.length_of_block hb)] at hx
  cases fields with
  | nil => exact iff_of_true (EStateM.Result.ok.inj hx).1.symm hb
  | cons y ys =>
    have hne : (y :: ys).length ≠ 0 := Nat.succ_ne_zero _
    rw [if_neg hne, Mutator.bind_apply] at hx
    split at hx
    next place t₁ _ =>
      rw [Mutator.bind_apply] at hx
      split at hx
      next items t₂ _ =>
        obtain ⟨-, -, rfl⟩ := Mutator.return_eq_ok hx
        exact iff_of_false (Option.some_ne_none _) (by simp [hb])
      next => cases hx
    next => cases hx

end Native

namespace Handle

variable {h : Heap} {w : Word} {n n' : Int} {written : Bool}

theorem storeInt_eq_false_iff (hw : h.Fits (.option .int) w)
    (hs : storeInt h ⟨w⟩ n = .ok (written, n')) : written = false ↔ w = .absent := by
  by_cases ha : w = .absent
  · subst ha
    simp only [storeInt, int?, Heap.payload_absent] at hs
    obtain ⟨rfl, -⟩ := Prod.mk.inj (Except.ok.inj hs)
    exact iff_of_true rfl rfl
  · obtain ⟨y, hb, -⟩ := hw.resolve_left ha
    simp only [storeInt, int?, Heap.payload_of_block hb ha] at hs
    obtain ⟨rfl, -⟩ := Prod.mk.inj (Except.ok.inj hs)
    exact iff_of_false (Ne.symm Bool.false_ne_true) ha

/-- Where nothing is written, the place holds what it held. -/
theorem eq_of_storeInt {x : Handle (.option .int)} (hs : x.storeInt h n = .ok (false, n')) :
    n' = n := by
  unfold storeInt at hs
  cases hp : x.int? h with
  | error f =>
    rw [hp] at hs
    cases hs
  | ok payload =>
    rw [hp] at hs
    cases payload with
    | none => exact (Prod.mk.inj (Except.ok.inj hs)).2.symm
    | some m => cases (Prod.mk.inj (Except.ok.inj hs)).1

end Handle

/-- The entry points that work behind a guard, with their operands. -/
inductive EntryPoint
  | allocate (size : Nat)
  | string (w : Word)
  | stringOption (w : Word)
  | intOption (w : Word) (out : Option Int)
  | strings (w : Word)
  | raiseTwo (traced : Bool) (identity first second : Word)
  | raiseOutOfMemory
  | named (name : Option Bytes)

namespace EntryPoint

/-- What the caller gets. -/
def Answer : EntryPoint → Type
  | allocate _ => Bool
  | string _ | stringOption _ => Option Buffer
  | intOption _ _ => Bool × Option Int
  | strings _ => Option BufferArray × Nat
  | raiseTwo .. | raiseOutOfMemory => Unit
  | named _ => Word

def call : (e : EntryPoint) → Call e.Answer
  | allocate size => Entry.allocate size
  | string w => Entry.string w
  | stringOption w => Entry.stringOption w
  | intOption w out => Entry.intOption w out
  | strings w => Entry.strings w
  | raiseTwo traced identity first second => Entry.raiseTwo traced identity first second
  | raiseOutOfMemory => Entry.raiseOutOfMemory
  | named name => Entry.named name

/-- What the body behind the guard results in. -/
def Result : EntryPoint → Type
  | allocate _ => Nat
  | raiseTwo .. | raiseOutOfMemory => Unit
  | string _ => Buffer
  | stringOption _ => Option Buffer
  | intOption _ _ => Bool × Int
  | strings _ => Option BufferArray
  | named _ => Word

/-- The body behind the guard. -/
def body : (e : EntryPoint) → Call e.Result
  | allocate size => Call.native fun h => Native.allocate h size
  | string w => Call.narrow .string w >>= fun x => Call.native fun h => Native.ofString h x
  | stringOption w =>
    Call.narrow (.option .string) w >>= fun x => Call.native fun h => Native.ofStringOption h x
  | intOption w out => Call.narrow (.option .int) w >>= Entry.storing out
  | strings w =>
    Call.narrow (.array .string) w >>= fun x => Call.native fun h => Native.ofStrings h x
  | raiseTwo traced identity first second =>
    Call.managed (Mutator.raiseTwo traced identity first second)
  | raiseOutOfMemory => Call.managed Mutator.raiseOutOfMemory
  | named none => Call.raise (.invalidArgument "null name")
  | named (some bytes) => Call.managed (Mutator.named (cString bytes))

/-- The answer for a result, or for a raise. -/
def answer : (e : EntryPoint) → Option e.Result → e.Answer
  | allocate _, x => x.isSome
  | string _, x => x
  | stringOption _, x => x.join
  | intOption _ out, x => Entry.written out x
  | strings _, x => (x.join, x.join.elim 0 BufferArray.length)
  | raiseTwo .., _ | raiseOutOfMemory, _ => ()
  | named _, x => x.getD .unit

theorem call_eq (e : EntryPoint) : e.call = do return e.answer (← Call.park e.body) := by
  cases e with
  | string w => exact (bind_pure _).symm
  | intOption w out => exact Entry.intOption_eq w out
  | named name => cases name <;> rfl
  | _ => rfl

/-- The operations on the heap before the guard steps in. -/
def work : EntryPoint → List Operation
  | raiseTwo traced identity first second => [.raiseTwo traced identity first second]
  | _ => []

/-- The operations that a call comes down to. -/
def operations (e : EntryPoint) (p : Process) : List Operation :=
  e.work ++ Call.parking e.body p

theorem body_named_apply (bytes : Bytes) (p : Process) :
    (named (some bytes)).body p =
      match p.heap.named (cString bytes) with
      | .ok w => .ok w p
      | .error r => .error (.raise r) p := by
  change Call.managed (Mutator.named (cString bytes)) p = _
  unfold Call.managed
  rw [Mutator.named_apply]
  cases p.heap.named (cString bytes) <;> rfl

theorem body_raiseTwo_ne_ok {traced : Bool} {identity first second : Word} {p q : Process}
    {x : Unit} : (raiseTwo traced identity first second).body p ≠ .ok x q := by
  intro hb
  obtain ⟨e, h', hends⟩ := Mutator.raiseTwo_ends traced identity first second p.heap
  cases (Call.managed_eq_ok hb).symm.trans (hends Unit)

theorem heap_final_body (e : EntryPoint) (p : Process) (hx : Mutator.exhausts e.body p = false) :
    (e.body.final p).heap = p.heap.perform e.work := by
  cases e with
  | allocate size => exact (Call.LeavesHeap.native fun h => Native.allocate h size) p
  | string w => exact (Call.LeavesHeap.narrow _ w).bind (fun _ => .native _) p
  | stringOption w => exact (Call.LeavesHeap.narrow _ w).bind (fun _ => .native _) p
  | intOption w out =>
    apply (Call.LeavesHeap.narrow _ w).bind fun x => ?_
    cases out with
    | none => exact .raise _
    | some n =>
      apply Call.LeavesHeap.managed
      intro h
      unfold Mutator.final Mutator.read
      cases hr : x.storeInt h n <;> simp only [hr]
  | strings w => exact (Call.LeavesHeap.narrow _ w).bind (fun _ => .native _) p
  | raiseTwo traced identity first second =>
    obtain ⟨e, h', hends⟩ := Mutator.raiseTwo_ends traced identity first second p.heap
    have hwork : Mutator.exhausts (Operation.raiseTwo traced identity first second).run p.heap =
        Mutator.exhausts (Mutator.raiseTwo traced identity first second : Mutator Unit) p.heap := by
      simp only [Mutator.exhausts, Operation.run, hends]
      cases e <;> rfl
    have hx : Mutator.exhausts
        (Mutator.raiseTwo traced identity first second : Mutator Unit) p.heap = false :=
      (Call.exhausts_managed _ p).symm.trans hx
    calc
      ((Call.managed (Mutator.raiseTwo traced identity first second : Mutator Unit)).final p).heap
      _ = h' := (Call.heap_final_managed _ p).trans (Mutator.final_eq_of_error (hends Unit))
      _ = (Operation.raiseTwo traced identity first second).after p.heap := by
        rw [Operation.after, hwork, hx]
        exact (Mutator.final_eq_of_error (hends _)).symm
  | raiseOutOfMemory => rfl
  | named name =>
    cases name with
    | none => rfl
    | some bytes =>
      unfold Call.final
      rw [body_named_apply]
      cases p.heap.named (cString bytes) <;> rfl

variable {e : EntryPoint} {p q : Process} {a : e.Answer} {x : e.Result}

theorem call_eq_ok (hc : e.call p = .ok a q) :
    ∃ x, Call.park e.body p = .ok x q ∧ a = e.answer x := by
  rw [call_eq] at hc
  exact Mutator.return_eq_ok hc

theorem heap_of_call (hc : e.call p = .ok a q) : q.heap = p.heap.perform (e.operations p) := by
  obtain ⟨x, hp, -⟩ := call_eq_ok hc
  rw [operations, Heap.perform_append, ← heap_final_body e p (Call.exhausts_of_park hp)]
  exact Call.heap_of_park hp

/-- What a raise leaves pending is what the call has parked. -/
theorem operations_of_raises (hc : e.call p = .ok a q) (hr : e.body.Raises p) :
    ∃ r exn, e.operations p = e.work ++ [.realize r, .park exn] ∧ q.heap.pending = some exn := by
  obtain ⟨y, hp, -⟩ := call_eq_ok hc
  obtain ⟨r, q₁, hb⟩ := hr
  obtain ⟨z, -, hb'⟩ | ⟨r', q₂, exn, h, -, hb', hexn, rfl⟩ := Call.park_eq_ok hp
  · cases hb'.symm.trans hb
  · refine ⟨r', exn, ?_, rfl⟩
    simp only [operations, Call.parking, hb', hexn]

/-- The answers that stand for a failure, unless they stand for an absent value. -/
def IsNull : (e : EntryPoint) → e.Answer → Prop
  | allocate _, a => a = false
  | string _, a | stringOption _, a => a = none
  | intOption _ _, a => a.1 = false
  | strings _, a => a.1 = none
  | raiseTwo .., _ | raiseOutOfMemory, _ => True
  | named _, a => a = .unit

/-- Where a null answer is no failure: the absent option, the empty array, and a name for unit. -/
def Absent (h : Heap) : EntryPoint → Prop
  | stringOption w => w = .absent
  | intOption w out => w = .absent ∧ out ≠ none
  | strings w => h.block w = .ok (some (.tuple []))
  | named name => ∃ bytes, name = some bytes ∧ h.named? (cString bytes) = some .unit
  | allocate _ | string _ | raiseTwo .. | raiseOutOfMemory => False

theorem isNull_answer_none (e : EntryPoint) : e.IsNull (e.answer none) := by
  cases e <;> first | rfl | trivial

theorem body_named_eq_ok_iff {name : Option Bytes} {w : Word} :
    (named name).body p = .ok w q ↔
      q = p ∧ ∃ bytes, name = some bytes ∧ p.heap.named? (cString bytes) = some w := by
  cases name with
  | none =>
    refine iff_of_false (fun hb => by cases hb) ?_
    rintro ⟨-, bytes, hname, -⟩
    cases hname
  | some bytes =>
    rw [body_named_apply]
    constructor
    · intro hb
      cases hn : p.heap.named (cString bytes) with
      | error r => simp [hn] at hb
      | ok x =>
        rw [hn] at hb
        obtain ⟨rfl, rfl⟩ := EStateM.Result.ok.inj hb
        exact ⟨rfl, bytes, rfl, Heap.named_eq_ok_iff.1 hn⟩
    · rintro ⟨rfl, other, hother, hw⟩
      obtain rfl := Option.some.inj hother
      rw [Heap.named_eq_ok_iff.2 hw]

/-- A result counts as null exactly where the value is absent. -/
theorem isNull_answer_some_iff (hb : e.body p = .ok x q) :
    e.IsNull (e.answer (some x)) ↔ e.Absent p.heap := by
  cases e with
  | allocate size => exact iff_of_false (Ne.symm Bool.false_ne_true) id
  | string w => exact iff_of_false (Option.some_ne_none x) id
  | stringOption w =>
    obtain ⟨-, hw, hn⟩ := Call.narrow_bind_eq_ok.1 hb
    obtain ⟨t, hn⟩ := Call.native_eq_ok hn
    exact Native.ofStringOption_eq_none_iff hw hn
  | intOption w out =>
    obtain ⟨-, hw, hs⟩ := Call.narrow_bind_eq_ok.1 hb
    cases out with
    | none => cases hs
    | some n =>
      have hm := Mutator.read_eq_ok (Call.managed_eq_ok hs)
      exact (Handle.storeInt_eq_false_iff hw hm).trans (and_iff_left (Option.some_ne_none n)).symm
  | strings w =>
    obtain ⟨-, hw, hn⟩ := Call.narrow_bind_eq_ok.1 hb
    obtain ⟨t, hn⟩ := Call.native_eq_ok hn
    exact Native.ofStrings_eq_none_iff hw hn
  | raiseTwo => exact absurd hb body_raiseTwo_ne_ok
  | raiseOutOfMemory => cases hb
  | named name =>
    obtain ⟨-, bytes, rfl, hw⟩ := body_named_eq_ok_iff.1 hb
    constructor
    · rintro rfl
      exact ⟨bytes, rfl, hw⟩
    · rintro ⟨other, hother, hunit⟩
      obtain rfl := Option.some.inj hother
      exact Option.some.inj (hw.symm.trans hunit)

/-- An absent value is no reason to raise. -/
theorem body_of_absent (ha : e.Absent p.heap) : ∃ x, e.body p = .ok x p := by
  have hcurrent : p.heap.isCurrent .absent = true := rfl
  cases e with
  | stringOption w =>
    obtain rfl : w = .absent := ha
    exact ⟨none, Call.narrow_bind_eq_ok.2 ⟨hcurrent, .inl rfl, rfl⟩⟩
  | intOption w out =>
    obtain ⟨rfl, hout⟩ := ha
    obtain ⟨n, rfl⟩ := Option.ne_none_iff_exists'.1 hout
    exact ⟨(false, n), Call.narrow_bind_eq_ok.2 ⟨hcurrent, .inl rfl, rfl⟩⟩
  | strings w =>
    have hnone : Native.ofStrings p.heap ⟨w⟩ (p.memory, ()) = .ok none (p.memory, ()) := by
      unfold Native.ofStrings Native.mapArray
      rw [Native.read_bind (Heap.length_of_block ha)]
      rfl
    have hfit : p.heap.Fits (.array .string) w := ⟨[], ha, List.forall_mem_nil _⟩
    exact ⟨none, Call.narrow_bind_eq_ok.2
      ⟨Heap.isCurrent_of_block ha, hfit, Call.native_of_ok hnone⟩⟩
  | named name => exact ⟨.unit, body_named_eq_ok_iff.2 ⟨rfl, ha⟩⟩
  | allocate | string | raiseTwo | raiseOutOfMemory => cases ha

theorem heap_of_body (hb : e.body p = .ok x q) : q.heap = p.heap := by
  have hfinal := heap_final_body e p (by rw [Mutator.exhausts, hb])
  rw [Call.final, hb] at hfinal
  cases e with
  | raiseTwo => exact absurd hb body_raiseTwo_ne_ok
  | _ => exact hfinal

/-- A raise gives a null answer and leaves an exception behind. Without one the heap stays as it
was, and the answer is null exactly where the value is absent. -/
theorem answer_of_call (hc : e.call p = .ok a q) :
    (e.body.Raises p → e.IsNull a ∧ q.heap.pending.isSome = true) ∧
      (¬ e.body.Raises p → q.heap = p.heap) ∧
      (e.IsNull a ∧ ¬ e.body.Raises p ↔ e.Absent p.heap) := by
  obtain ⟨x, hp, rfl⟩ := call_eq_ok hc
  obtain ⟨y, rfl, hb⟩ | ⟨r, q₁, exn, h, rfl, hb, -, rfl⟩ := Call.park_eq_ok hp
  · have hnot : ¬ e.body.Raises p := by
      rintro ⟨r, q₁, hr⟩
      cases hb.symm.trans hr
    exact ⟨fun hr => absurd hr hnot, fun _ => heap_of_body hb,
      (and_iff_left hnot).trans (isNull_answer_some_iff hb)⟩
  · have hraises : e.body.Raises p := ⟨r, q₁, hb⟩
    refine ⟨fun _ => ⟨isNull_answer_none e, rfl⟩, fun hnot => absurd hraises hnot, ?_⟩
    refine iff_of_false (fun hn => hn.2 hraises) fun ha => ?_
    obtain ⟨y, hy⟩ := body_of_absent ha
    cases hy.symm.trans hb

/-- Where the value is absent, a call does come back with a null answer. -/
theorem call_of_absent (ha : e.Absent p.heap) :
    ∃ a, e.call p = .ok a p ∧ e.IsNull a ∧ ¬ e.body.Raises p := by
  obtain ⟨x, hb⟩ := body_of_absent ha
  have hc : e.call p = .ok (e.answer (some x)) p := by
    rw [call_eq, Mutator.bind_apply, Call.park_apply, Call.attempt_apply, hb]
    rfl
  exact ⟨_, hc, (answer_of_call hc).2.2.2 ha⟩

theorem out_of_intOption {w : Word} {out out' : Option Int}
    (hc : Entry.intOption w out p = .ok (false, out') q) : out' = out := by
  obtain ⟨x, hp, ha⟩ := call_eq_ok (e := .intOption w out) hc
  obtain ⟨⟨found, n⟩, rfl, hb⟩ | ⟨-, -, -, -, rfl, -⟩ := Call.park_eq_ok hp
  · obtain ⟨rfl, rfl⟩ := Prod.mk.inj ha
    obtain ⟨-, -, hs⟩ := Call.narrow_bind_eq_ok.1 hb
    cases out with
    | none => cases hs
    | some m => rw [Handle.eq_of_storeInt (Mutator.read_eq_ok (Call.managed_eq_ok hs))]
  · exact (Prod.mk.inj ha).2

end EntryPoint

end MovingHeap

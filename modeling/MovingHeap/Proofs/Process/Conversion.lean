import MovingHeap.Entry
import MovingHeap.Proofs.Mutator.Operation
import MovingHeap.Proofs.Process.Guard
import MovingHeap.Proofs.Shape.Readers

/-!
How the entry points that convert a value treat words that are not what they expect. Main statement:
a reference that does not resolve is refused at the top, and faults where a check looks it up inside
a block.
-/
namespace MovingHeap

namespace Call

variable {α β : Type}

/-- `c` comes back from `p` with `Q`, unless slots run out. -/
def Returns (c : Call β) (p : Process) (Q : β → Process → Prop) : Prop :=
  (∃ b q, c p = .ok b q ∧ Q b q) ∨ ∃ f q, c p = .error (.fault f) q ∧ f.isExhaustion = true

/-- `c` ends in a fault where the check of `w` against `s` does. Otherwise it comes back, with
`refusal` and an exception pending if `w` has another shape. -/
def Guarded (s : Shape) (w : Word) (c : Call β) (refusal : β) : Prop :=
  ∀ p : Process, match p.heap.narrow s w with
    | .error f => c p = .error (.fault f) p
    | .ok (.error _) => c.Returns p fun b q => b = refusal ∧ q.heap.pending.isSome
    | .ok (.ok _) => c.Returns p fun _ _ => True

theorem park_of_raise {body : Call α} {p q : Process} {r : Raise}
    (hb : body p = .error (.raise r) q) :
    (park body).Returns p fun x q => x = none ∧ q.heap.pending.isSome := by
  unfold Returns
  rw [park_apply, attempt_apply, hb]
  simp only
  rcases Mutator.realize_returns r q.heap with ⟨exn, h', hr⟩ | ⟨f, h', hr, hf⟩ <;> rw [hr]
  · exact .inl ⟨none, _, rfl, rfl, rfl⟩
  · exact .inr ⟨f, _, rfl, hf⟩

theorem park_returns {body : Call α} {p : Process}
    (hb : ∀ f q, body p = .error (.fault f) q → f.isExhaustion = true) :
    (park body).Returns p fun _ _ => True := by
  cases hr : body p with
  | ok a q =>
    refine .inl ⟨some a, q, ?_, trivial⟩
    rw [park_apply, attempt_apply, hr]
  | error e q =>
    cases e with
    | raise r =>
      rcases park_of_raise hr with ⟨b, q', hb, -⟩ | hf
      · exact .inl ⟨b, q', hb, trivial⟩
      · exact .inr hf
    | fault f =>
      refine .inr ⟨f, q, ?_, hb f q hr⟩
      rw [park_apply, attempt_apply, hr]

theorem Returns.map {c : Call α} {p : Process} {Q : α → Process → Prop} {R : β → Process → Prop}
    {g : α → β} (hc : c.Returns p Q) (hg : ∀ a q, Q a q → R (g a) q) :
    (do return g (← c) : Call β).Returns p R := by
  unfold Returns
  simp only [bind, EStateM.bind]
  rcases hc with ⟨a, q, hr, hq⟩ | ⟨f, q, hr, hf⟩ <;> rw [hr]
  · exact .inl ⟨g a, q, rfl, hg a q hq⟩
  · exact .inr ⟨f, q, rfl, hf⟩

/-- A parked body that begins with a check is as good as what it does with a checked word. -/
theorem park_guarded {s : Shape} {w : Word} {k : Handle s → Call α}
    (hk : ∀ p, p.heap.Fits s w → ∀ f q, k ⟨w⟩ p = .error (.fault f) q → f.isExhaustion = true) :
    Guarded s w (park (narrow s w >>= k)) none := by
  intro p
  split
  next f hn =>
    have hbody : (narrow s w >>= k) p = .error (.fault f) p := by
      rw [Mutator.bind_apply, narrow_apply, hn]
    rw [park_apply, attempt_apply, hbody]
  next m hn =>
    have hbody : (narrow s w >>= k) p = .error (.raise m.toRaise) p := by
      rw [Mutator.bind_apply, narrow_apply, hn]
    exact park_of_raise hbody
  next x hn =>
    obtain ⟨rfl, -, hw⟩ := Heap.narrow_eq_ok_iff.1 hn
    have hbody : (narrow s w >>= k) p = k ⟨w⟩ p := by
      rw [Mutator.bind_apply, narrow_apply, hn]
    exact park_returns fun f q he => hk p hw f q (hbody.symm.trans he)

theorem Guarded.map {s : Shape} {w : Word} {c : Call α} {refusal : α} (hc : Guarded s w c refusal)
    (g : α → β) : Guarded s w (do return g (← c)) (g refusal) := by
  intro p
  have hp := hc p
  split
  next f hn =>
    simp only [hn] at hp
    simp only [bind, EStateM.bind, hp]
  next m hn =>
    simp only [hn] at hp
    exact hp.map fun a q hq => ⟨congrArg g hq.1, hq.2⟩
  next x hn =>
    simp only [hn] at hp
    exact hp.map fun _ _ _ => trivial

theorem native_onlyExhausts {n : Heap → Native Unit α} {p : Process}
    (hn : OnlyExhausts (n p.heap)) (f : Fault) (q : Process)
    (he : native n p = .error (.fault f) q) : f.isExhaustion = true := by
  unfold native at he
  cases hr : n p.heap (p.memory, ()) with
  | ok => simp [hr] at he
  | error e t =>
    simp only [hr, EStateM.Result.error.injEq] at he
    exact hn _ t f (he.1 ▸ hr)

end Call

namespace Entry

variable (w : Word)

theorem string_guarded : Call.Guarded .string w (string w) none :=
  Call.park_guarded fun _ hw => Call.native_onlyExhausts (Native.ofString_onlyFaults hw)

theorem stringOption_guarded : Call.Guarded (.option .string) w (stringOption w) none :=
  (Call.park_guarded fun _ hw =>
    Call.native_onlyExhausts (Native.ofStringOption_onlyFaults hw)).map Option.join

theorem strings_guarded : Call.Guarded (.array .string) w (strings w) (none, 0) :=
  (Call.park_guarded fun _ hw =>
    Call.native_onlyExhausts (Native.ofStrings_onlyFaults hw)).map
      fun copied => (copied.join, copied.join.elim 0 BufferArray.length)

/-- What `intOption` does with a checked word. -/
def storing (out : Option Int) (x : Handle (.option .int)) : Call (Bool × Int) :=
  match out with
  | none => Call.raise (.invalidArgument "null output pointer")
  | some n => Call.managed (Mutator.read fun h => x.storeInt h n)

/-- What `intOption` gives back for what was stored. -/
def written (out : Option Int) : Option (Bool × Int) → Bool × Option Int
  | some (found, n) => (found, some n)
  | none => (false, out)

theorem intOption_eq (out : Option Int) :
    intOption w out = do
      return written out (← Call.park (Call.narrow (.option .int) w >>= storing out)) := by
  unfold intOption
  congr 1
  funext stored
  cases stored <;> rfl

theorem intOption_guarded (out : Option Int) :
    Call.Guarded (.option .int) w (intOption w out) (false, out) := by
  have hpark : Call.Guarded (.option .int) w
      (Call.park (Call.narrow (.option .int) w >>= storing out)) none := by
    apply Call.park_guarded
    intro p hw f q he
    cases out with
    | none => simp [storing, Call.raise_apply] at he
    | some n =>
      simp only [storing, Call.managed, Mutator.read, Handle.storeInt, Handle.int?] at he
      rcases hw.payload with hx | ⟨x, -, hx⟩ <;>
        simp [hx, Functor.map, Except.map, bind, Except.bind, pure, Except.pure] at he
  rw [intOption_eq]
  exact hpark.map (written out)

end Entry

namespace Heap

variable {h : Heap} {s : Shape} {w : Word} {f : Fault}

/-- The check of `w` against `s` comes to an end, and accepts only where every word that it comes to
is current. -/
def Shields (h : Heap) (s : Shape) (w : Word) : Prop :=
  match h.narrow s w with
  | .error _ => False
  | .ok (.error _) => True
  | .ok (.ok _) => ∀ t v, h.Inspects s w t v → h.isCurrent v = true

/-- A current word is shielded exactly if the check looks no unresolved reference up and, where the
word fits, passes none as a value of any shape. -/
theorem shields_iff :
    h.Shields s w ↔ h.isCurrent w = false ∨
      (∀ t v, h.Inspects s w t v → t.looksUp = true → h.isCurrent v = true) ∧
      (h.Fits s w → ∀ v, h.Inspects s w .any v → h.isCurrent v = true) := by
  unfold Shields
  split
  next f hn =>
    obtain ⟨hw, t, v, hi, ht, hu⟩ := narrow_eq_error_iff.1 hn
    have hv := isCurrent_eq_false_iff.2 ⟨f, hu⟩
    simp only [hw, Bool.true_eq_false, false_or, false_iff, not_and]
    exact fun hall => absurd (hall t v hi ht) (by simp [hv])
  next m hn =>
    simp only [true_iff]
    cases hw : h.isCurrent w with
    | false => exact .inl rfl
    | true =>
      refine .inr ⟨fun t v hi ht => ?_, fun hfit => ?_⟩
      · cases hv : h.isCurrent v with
        | true => rfl
        | false =>
          obtain ⟨f, hu⟩ := isCurrent_eq_false_iff.1 hv
          have hf := narrow_eq_error_iff.2 ⟨hw, t, v, hi, ht, hu⟩
          simp [hn] at hf
      · have hx := narrow_eq_ok_iff.2 ⟨rfl, hw, hfit⟩
        simp [hn] at hx
  next x hn =>
    obtain ⟨-, hw, hfit⟩ := narrow_eq_ok_iff.1 hn
    simp only [hw, Bool.true_eq_false, false_or, hfit, true_implies]
    refine ⟨fun hall => ⟨fun t v hi _ => hall t v hi, fun v hi => hall .any v hi⟩, ?_⟩
    rintro ⟨-, hany⟩ t v hi
    cases hv : h.isCurrent v with
    | true => rfl
    | false =>
      obtain rfl := (hfit.of_inspects hi).eq_any hv
      exact absurd (hany v hi) (by simp [hv])

theorem not_unresolved_of_isCurrent (hw : h.isCurrent w = true) : ¬ h.Unresolved w f := by
  intro hu
  simp [isCurrent_eq_false_iff.2 ⟨f, hu⟩] at hw

theorem narrow_string_ne_error : h.narrow .string w ≠ .error f := by
  intro hn
  obtain ⟨hw, t, v, hi, -, hu⟩ := narrow_eq_error_iff.1 hn
  cases hi
  exact not_unresolved_of_isCurrent hw hu

theorem narrow_intOption_ne_error : h.narrow (.option .int) w ≠ .error f := by
  intro hn
  obtain ⟨hw, t, v, hi, ht, hu⟩ := narrow_eq_error_iff.1 hn
  cases hi with
  | self => exact not_unresolved_of_isCurrent hw hu
  | payload _ hi =>
    cases hi
    simp [Shape.looksUp] at ht

theorem narrow_stringOption_eq_error_iff :
    h.narrow (.option .string) w = .error f ↔
      ∃ x, h.block w = .ok (some (.tuple [x])) ∧ h.Unresolved x f := by
  rw [narrow_eq_error_iff]
  constructor
  · rintro ⟨hw, t, v, hi, -, hu⟩
    cases hi with
    | self => exact absurd hu (not_unresolved_of_isCurrent hw)
    | payload hb hi =>
      cases hi
      exact ⟨v, hb, hu⟩
  · rintro ⟨x, hb, hu⟩
    exact ⟨isCurrent_of_block hb, .string, x, .payload hb (.self _ x), rfl, hu⟩

theorem narrow_strings_eq_error_iff :
    h.narrow (.array .string) w = .error f ↔
      ∃ front x back, h.block w = .ok (some (.tuple (front ++ x :: back))) ∧
        (∀ y ∈ front, h.Fits .string y) ∧ h.Unresolved x f := by
  rw [narrow_eq_error_iff]
  constructor
  · rintro ⟨hw, t, v, hi, -, hu⟩
    cases hi with
    | self => exact absurd hu (not_unresolved_of_isCurrent hw)
    | element hb hf hi =>
      cases hi
      exact ⟨_, v, _, hb, hf, hu⟩
  · rintro ⟨front, x, back, hb, hf, hu⟩
    exact ⟨isCurrent_of_block hb, .string, x, .element hb hf (.self _ x), rfl, hu⟩

/-- An unresolved reference is refused where it is the word that is checked. Inside a block it is
accepted where any value will do, and where it is looked up, the check faults: so of the entry
points, those for strings and integer options always come back, and the other two unwind exactly if
the option or the array holds such a reference where it is looked up. -/
theorem checks_shield_outermost_word (w : Word) :
    (∀ (h : Heap) (s : Shape), h.Shields s w ↔ h.isCurrent w = false ∨
      (∀ t v, h.Inspects s w t v → t.looksUp = true → h.isCurrent v = true) ∧
      (h.Fits s w → ∀ v, h.Inspects s w .any v → h.isCurrent v = true)) ∧
    (∀ (h : Heap) (s : Shape) (f : Fault), h.narrow s w = .error f ↔ h.isCurrent w = true ∧
      ∃ t v, h.Inspects s w t v ∧ t.looksUp = true ∧ h.Unresolved v f) ∧
    (∀ (h : Heap) (s : Shape) (x : Handle s), h.narrow s w = .ok (.ok x) ↔
      x = ⟨w⟩ ∧ h.isCurrent w = true ∧ h.Fits s w) ∧
    Call.Guarded .string w (Entry.string w) none ∧
    Call.Guarded (.option .string) w (Entry.stringOption w) none ∧
    (∀ out, Call.Guarded (.option .int) w (Entry.intOption w out) (false, out)) ∧
    Call.Guarded (.array .string) w (Entry.strings w) (none, 0) ∧
    (∀ (h : Heap) (f : Fault),
      h.narrow .string w ≠ .error f ∧ h.narrow (.option .int) w ≠ .error f ∧
      (h.narrow (.option .string) w = .error f ↔
        ∃ x, h.block w = .ok (some (.tuple [x])) ∧ h.Unresolved x f) ∧
      (h.narrow (.array .string) w = .error f ↔
        ∃ front x back, h.block w = .ok (some (.tuple (front ++ x :: back))) ∧
          (∀ y ∈ front, h.Fits .string y) ∧ h.Unresolved x f)) :=
  ⟨fun _ _ => shields_iff, fun _ _ _ => narrow_eq_error_iff, fun _ _ _ => narrow_eq_ok_iff,
    Entry.string_guarded w, Entry.stringOption_guarded w, Entry.intOption_guarded w,
    Entry.strings_guarded w, fun _ _ => ⟨narrow_string_ne_error, narrow_intOption_ne_error,
      narrow_stringOption_eq_error_iff, narrow_strings_eq_error_iff⟩⟩

/-- An option whose payload was never given out. -/
def danglingOption : Heap := (Operation.allocSome (.ofRef ⟨999, 0⟩)).after (.new {})

theorem danglingOption_not_shielded :
    Reachable {} danglingOption ∧
    danglingOption.narrow (.option .string) (.ofRef ⟨8, 0⟩) = .error (.dangling 999 0 9) ∧
    danglingOption.narrow (.option .any) (.ofRef ⟨8, 0⟩) = .ok (.ok ⟨.ofRef ⟨8, 0⟩⟩) ∧
    ¬ danglingOption.Shields (.option .string) (.ofRef ⟨8, 0⟩) := by
  have hl : danglingOption.lookup ⟨8, 0⟩ = some (.tuple [.ofRef ⟨999, 0⟩]) := by decide +kernel
  have hu : danglingOption.Unresolved (.ofRef ⟨999, 0⟩) (.dangling 999 0 9) :=
    ⟨⟨999, 0⟩, by decide, by decide +kernel, by decide +kernel⟩
  have hb : danglingOption.block (.ofRef ⟨8, 0⟩) = .ok (some (.tuple [.ofRef ⟨999, 0⟩])) := by
    have hr : (Word.ofRef ⟨8, 0⟩).ref? = some ⟨8, 0⟩ := by decide
    simp only [block, hr, resolve_eq_ok_iff.2 hl]
    rfl
  have hn := narrow_stringOption_eq_error_iff.2 ⟨_, hb, hu⟩
  refine ⟨.after _ .new, hn, narrow_eq_ok_iff.2 ⟨rfl, isCurrent_of_block hb, ?_⟩, ?_⟩
  · exact .inr ⟨_, hb, trivial⟩
  · unfold Shields
    rw [hn]
    exact id

end Heap
end MovingHeap

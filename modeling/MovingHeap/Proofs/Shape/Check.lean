import MovingHeap.Proofs.Heap.Slots
import MovingHeap.Shape

/-!
What the check of a word against a shape answers. It accepts the words that fit, and it ends in a
fault exactly if it comes to a reference that does not resolve where it looks for a block.
-/
namespace MovingHeap

namespace Except

variable {ε α : Type} {p : α → Except ε Bool} {xs : List α}

theorem allM_cons_eq_ok_true_iff {x : α} :
    (x :: xs).allM p = .ok true ↔ p x = .ok true ∧ xs.allM p = .ok true := by
  rw [List.allM]
  cases hp : p x with
  | error e => simp [bind, Except.bind]
  | ok b => cases b <;> simp [bind, Except.bind, pure, Except.pure]

theorem allM_eq_ok_true_iff : xs.allM p = .ok true ↔ ∀ x ∈ xs, p x = .ok true := by
  induction xs with
  | nil => simp [List.allM, pure, Except.pure]
  | cons x xs ih => rw [allM_cons_eq_ok_true_iff, ih, List.forall_mem_cons]

/-- The test that fails is the first that does not accept. -/
theorem allM_eq_error_iff {e : ε} :
    xs.allM p = .error e ↔ ∃ front x back, xs = front ++ x :: back ∧
      (∀ y ∈ front, p y = .ok true) ∧ p x = .error e := by
  induction xs with
  | nil => simp [List.allM, pure, Except.pure]
  | cons z zs ih =>
    rw [List.allM]
    constructor
    · intro he
      rcases bind_eq_error_iff.1 he with hz | ⟨b, hz, he⟩
      · exact ⟨[], z, zs, rfl, fun _ hy => absurd hy List.not_mem_nil, hz⟩
      · cases b with
        | false => simp [pure, Except.pure] at he
        | true =>
          obtain ⟨front, x, back, rfl, hf, hx⟩ := ih.1 he
          exact ⟨z :: front, x, back, rfl, List.forall_mem_cons.2 ⟨hz, hf⟩, hx⟩
    · rintro ⟨front, x, back, hxs, hf, hx⟩
      cases front with
      | nil =>
        obtain ⟨rfl, rfl⟩ := List.cons.inj hxs
        exact bind_eq_error_iff.2 (.inl hx)
      | cons y front =>
        obtain ⟨rfl, rfl⟩ := List.cons.inj hxs
        obtain ⟨hz, hf⟩ := List.forall_mem_cons.1 hf
        exact bind_eq_error_iff.2 (.inr ⟨true, hz, ih.2 ⟨front, x, back, rfl, hf, hx⟩⟩)

end Except

/-- Whether the check against a shape looks the word up. -/
def Shape.looksUp : Shape → Bool
  | any | int => false
  | string | option _ | array _ => true

namespace Heap

variable {h : Heap} {s t : Shape} {v w : Word} {f : Fault}

/-- `w` is a reference that does not resolve, and `f` says why. -/
def Unresolved (h : Heap) (w : Word) (f : Fault) : Prop :=
  ∃ r, w.ref? = some r ∧ h.lookup r = none ∧ f = h.invalid r

/-- Whether `w` has a shape, as far as the shape says; `any` says nothing. -/
def Fits (h : Heap) : Shape → Word → Prop
  | .any, _ => True
  | .int, w => w.isImmediate = true
  | .string, w => ∃ bytes, h.block w = .ok (some (.string bytes))
  | .option s, w => w = .absent ∨ ∃ x, h.block w = .ok (some (.tuple [x])) ∧ h.Fits s x
  | .array s, w => ∃ fields, h.block w = .ok (some (.tuple fields)) ∧ ∀ x ∈ fields, h.Fits s x

/-- The words that a check of `w` comes to, with the shapes it asks of them: `w` itself, the payload
of an option, and the elements of an array up to the first that does not fit. -/
inductive Inspects (h : Heap) : Shape → Word → Shape → Word → Prop
  | self (s : Shape) (w : Word) : Inspects h s w s w
  | payload {s t : Shape} {w x v : Word} : h.block w = .ok (some (.tuple [x])) →
    Inspects h s x t v → Inspects h (.option s) w t v
  | element {s t : Shape} {w x v : Word} {front back : List Word} :
    h.block w = .ok (some (.tuple (front ++ x :: back))) → (∀ y ∈ front, h.Fits s y) →
    Inspects h s x t v → Inspects h (.array s) w t v

theorem block_eq_error_iff : h.block w = .error f ↔ h.Unresolved w f := by
  unfold block Unresolved resolve
  cases hw : w.ref? with
  | none => simp
  | some r => cases hl : h.lookup r <;> simp [Functor.map, Except.map, hl, eq_comm]

theorem isCurrent_eq_false_iff : h.isCurrent w = false ↔ ∃ f, h.Unresolved w f := by
  unfold isCurrent Unresolved
  cases hw : w.ref? <;> simp

theorem isCurrent_of_block {o : Option Block} (hb : h.block w = .ok o) : h.isCurrent w = true := by
  cases hw : h.isCurrent w with
  | true => rfl
  | false =>
    obtain ⟨f, hu⟩ := isCurrent_eq_false_iff.1 hw
    simp [block_eq_error_iff.2 hu] at hb

theorem block_absent (h : Heap) : h.block .absent = .ok none := by
  unfold block
  rw [show Word.absent.ref? = none from Word.ref?_ofInt 0]

theorem hasShape_string_eq_true_iff : h.hasShape .string w = .ok true ↔ h.Fits .string w := by
  unfold hasShape Fits tag
  cases h.block w with
  | error f => simp [bind, Except.bind, Functor.map, Except.map]
  | ok b =>
    match b with
    | none | some (.tuple _) | some (.object _) | some (.string _) =>
      simp [bind, Except.bind, Functor.map, Except.map, pure, Except.pure, Block.tag]

theorem hasShape_string_eq_error_iff : h.hasShape .string w = .error f ↔ h.block w = .error f := by
  unfold hasShape tag
  cases h.block w <;> simp [bind, Except.bind, Functor.map, Except.map, pure, Except.pure]

/-- The check of an option, by the block that it finds. -/
theorem hasShape_option (hw : w ≠ .absent) :
    h.hasShape (.option s) w =
      match h.block w with
      | .ok (some (.tuple [x])) => h.hasShape s x
      | .ok _ => .ok false
      | .error f => .error f := by
  have ha : w.isAbsent = false := by simp [Word.isAbsent, hw]
  rw [hasShape, ha]
  cases h.block w with
  | error f => rfl
  | ok b =>
    match b with
    | none | some (.object _) | some (.string _) => rfl
    | some (.tuple []) | some (.tuple (_ :: _ :: _)) | some (.tuple [_]) => rfl

theorem hasShape_absent : h.hasShape (.option s) .absent = .ok true := by
  simp [hasShape, Word.isAbsent]

theorem hasShape_array :
    h.hasShape (.array s) w =
      match h.block w with
      | .ok (some (.tuple fields)) => fields.allM (h.hasShape s)
      | .ok _ => .ok false
      | .error f => .error f := by
  rw [hasShape]
  cases h.block w with
  | error f => rfl
  | ok b =>
    match b with
    | none | some (.object _) | some (.string _) | some (.tuple _) => rfl

theorem hasShape_eq_true_iff : h.hasShape s w = .ok true ↔ h.Fits s w := by
  induction s generalizing w with
  | any => simp [hasShape, Fits]
  | int => simp [hasShape, Fits]
  | string => exact hasShape_string_eq_true_iff
  | option s ih =>
    by_cases hw : w = .absent
    · simp [hw, hasShape_absent, Fits]
    · rw [hasShape_option hw]
      simp only [Fits, hw, false_or]
      split
      next x hb => simp [hb, ih]
      next b hne hb =>
        simp only [hb, Except.ok.injEq, Bool.false_eq_true, false_iff]
        rintro ⟨x, rfl, -⟩
        exact hne x rfl
      next f hb => simp [hb]
  | array s ih =>
    rw [hasShape_array]
    simp only [Fits]
    split
    next fields hb => simp [hb, Except.allM_eq_ok_true_iff, ih]
    next b hne hb =>
      simp only [hb, Except.ok.injEq, Bool.false_eq_true, false_iff]
      rintro ⟨fields, rfl, -⟩
      exact hne fields rfl
    next f hb => simp [hb]

/-- The check faults exactly if it comes to an unresolved reference that it looks up. -/
theorem hasShape_eq_error_iff :
    h.hasShape s w = .error f ↔
      ∃ t v, h.Inspects s w t v ∧ t.looksUp = true ∧ h.Unresolved v f := by
  induction s generalizing w with
  | any | int =>
    simp only [hasShape, reduceCtorEq, false_iff]
    rintro ⟨t, v, hi, ht, -⟩
    cases hi
    simp [Shape.looksUp] at ht
  | string =>
    rw [hasShape_string_eq_error_iff, block_eq_error_iff]
    constructor
    · exact fun hu => ⟨_, w, .self _ w, rfl, hu⟩
    · rintro ⟨t, v, hi, -, hu⟩
      cases hi
      exact hu
  | option s ih =>
    constructor
    · intro he
      by_cases hw : w = .absent
      · simp [hw, hasShape_absent] at he
      · rw [hasShape_option hw] at he
        split at he
        next x hb =>
          obtain ⟨t, v, hi, ht, hu⟩ := ih.1 he
          exact ⟨t, v, .payload hb hi, ht, hu⟩
        next => simp at he
        next f' hb =>
          obtain rfl := Except.error.inj he
          exact ⟨_, w, .self _ w, rfl, block_eq_error_iff.1 hb⟩
    · rintro ⟨t, v, hi, ht, hu⟩
      cases hi with
      | self =>
        have hb := block_eq_error_iff.2 hu
        have hw : w ≠ .absent := by
          rintro rfl
          simp [block_absent] at hb
        rw [hasShape_option hw, hb]
      | payload hb hi =>
        have hw : w ≠ .absent := by
          rintro rfl
          simp [block_absent] at hb
        rw [hasShape_option hw, hb]
        exact ih.2 ⟨t, v, hi, ht, hu⟩
  | array s ih =>
    rw [hasShape_array]
    constructor
    · intro he
      split at he
      next fields hb =>
        obtain ⟨front, x, back, rfl, hf, hx⟩ := Except.allM_eq_error_iff.1 he
        obtain ⟨t, v, hi, ht, hu⟩ := ih.1 hx
        exact ⟨t, v, .element hb (fun y hy => hasShape_eq_true_iff.1 (hf y hy)) hi, ht, hu⟩
      next => simp at he
      next f' hb =>
        obtain rfl := Except.error.inj he
        exact ⟨_, w, .self _ w, rfl, block_eq_error_iff.1 hb⟩
    · rintro ⟨t, v, hi, ht, hu⟩
      cases hi with
      | self => rw [block_eq_error_iff.2 hu]
      | element hb hf hi =>
        rw [hb]
        exact Except.allM_eq_error_iff.2
          ⟨_, _, _, rfl, fun y hy => hasShape_eq_true_iff.2 (hf y hy), ih.2 ⟨t, v, hi, ht, hu⟩⟩

theorem Fits.of_inspects (hw : h.Fits s w) (hi : h.Inspects s w t v) : h.Fits t v := by
  induction hi with
  | self => exact hw
  | payload hb _ ih =>
    rcases hw with rfl | ⟨x, hx, hfit⟩
    · simp [block_absent] at hb
    · rw [hx] at hb
      obtain ⟨rfl⟩ : x = _ ∧ True := by simpa using hb
      exact ih hfit
  | element hb _ _ ih =>
    obtain ⟨fields, hf, hfit⟩ := hw
    rw [hf] at hb
    obtain rfl : fields = _ := by simpa using hb
    exact ih (hfit _ (by simp))

/-- A reference that does not resolve fits nothing but `any`. -/
theorem Fits.eq_any (hw : h.Fits t v) (hv : h.isCurrent v = false) : t = .any := by
  obtain ⟨f, hu⟩ := isCurrent_eq_false_iff.1 hv
  have hb := block_eq_error_iff.2 hu
  obtain ⟨r, hr, -⟩ := hu
  cases t with
  | any => rfl
  | int =>
    have hi : v.isImmediate = true := hw
    simp [Word.ref?, hi] at hr
  | string =>
    obtain ⟨bytes, hs⟩ := hw
    simp [hb] at hs
  | option t =>
    rcases hw with rfl | ⟨x, hx, -⟩
    · simp [block_absent] at hb
    · simp [hb] at hx
  | array t =>
    obtain ⟨fields, hf, -⟩ := hw
    simp [hb] at hf

theorem narrow_eq :
    h.narrow s w =
      if h.isCurrent w then
        match h.hasShape s w with
        | .ok true => .ok (.ok ⟨w⟩)
        | .ok false => .ok (.error ⟨s, h.outline w⟩)
        | .error f => .error f
      else .ok (.error ⟨s, h.outline w⟩) := by
  unfold narrow
  cases h.isCurrent w with
  | false => rfl
  | true =>
    cases h.hasShape s w with
    | error f => rfl
    | ok b => cases b <;> rfl

theorem eq_of_narrow_eq_error {m : Mismatch} (hn : h.narrow s w = .ok (.error m)) :
    m = ⟨s, h.outline w⟩ := by
  rw [narrow_eq] at hn
  cases hc : h.isCurrent w <;> cases hs : h.hasShape s w with
  | error f => simp_all
  | ok b => cases b <;> simp_all

theorem narrow_eq_error_iff :
    h.narrow s w = .error f ↔ h.isCurrent w = true ∧
      ∃ t v, h.Inspects s w t v ∧ t.looksUp = true ∧ h.Unresolved v f := by
  rw [narrow_eq, ← hasShape_eq_error_iff]
  cases h.isCurrent w <;> cases h.hasShape s w with
  | error f => simp
  | ok b => cases b <;> simp

theorem narrow_eq_ok_iff {x : Handle s} :
    h.narrow s w = .ok (.ok x) ↔ x = ⟨w⟩ ∧ h.isCurrent w = true ∧ h.Fits s w := by
  rw [narrow_eq, ← hasShape_eq_true_iff]
  cases h.isCurrent w <;> cases h.hasShape s w with
  | error f => simp
  | ok b => cases b <;> simp [eq_comm]

end Heap
end MovingHeap

import MovingHeap.Native.Conversion
import MovingHeap.Proofs.Mutator.Exhaustion
import MovingHeap.Proofs.Mutator.Operation
import MovingHeap.Proofs.Shape.Check

/-!
What can be read through a handle that passed the check. Main statement: the check accepts the
current words of the shape, and nothing that is read or copied through an accepted handle of a
definite shape faults or has another shape than was promised.
-/
namespace MovingHeap

/-- A shape that says of every word inside what it is. -/
def Shape.isDefinite : Shape → Bool
  | any => false
  | int | string => true
  | option s | array s => s.isDefinite

@[simp]
theorem Handle.map_word_map_mk {s : Shape} (ws : List Word) :
    (ws.map Handle.mk).map (Handle.word : Handle s → Word) = ws := by
  rw [List.map_map]
  exact List.map_id _

namespace Heap

variable {h : Heap} {s : Shape} {w : Word}

theorem bytes_of_block {bytes : Bytes} (hb : h.block w = .ok (some (.string bytes))) :
    Handle.bytes h ⟨w⟩ = .ok bytes := by
  simp [Handle.bytes, Heap.bytes, hb, Functor.map, Except.map, Block.bytes?]

theorem Fits.bytes (hw : h.Fits .string w) : ∃ bytes, Handle.bytes h ⟨w⟩ = .ok bytes := by
  obtain ⟨bytes, hb⟩ := hw
  exact ⟨bytes, bytes_of_block hb⟩

theorem payload_absent : Handle.payload h (⟨.absent⟩ : Handle (.option s)) = .ok none := by
  simp [Handle.payload, Handle.isAbsent, Word.isAbsent]

theorem ne_absent_of_block {b : Block} (hb : h.block w = .ok (some b)) : w ≠ .absent := by
  rintro rfl
  simp [block_absent] at hb

theorem payload_of_block {x : Word} (hb : h.block w = .ok (some (.tuple [x])))
    (ha : w ≠ .absent) : Handle.payload h (⟨w⟩ : Handle (.option s)) = .ok (some ⟨x⟩) := by
  simp [Handle.payload, Handle.isAbsent, Word.isAbsent, ha, field_of_block hb, item, Block.fields,
    bind, Except.bind, pure, Except.pure]

theorem length_of_block {fields : List Word} (hb : h.block w = .ok (some (.tuple fields))) :
    Handle.length h (⟨w⟩ : Handle (.array s)) = .ok fields.length := by
  simp [Handle.length, size, hb, Functor.map, Except.map, Block.size]

theorem element_of_block {fields : List Word} (hb : h.block w = .ok (some (.tuple fields)))
    {i : Nat} (hi : i < fields.length) :
    Handle.element h (⟨w⟩ : Handle (.array s)) i = .ok ⟨fields[i]⟩ := by
  simp [Handle.element, field_of_block hb, item, Block.fields, hi, bind, Except.bind, pure,
    Except.pure]

theorem Fits.payload (hw : h.Fits (.option s) w) :
    Handle.payload h (⟨w⟩ : Handle (.option s)) = .ok none ∨
      ∃ x, h.Fits s x ∧ Handle.payload h (⟨w⟩ : Handle (.option s)) = .ok (some ⟨x⟩) := by
  rcases hw with rfl | ⟨x, hb, hx⟩
  · exact .inl payload_absent
  · exact .inr ⟨x, hx, payload_of_block hb (ne_absent_of_block hb)⟩

theorem Fits.elements (hw : h.Fits (.array s) w) :
    ∃ n, Handle.length h (⟨w⟩ : Handle (.array s)) = .ok n ∧
      ∀ i < n, ∃ x, h.Fits s x ∧ Handle.element h (⟨w⟩ : Handle (.array s)) i = .ok ⟨x⟩ := by
  obtain ⟨fields, hb, hf⟩ := hw
  exact ⟨fields.length, length_of_block hb, fun i hi =>
    ⟨fields[i], hf _ (List.getElem_mem hi), element_of_block hb hi⟩⟩

/-- The iterator gives the elements in order. -/
theorem elements_of_block {fields : List Word} (hb : h.block w = .ok (some (.tuple fields))) :
    Handle.elements h (⟨w⟩ : Handle (.array s)) = .ok (fields.map Handle.mk) := by
  have hmap : ∀ is : List Nat, (∀ i ∈ is, i < fields.length) →
      is.mapM (Handle.element h (⟨w⟩ : Handle (.array s))) =
        .ok (is.map fun i => ⟨fields[i]!⟩) := by
    intro is his
    induction is with
    | nil => rfl
    | cons i is ih =>
      obtain ⟨hi, his⟩ := List.forall_mem_cons.1 his
      rw [List.mapM_cons, element_of_block hb hi, ih his]
      simp [bind, Except.bind, pure, Except.pure, hi]
  have hrange := hmap (List.range fields.length) fun i hi => List.mem_range.1 hi
  unfold Handle.elements
  rw [length_of_block hb]
  change (List.range fields.length).mapM _ = _
  rw [hrange]
  congr 1
  apply List.ext_getElem
  · simp
  · intro i hi _
    have hi' : i < fields.length := by simpa using hi
    simp [hi']

/-- Under a definite shape, a word that fits is current. -/
theorem Fits.narrow (hs : s.isDefinite = true) (hw : h.Fits s w) :
    h.narrow s w = .ok (.ok ⟨w⟩) := by
  refine narrow_eq_ok_iff.2 ⟨rfl, ?_, hw⟩
  cases hc : h.isCurrent w with
  | true => rfl
  | false =>
    obtain rfl := hw.eq_any hc
    cases hs

/-- The check passes the word of `x`. -/
def Accepts (h : Heap) (x : Handle s) : Prop := h.narrow s x.word = .ok (.ok x)

theorem accepts_iff {x : Handle s} :
    h.Accepts x ↔ h.isCurrent x.word = true ∧ h.Fits s x.word := by
  unfold Accepts
  rw [narrow_eq_ok_iff]
  exact ⟨And.right, fun hx => ⟨rfl, hx⟩⟩

/-- Every reader of a handle gives a value, which is what is in the block, and every handle that a
reader gives passes the check in turn. -/
def Readable (h : Heap) : (s : Shape) → Handle s → Prop
  | .any, _ => True
  | .int, x => x.word.int? = some x.value
  | .string, x => ∃ bytes, h.block x.word = .ok (some (.string bytes)) ∧ x.bytes h = .ok bytes
  | .option _, x =>
    x.isAbsent = true ∧ x.payload h = .ok none ∨
      ∃ y, h.block x.word = .ok (some (.tuple [y.word])) ∧ x.isAbsent = false ∧
        x.payload h = .ok (some y) ∧ h.Accepts y
  | .array _, x =>
    ∃ ys, h.block x.word = .ok (some (.tuple (ys.map Handle.word))) ∧ x.length h = .ok ys.length ∧
      x.elements h = .ok ys ∧ (∀ i (hi : i < ys.length), x.element h i = .ok ys[i]) ∧
      ∀ y ∈ ys, h.Accepts y

theorem Fits.readable (hs : s.isDefinite = true) (hw : h.Fits s w) : h.Readable s ⟨w⟩ := by
  cases s with
  | any => trivial
  | int =>
    have hi : w.isImmediate = true := hw
    simp [Readable, Word.int?, Handle.value, hi]
  | string =>
    obtain ⟨bytes, hb⟩ := hw
    exact ⟨bytes, hb, bytes_of_block hb⟩
  | option s =>
    rcases hw with rfl | ⟨x, hb, hx⟩
    · exact .inl ⟨by simp [Handle.isAbsent, Word.isAbsent], payload_absent⟩
    · have ha := ne_absent_of_block hb
      refine .inr ⟨⟨x⟩, hb, ?_, payload_of_block hb ha, hx.narrow hs⟩
      simp [Handle.isAbsent, Word.isAbsent, ha]
  | array s =>
    obtain ⟨fields, hb, hf⟩ := hw
    refine ⟨fields.map Handle.mk, (Handle.map_word_map_mk fields).symm ▸ hb, ?_,
      elements_of_block hb, ?_, ?_⟩
    · rw [List.length_map]
      exact length_of_block hb
    · intro i hi
      rw [List.getElem_map]
      exact element_of_block hb (by simpa using hi)
    · intro y hy
      obtain ⟨x, hx, rfl⟩ := List.mem_map.1 hy
      exact (hf x hx).narrow hs

end Heap

namespace Native

variable {σ α : Type} {p : Fault → Prop} {h : Heap} {s : Shape} {w : Word}

theorem read_bind {β : Type} {r : Except Fault α} {a : α} (hr : r = .ok a) (k : α → Native σ β) :
    (read r >>= k) = k a := by
  subst hr
  rfl

theorem allocate_onlyFaults (h : Heap) (size : Nat) :
    OnlyFaults p (allocate h size : Native σ Nat) := by
  intro t t' f he
  unfold allocate at he
  split at he <;> simp at he

theorem write_onlyFaults (place : Nat) (filling : Filling) :
    OnlyFaults p (write place filling : Native σ Unit) := by
  intro t t' f he
  cases he

theorem copy_onlyFaults (h : Heap) (bytes : Bytes) :
    OnlyFaults p (copy h bytes : Native σ Buffer) :=
  (allocate_onlyFaults h _).bind fun place => (write_onlyFaults place _).bind fun _ => .pure _

theorem ofString_onlyFaults (hw : h.Fits .string w) :
    OnlyFaults p (ofString h ⟨w⟩ : Native σ Buffer) := by
  obtain ⟨bytes, hb⟩ := hw.bytes
  unfold ofString
  rw [read_bind hb]
  exact copy_onlyFaults h _

theorem ofStringOption_onlyFaults (hw : h.Fits (.option .string) w) :
    OnlyFaults p (ofStringOption h ⟨w⟩ : Native σ (Option Buffer)) := by
  unfold ofStringOption
  rcases hw.payload with hp | ⟨x, hx, hp⟩ <;> rw [read_bind hp]
  · exact .pure none
  · exact (ofString_onlyFaults hx).bind fun _ => .pure _

theorem mapArray_onlyFaults {f : Handle s → Native σ Buffer} (hw : h.Fits (.array s) w)
    (hf : ∀ x, h.Fits s x → OnlyFaults p (f ⟨x⟩)) : OnlyFaults p (mapArray h ⟨w⟩ f) := by
  obtain ⟨n, hn, hi⟩ := hw.elements
  unfold mapArray
  rw [read_bind hn]
  split
  · exact .pure none
  · refine (allocate_onlyFaults h _).bind fun place => ?_
    refine (OnlyFaults.mapM fun i hmem => ?_).bind fun _ =>
      (write_onlyFaults place _).bind fun _ => .pure _
    obtain ⟨x, hx, he⟩ := hi i (List.mem_range.1 hmem)
    rw [read_bind he]
    exact hf x hx

theorem ofStrings_onlyFaults (hw : h.Fits (.array .string) w) :
    OnlyFaults p (ofStrings h ⟨w⟩ : Native σ (Option BufferArray)) :=
  mapArray_onlyFaults hw fun _ hx => ofString_onlyFaults hx

end Native

namespace Heap

variable {h : Heap}

theorem Fits.int? {w : Word} (hw : h.Fits (.option .int) w) :
    ∃ n, Handle.int? h (⟨w⟩ : Handle (.option .int)) = .ok n := by
  unfold Handle.int?
  rcases hw.payload with hp | ⟨x, -, hp⟩ <;> rw [hp]
  · exact ⟨none, rfl⟩
  · exact ⟨some (Handle.value ⟨x⟩), rfl⟩

theorem Fits.storeInt {w : Word} (hw : h.Fits (.option .int) w) (out : Int) :
    ∃ r, Handle.storeInt h (⟨w⟩ : Handle (.option .int)) out = .ok r := by
  obtain ⟨n, hn⟩ := hw.int?
  unfold Handle.storeInt
  rw [hn]
  cases n with
  | none => exact ⟨(false, out), rfl⟩
  | some n => exact ⟨(true, narrowInt n), rfl⟩

/-- In every heap, whatever its blocks refer to, an answer of the check is the word in a handle
exactly if the word is current and fits, and a mismatch with what was found otherwise. In the heap
of the check, the readers of an accepted handle of a definite shape give what is there, which passes
the check as well, and the conversions do not fault; one that is given does not if it faults on no
accepted element. -/
theorem narrow_accepts_readable_words (h : Heap) :
    (∀ (s : Shape) (w : Word) (answer : Except Mismatch (Handle s)), h.narrow s w = .ok answer →
      ((∃ x, answer = .ok x ∧ x.word = w) ↔ h.isCurrent w = true ∧ h.Fits s w) ∧
      (¬ (h.isCurrent w = true ∧ h.Fits s w) → answer = .error ⟨s, h.outline w⟩)) ∧
    (∀ (s : Shape) (x : Handle s), s.isDefinite = true → h.Accepts x → h.Readable s x) ∧
    (∀ x : Handle .string, h.Accepts x → ∀ σ, NeverFaults (Native.ofString h x : Native σ _)) ∧
    (∀ x : Handle (.option .string), h.Accepts x →
      ∀ σ, NeverFaults (Native.ofStringOption h x : Native σ _)) ∧
    (∀ x : Handle (.option .int), h.Accepts x →
      (∃ n, x.int? h = .ok n) ∧ ∀ out, ∃ r, x.storeInt h out = .ok r) ∧
    (∀ (s : Shape) (x : Handle (.array s)), s.isDefinite = true → h.Accepts x →
      ∀ (σ : Type) (f : Handle s → Native σ Buffer), (∀ y, h.Accepts y → NeverFaults (f y)) →
        NeverFaults (Native.mapArray h x f)) ∧
    (∀ x : Handle (.array .string), h.Accepts x →
      ∀ σ, NeverFaults (Native.ofStrings h x : Native σ _)) := by
  refine ⟨fun s w answer hn => ?_, fun s x hs hx => (accepts_iff.1 hx).2.readable hs,
    fun x hx σ => Native.ofString_onlyFaults (accepts_iff.1 hx).2,
    fun x hx σ => Native.ofStringOption_onlyFaults (accepts_iff.1 hx).2,
    fun x hx => ⟨(accepts_iff.1 hx).2.int?, (accepts_iff.1 hx).2.storeInt⟩,
    fun s x hs hx σ f hf =>
      Native.mapArray_onlyFaults (accepts_iff.1 hx).2 fun y hy => hf ⟨y⟩ (hy.narrow hs),
    fun x hx σ => Native.ofStrings_onlyFaults (accepts_iff.1 hx).2⟩
  by_cases hw : h.isCurrent w = true ∧ h.Fits s w
  · rw [narrow_eq_ok_iff.2 ⟨rfl, hw⟩] at hn
    obtain rfl := Except.ok.inj hn
    simp [hw]
  · cases answer with
    | ok x => exact absurd (narrow_eq_ok_iff.1 hn).2 hw
    | error m =>
      obtain rfl := eq_of_narrow_eq_error hn
      simp [hw]

/-- An array with a string in it, and an option that holds itself. -/
def knotted : Heap :=
  (Operation.setField (.ofRef ⟨10, 0⟩) 0 (.ofRef ⟨10, 0⟩)).after <|
    (Operation.allocSome .unit).after <| (Operation.allocTuple [.ofRef ⟨8, 0⟩]).after <|
      (Operation.allocString [97]).after (.new {})

theorem narrow_accepts_readable_words_knotted : Reachable {} knotted ∧
    knotted.narrow (.option (.option .any)) (.ofRef ⟨10, 0⟩) = .ok (.ok ⟨.ofRef ⟨10, 0⟩⟩) ∧
    (knotted.isCurrent (.ofRef ⟨10, 0⟩) = true ∧
      knotted.Fits (.option (.option .any)) (.ofRef ⟨10, 0⟩)) ∧
    knotted.narrow (.option .int) (.ofRef ⟨10, 0⟩) = .ok (.error ⟨.option .int, .tuple 1⟩) ∧
    ¬ (knotted.isCurrent (.ofRef ⟨10, 0⟩) = true ∧
      knotted.Fits (.option .int) (.ofRef ⟨10, 0⟩)) ∧
    knotted.Readable (.array .string) ⟨.ofRef ⟨9, 0⟩⟩ ∧
    NeverFaults (Native.ofStrings knotted ⟨.ofRef ⟨9, 0⟩⟩ : Native Unit _) := by
  obtain ⟨hexact, hread, -, -, -, -, hstrings⟩ := narrow_accepts_readable_words knotted
  have haccepted : knotted.narrow (.option (.option .any)) (.ofRef ⟨10, 0⟩) =
      .ok (.ok ⟨.ofRef ⟨10, 0⟩⟩) := rfl
  have hrefused : knotted.narrow (.option .int) (.ofRef ⟨10, 0⟩) =
      .ok (.error ⟨.option .int, .tuple 1⟩) := rfl
  have harray : knotted.Accepts (⟨.ofRef ⟨9, 0⟩⟩ : Handle (.array .string)) := rfl
  refine ⟨.after _ (.after _ (.after _ (.after _ .new))), haccepted, ?_, hrefused, ?_,
    hread _ _ rfl harray, hstrings _ harray Unit⟩
  · exact (hexact _ _ _ haccepted).1.1 ⟨_, rfl, rfl⟩
  · intro hw
    obtain ⟨x, hx, -⟩ := (hexact _ _ _ hrefused).1.2 hw
    cases hx

end Heap
end MovingHeap

import MovingHeap.Heap.Exception
import MovingHeap.Proofs.Heap.Store
import MovingHeap.Proofs.Mutator.Operation
import MovingHeap.Proofs.Shape.Check

/-!
What can be told of a value as an exception. Main statement: where no field is a reference that does
not resolve, the arguments of every current value can be told, and its name too, unless its identity
is an object without fields; telling the name of such a value is a fault.
-/
namespace MovingHeap
namespace Heap

variable {h : Heap} {v id w : Word} {fields : List Word}

/-- The object `id`, with these fields, is the identity of `v`: it is `v` itself, or `v` is a tuple
that begins with it. -/
def HasIdentity (h : Heap) (v id : Word) (fields : List Word) : Prop :=
  h.block id = .ok (some (.object fields)) ∧
    (id = v ∨ ∃ args, h.block v = .ok (some (.tuple (id :: args))))

theorem block_of_isCurrent (hw : h.isCurrent w = true) : ∃ b, h.block w = .ok b := by
  cases hb : h.block w with
  | ok b => exact ⟨b, rfl⟩
  | error f => simp [isCurrent_eq_false_iff.2 ⟨f, block_eq_error_iff.1 hb⟩] at hw

theorem isObject_of_block {b : Option Block} (hb : h.block w = .ok b) :
    h.isObject w = .ok (decide (b.map Block.tag = some .object)) := by
  simp [isObject, tag, hb, Functor.map, Except.map, bind, Except.bind, pure, Except.pure]

namespace HasIdentity

theorem identity? (hi : h.HasIdentity v id fields) : h.identity? v = .ok (some id) := by
  obtain ⟨hid, rfl | ⟨args, hv⟩⟩ := hi
  · simp [Heap.identity?, hid, bind, Except.bind, pure, Except.pure]
  · simp [Heap.identity?, hv, isObject_of_block hid, Block.tag, bind, Except.bind, pure,
      Except.pure]

/-- The first field of the identity is read whether there is one or not. -/
theorem exceptionName (hi : h.HasIdentity v id fields) :
    h.exceptionName v = (do return (← h.bytes (← item fields 0)).map Utf8.lossy) := by
  have hidentity := hi.identity?
  simp only [Heap.exceptionName, hidentity, field_of_block hi.1, Block.fields, bind, Except.bind]

end HasIdentity

theorem exceptionArgs_of_tuple {args : List Word} (hid : h.block id = .ok (some (.object fields)))
    (hv : h.block v = .ok (some (.tuple (id :: args)))) : h.exceptionArgs v = .ok args := by
  have hidentity := HasIdentity.identity? ⟨hid, .inr ⟨args, hv⟩⟩
  have hne : id ≠ v := by
    rintro rfl
    cases hid.symm.trans hv
  simp [Heap.exceptionArgs, hidentity, hv, hne, Block.fields, bind, Except.bind, pure, Except.pure]

theorem exceptionArgs_of_object (hv : h.block v = .ok (some (.object fields))) :
    h.exceptionArgs v = .ok [] := by
  have hidentity := HasIdentity.identity? ⟨hv, .inl rfl⟩
  simp [Heap.exceptionArgs, hidentity, hv, bind, Except.bind, pure, Except.pure]

/-- Every field of every block, live or not, is an immediate or resolves. -/
def FieldsCurrent (h : Heap) : Prop := ∀ b ∈ h.blocks, ∀ w ∈ b.fields, h.isCurrent w = true

theorem FieldsCurrent.of_block (hf : h.FieldsCurrent) {b : Block}
    (hb : h.block v = .ok (some b)) (hw : w ∈ b.fields) : h.isCurrent w = true := by
  obtain ⟨s, -, hs⟩ := block_eq_some_iff.1 hb
  exact hf b (Array.mem_of_getElem? (blockAt?_eq_some_iff.1 hs).2) w hw

theorem hasIdentity_or_not (hf : h.FieldsCurrent) (hv : h.isCurrent v = true) :
    (∃ id fields, h.HasIdentity v id fields) ∨
      h.identity? v = .ok none ∧ ∀ id fields, ¬ h.HasIdentity v id fields := by
  obtain ⟨b, hb⟩ := block_of_isCurrent hv
  by_cases hi : ∃ id fields, h.HasIdentity v id fields
  · exact .inl hi
  simp only [not_exists] at hi
  refine .inr ⟨?_, hi⟩
  match b with
  | some (.object fields) => exact absurd ⟨hb, .inl rfl⟩ (hi v fields)
  | some (.tuple (x :: args)) =>
    obtain ⟨c, hc⟩ := block_of_isCurrent (hf.of_block hb List.mem_cons_self)
    have hne : c.map Block.tag ≠ some .object := by
      intro ht
      match c with
      | some (.object fields) => exact hi x fields ⟨hc, .inr ⟨args, hb⟩⟩
      | none | some (.tuple _) | some (.string _) => simp [Block.tag] at ht
    simp [Heap.identity?, hb, isObject_of_block hc, hne, bind, Except.bind, pure, Except.pure]
  | none | some (.string bytes) | some (.tuple []) =>
    simp [Heap.identity?, hb, bind, Except.bind, pure, Except.pure]

/-- The identity of `v` begins with a string of these bytes. -/
def BearsName (h : Heap) (v : Word) (bytes : Bytes) : Prop :=
  ∃ id x rest, h.HasIdentity v id (x :: rest) ∧ h.block x = .ok (some (.string bytes))

theorem BearsName.exceptionName {bytes : Bytes} (hb : h.BearsName v bytes) :
    h.exceptionName v = .ok (some (Utf8.lossy bytes)) := by
  obtain ⟨id, x, rest, hi, hx⟩ := hb
  simp [hi.exceptionName, item, Heap.bytes, hx, Block.bytes?, Functor.map, Except.map, bind,
    Except.bind, pure, Except.pure]

/-- Telling the name of an exception whose identity has no fields is a fault. -/
theorem exceptionName_of_empty (hi : h.HasIdentity v id []) :
    h.exceptionName v = .error (.outOfRange 0 0) := by
  simp [hi.exceptionName, item, bind, Except.bind]

theorem exceptionName_of_not_bearsName (hf : h.FieldsCurrent) (hv : h.isCurrent v = true)
    (hname : ∀ bytes, ¬ h.BearsName v bytes) (hempty : ∀ id, ¬ h.HasIdentity v id []) :
    h.exceptionName v = .ok none := by
  rcases hasIdentity_or_not hf hv with ⟨id, fields, hi⟩ | ⟨hnone, -⟩
  · obtain _ | ⟨x, rest⟩ := fields
    · exact absurd hi (hempty id)
    obtain ⟨c, hc⟩ := block_of_isCurrent (hf.of_block hi.1 List.mem_cons_self)
    have hbytes : c.bind Block.bytes? = none := by
      match c with
      | some (.string bytes) => exact absurd ⟨id, x, rest, hi, hc⟩ (hname bytes)
      | none | some (.tuple _) | some (.object _) => rfl
    simp [hi.exceptionName, item, Heap.bytes, hc, hbytes, Functor.map, Except.map, bind,
      Except.bind, pure, Except.pure]
  · simp [Heap.exceptionName, hnone, bind, Except.bind, pure, Except.pure]

theorem exceptionName_cases (hf : h.FieldsCurrent) (hv : h.isCurrent v = true) :
    (∃ bytes, h.BearsName v bytes) ∨ (∃ id, h.HasIdentity v id []) ∨
      h.exceptionName v = .ok none := by
  by_cases hname : ∃ bytes, h.BearsName v bytes
  · exact .inl hname
  by_cases hempty : ∃ id, h.HasIdentity v id []
  · exact .inr (.inl hempty)
  simp only [not_exists] at hname hempty
  exact .inr (.inr (exceptionName_of_not_bearsName hf hv hname hempty))

theorem exceptionName_eq_some_iff (hf : h.FieldsCurrent) (hv : h.isCurrent v = true)
    {text : String} : h.exceptionName v = .ok (some text) ↔
      ∃ bytes, h.BearsName v bytes ∧ text = Utf8.lossy bytes := by
  constructor
  · intro he
    rcases exceptionName_cases hf hv with ⟨bytes, hb⟩ | ⟨id, hi⟩ | hnone
    · exact ⟨bytes, hb, by simpa using he.symm.trans hb.exceptionName⟩
    · cases he.symm.trans (exceptionName_of_empty hi)
    · cases he.symm.trans hnone
  · rintro ⟨bytes, hb, rfl⟩
    exact hb.exceptionName

theorem exceptionName_eq_none_iff (hf : h.FieldsCurrent) (hv : h.isCurrent v = true) :
    h.exceptionName v = .ok none ↔
      (∀ bytes, ¬ h.BearsName v bytes) ∧ ∀ id, ¬ h.HasIdentity v id [] := by
  constructor
  · intro he
    constructor
    · intro bytes hb
      cases he.symm.trans hb.exceptionName
    · intro id hi
      cases he.symm.trans (exceptionName_of_empty hi)
  · exact fun hnot => exceptionName_of_not_bearsName hf hv hnot.1 hnot.2

theorem exceptionName_eq_error_iff (hf : h.FieldsCurrent) (hv : h.isCurrent v = true)
    {f : Fault} : h.exceptionName v = .error f ↔
      f = .outOfRange 0 0 ∧ ∃ id, h.HasIdentity v id [] := by
  constructor
  · intro he
    rcases exceptionName_cases hf hv with ⟨bytes, hb⟩ | ⟨id, hi⟩ | hnone
    · cases he.symm.trans hb.exceptionName
    · exact ⟨by simpa using he.symm.trans (exceptionName_of_empty hi), id, hi⟩
    · cases he.symm.trans hnone
  · rintro ⟨rfl, id, hi⟩
    exact exceptionName_of_empty hi

theorem exceptionArgs_of_not_tuple (hf : h.FieldsCurrent) (hv : h.isCurrent v = true)
    (htuple : ∀ id args fields, h.block v = .ok (some (.tuple (id :: args))) →
      h.block id ≠ .ok (some (.object fields))) : h.exceptionArgs v = .ok [] := by
  rcases hasIdentity_or_not hf hv with ⟨id, fields, hid, rfl | ⟨args, hb⟩⟩ | ⟨hnone, -⟩
  · exact exceptionArgs_of_object hid
  · exact absurd hid (htuple id args fields hb)
  · simp [Heap.exceptionArgs, hnone, bind, Except.bind, pure, Except.pure]

/-- What can be told of a current value, in a heap without a dangling or stale field. -/
theorem exception_told (hf : h.FieldsCurrent) (hv : h.isCurrent v = true) :
    (∀ text, h.exceptionName v = .ok (some text) ↔
      ∃ bytes, h.BearsName v bytes ∧ text = Utf8.lossy bytes) ∧
    (h.exceptionName v = .ok none ↔
      (∀ bytes, ¬ h.BearsName v bytes) ∧ ∀ id, ¬ h.HasIdentity v id []) ∧
    (∀ f, h.exceptionName v = .error f ↔ f = .outOfRange 0 0 ∧ ∃ id, h.HasIdentity v id []) ∧
    (∀ id args fields, h.block v = .ok (some (.tuple (id :: args))) →
      h.block id = .ok (some (.object fields)) → h.exceptionArgs v = .ok args) ∧
    ((∀ id args fields, h.block v = .ok (some (.tuple (id :: args))) →
      h.block id ≠ .ok (some (.object fields))) → h.exceptionArgs v = .ok []) := by
  exact ⟨fun text => exceptionName_eq_some_iff hf hv, exceptionName_eq_none_iff hf hv,
    fun f => exceptionName_eq_error_iff hf hv,
    fun id args fields hb hid => exceptionArgs_of_tuple hid hb, exceptionArgs_of_not_tuple hf hv⟩

/-- An exception with the argument 7, whose identity is named by a byte that is not UTF-8 and the
letter A. -/
def misnamed : Heap :=
  (Heap.new {}).perform [.allocString [255, 65], .allocFields .object 1,
    .setField (.ofRef ⟨9, 0⟩) 0 (.ofRef ⟨8, 0⟩), .allocTuple [.ofRef ⟨9, 0⟩, .ofInt 7]]

theorem exception_told_misnamed :
    misnamed.FieldsCurrent ∧ misnamed.isCurrent (.ofRef ⟨10, 0⟩) = true ∧
      misnamed.exceptionName (.ofRef ⟨10, 0⟩) = .ok (some "\uFFFDA") ∧
      misnamed.exceptionArgs (.ofRef ⟨10, 0⟩) = .ok [.ofInt 7] := by
  have hf : misnamed.FieldsCurrent := by
    unfold FieldsCurrent
    decide +kernel
  have hv : misnamed.isCurrent (.ofRef ⟨10, 0⟩) = true := by decide +kernel
  have hrecord : misnamed.block (.ofRef ⟨10, 0⟩) =
      .ok (some (.tuple [.ofRef ⟨9, 0⟩, .ofInt 7])) :=
    block_eq_some_iff.2 ⟨10, by decide +kernel, by decide +kernel⟩
  have hidentity : misnamed.block (.ofRef ⟨9, 0⟩) = .ok (some (.object [.ofRef ⟨8, 0⟩])) :=
    block_eq_some_iff.2 ⟨9, by decide +kernel, by decide +kernel⟩
  have hname : misnamed.block (.ofRef ⟨8, 0⟩) = .ok (some (.string [255, 65])) :=
    block_eq_some_iff.2 ⟨8, by decide +kernel, by decide +kernel⟩
  obtain ⟨htext, -, -, hargs, -⟩ := exception_told hf hv
  refine ⟨hf, hv, (htext _).2 ⟨_, ⟨_, _, _, ⟨hidentity, .inr ⟨_, hrecord⟩⟩, hname⟩, ?_⟩,
    hargs _ _ _ hrecord hidentity⟩
  decide +kernel

/-- An object without fields, which is the identity of an exception without a name. -/
def nameless : Heap := (Operation.allocFields .object 0).after (Heap.new {})

theorem exceptionName_nameless :
    Reachable {} nameless ∧ nameless.FieldsCurrent ∧ nameless.isCurrent (.ofRef ⟨8, 0⟩) = true ∧
      nameless.block (.ofRef ⟨8, 0⟩) = .ok (some (.object [])) ∧
      nameless.exceptionName (.ofRef ⟨8, 0⟩) = .error (.outOfRange 0 0) := by
  have hblock : nameless.block (.ofRef ⟨8, 0⟩) = .ok (some (.object [])) :=
    block_eq_some_iff.2 ⟨8, by decide +kernel, by decide +kernel⟩
  refine ⟨.after _ .new, ?_, by decide +kernel, hblock, exceptionName_of_empty ⟨hblock, .inl rfl⟩⟩
  unfold FieldsCurrent
  decide +kernel

end Heap
end MovingHeap

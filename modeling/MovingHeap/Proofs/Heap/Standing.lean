import Mathlib.Logic.ExistsUnique
import MovingHeap.Proofs.Mutator.Operation
import MovingHeap.Proofs.Shape.Check

/-!
How a word stands to a heap: it is an immediate, or it resolves, or it dangles, or it is stale. Main
statement: all that looks at a word goes by its standing, be it a test, a report, an access or a
collection.
-/
namespace MovingHeap

/-- Whether a fault reports a reference that does not resolve. -/
def Fault.isInvalid : Fault → Bool
  | stale _ _ | dangling _ _ _ => true
  | _ => false

namespace Heap

inductive Standing
  | immediate
  | current
  | dangling
  | stale
  deriving DecidableEq

variable {h h' : Heap} {w : Word} {r : Ref} {s : Nat} {c : Standing} {o : Option Block}

/-- Whether a word is, for the heap, what the standing says. -/
def Stands (h : Heap) (w : Word) : Standing → Prop
  | .immediate => w.isImmediate = true
  | .current => ∃ r b, w.ref? = some r ∧ h.lookup r = some b
  | .dangling => ∃ r, w.ref? = some r ∧ r.epoch = h.epoch ∧ h.next ≤ r.slot
  | .stale => ∃ r, w.ref? = some r ∧ (r.epoch ≠ h.epoch ∨ r.slot < h.start)

/-- The standing of `w`, from its slot and epoch alone. -/
def standing (h : Heap) (w : Word) : Standing :=
  match w.ref? with
  | none => .immediate
  | some r =>
    if r.epoch = h.epoch ∧ h.start ≤ r.slot then
      if r.slot < h.next then .current else .dangling
    else .stale

theorem exists_lookup_iff :
    (∃ b, h.lookup r = some b) ↔ r.epoch = h.epoch ∧ h.start ≤ r.slot ∧ r.slot < h.next := by
  constructor
  · rintro ⟨b, hb⟩
    obtain ⟨he, hb⟩ := lookup_eq_some_iff_blockAt?.1 hb
    exact ⟨he, bounds_of_blockAt? hb⟩
  · rintro ⟨he, hlo, hhi⟩
    obtain ⟨b, hb⟩ := exists_blockAt? hlo hhi
    exact ⟨b, lookup_eq_some_iff_blockAt?.2 ⟨he, hb⟩⟩

/-- Each word has one standing. -/
theorem stands_iff : h.Stands w c ↔ h.standing w = c := by
  have hstart : h.start ≤ h.next := Nat.le_add_right _ _
  unfold standing
  cases hw : w.ref? with
  | none =>
    have hi : w.isImmediate = true := by simpa [Word.ref?] using hw
    cases c <;> simp [Stands, hw, hi]
  | some r =>
    have hi : w.isImmediate = false := by
      cases hi : w.isImmediate with
      | false => rfl
      | true => simp [Word.ref?, hi] at hw
    have hcurrent : h.Stands w .current ↔
        r.epoch = h.epoch ∧ h.start ≤ r.slot ∧ r.slot < h.next := by
      simp only [Stands, hw, Option.some.injEq, exists_and_left, exists_eq_left',
        exists_lookup_iff]
    have hdangling : h.Stands w .dangling ↔ r.epoch = h.epoch ∧ h.next ≤ r.slot := by
      simp only [Stands, hw, Option.some.injEq, exists_eq_left']
    have hstale : h.Stands w .stale ↔ r.epoch ≠ h.epoch ∨ r.slot < h.start := by
      simp only [Stands, hw, Option.some.injEq, exists_eq_left']
    cases c with
    | immediate => grind [Stands]
    | current => grind
    | dangling => grind
    | stale => grind

instance (h : Heap) (w : Word) (c : Standing) : Decidable (h.Stands w c) :=
  decidable_of_iff _ stands_iff.symm

/-- `w` is taken for the block `o`, or for an immediate if there is none. -/
structure Takes (h : Heap) (w : Word) (o : Option Block) : Prop where
  lookup : w.ref?.bind h.lookup = o
  isCurrent : h.isCurrent w = true
  outline : h.outline w ≠ .dangling ∧ h.outline w ≠ .stale
  narrow : h.narrow .any w = .ok (.ok ⟨w⟩)
  mismatch : ∀ s m, h.narrow s w = .ok (.error m) → m.found ≠ .dangling ∧ m.found ≠ .stale
  block : h.block w = .ok o
  tag : h.tag w = .ok (o.map Block.tag)
  size : h.size w = .ok (o.elim 0 Block.size)
  bytes : h.bytes w = .ok (o.bind Block.bytes?)
  field : ∀ i f, h.field w i = .error f → f.isInvalid = false
  setField : ∀ i x f, h.setField w i x = .error f → f.isInvalid = false

/-- `w` is refused: reports call it `found`, and an access ends in the fault `f` and changes
nothing. -/
structure Refuses (h : Heap) (w : Word) (found : Outline) (f : Fault) : Prop where
  lookup : w.ref?.bind h.lookup = none
  isCurrent : h.isCurrent w = false
  outline : h.outline w = found
  narrow : ∀ s, h.narrow s w = .ok (.error ⟨s, found⟩)
  block : h.block w = .error f
  tag : h.tag w = .error f
  size : h.size w = .error f
  bytes : h.bytes w = .error f
  field : ∀ i, h.field w i = .error f
  setField : ∀ i x, h.setField w i x = .error f
  unchanged : ∀ i x, (Operation.setField w i x).run h = .error (.fault f) h

theorem block_of_lookup {b : Block} (hw : w.ref? = some r) (hl : h.lookup r = some b) :
    h.block w = .ok (some b) := by
  simp only [Heap.block, hw, resolve_eq_ok_iff.2 hl]
  rfl

theorem isInvalid_of_item {α : Type} {xs : List α} {i : Nat} {f : Fault}
    (he : item xs i = .error f) : f.isInvalid = false := by
  unfold item at he
  split at he
  next => cases he
  next =>
    obtain rfl := Except.error.inj he
    rfl

theorem isInvalid_of_overwrite {b : Block} {i : Nat} {x : Word} {f : Fault}
    (he : overwrite b i x = .error f) : f.isInvalid = false := by
  unfold overwrite at he
  split at he
  next =>
    obtain rfl := Except.error.inj he
    rfl
  next =>
    split at he
    next => cases he
    next =>
      obtain rfl := Except.error.inj he
      rfl

theorem outline_of_isCurrent (hc : h.isCurrent w = true) :
    h.outline w ≠ .dangling ∧ h.outline w ≠ .stale := by
  unfold Heap.outline
  cases hw : w.ref? with
  | none => simp
  | some r =>
    obtain ⟨b, hl⟩ := isCurrent_iff.1 hc r hw
    cases b <;> simp [hl]

theorem isInvalid_of_field {i : Nat} {f : Fault} (hc : h.isCurrent w = true)
    (he : h.field w i = .error f) : f.isInvalid = false := by
  unfold Heap.field at he
  cases hw : w.ref? with
  | none =>
    simp only [hw] at he
    obtain rfl := Except.error.inj he
    rfl
  | some r =>
    obtain ⟨b, hl⟩ := isCurrent_iff.1 hc r hw
    simp only [hw, resolve_eq_ok_iff.2 hl] at he
    exact isInvalid_of_item he

theorem isInvalid_of_setField {i : Nat} {x : Word} {f : Fault} (hc : h.isCurrent w = true)
    (he : h.setField w i x = .error f) : f.isInvalid = false := by
  unfold Heap.setField at he
  cases hw : w.ref? with
  | none =>
    simp only [hw] at he
    obtain rfl := Except.error.inj he
    rfl
  | some r =>
    obtain ⟨b, hl⟩ := isCurrent_iff.1 hc r hw
    simp only [hw, resolve_eq_ok_iff.2 hl] at he
    rcases Except.bind_eq_error_iff.1 he with he | ⟨c, -, he⟩
    · cases he
    · rcases Except.bind_eq_error_iff.1 he with he | ⟨c', -, he⟩
      · exact isInvalid_of_overwrite he
      · cases he

theorem takes_of_block (hb : h.block w = .ok o) : h.Takes w o := by
  have hcurrent := isCurrent_of_block hb
  have houtline := outline_of_isCurrent hcurrent
  refine ⟨?_, hcurrent, houtline, narrow_eq_ok_iff.2 ⟨rfl, hcurrent, trivial⟩, fun s m hm => ?_, hb,
    ?_, ?_, ?_, fun i f => isInvalid_of_field hcurrent, fun i x f => isInvalid_of_setField hcurrent⟩
  · unfold Heap.block resolve at hb
    cases hw : w.ref? with
    | none => simpa [hw] using hb
    | some r => cases hl : h.lookup r <;> simp_all [Functor.map, Except.map]
  · rwa [eq_of_narrow_eq_error hm]
  · rw [Heap.tag, hb]
    rfl
  · rw [Heap.size, hb]
    rfl
  · rw [Heap.bytes, hb]
    rfl

/-- A reference that does not resolve is refused, for the reason that `isAhead` gives. -/
theorem refuses_of_lookup (hw : w.ref? = some r) (hl : h.lookup r = none) :
    h.Refuses w (if h.isAhead r then .dangling else .stale) (h.invalid r) := by
  have hresolve : h.resolve r = .error (h.invalid r) := by simp only [Heap.resolve, hl]
  have hblock : h.block w = .error (h.invalid r) := block_eq_error_iff.2 ⟨r, hw, hl, rfl⟩
  have hcurrent : h.isCurrent w = false := isCurrent_eq_false_iff.2 ⟨_, r, hw, hl, rfl⟩
  have houtline : h.outline w = if h.isAhead r then .dangling else .stale := by
    simp only [Heap.outline, hw, hl]
  have hset : ∀ i x, h.setField w i x = .error (h.invalid r) := by
    intro i x
    simp only [Heap.setField, hw, hresolve]
    rfl
  refine ⟨by simp [hw, hl], hcurrent, houtline, fun s => ?_, hblock, ?_, ?_, ?_, fun i => ?_, hset,
    fun i x => ?_⟩
  · rw [narrow_eq, hcurrent, houtline]
    rfl
  · rw [Heap.tag, hblock]
    rfl
  · rw [Heap.size, hblock]
    rfl
  · rw [Heap.bytes, hblock]
    rfl
  · simp only [Heap.field, hw, hresolve]
    rfl
  · simp only [Operation.run, Mutator.update, Mutator.bind_apply, hset i x]

theorem refuses_of_dangling (hw : w.ref? = some r) (he : r.epoch = h.epoch) (hr : h.next ≤ r.slot) :
    h.Refuses w .dangling (.dangling r.slot h.start h.next) := by
  have hstart : h.start ≤ h.next := Nat.le_add_right _ _
  have hl : h.lookup r = none := by
    rw [Option.eq_none_iff_forall_ne_some]
    intro b hb
    have hlt := (exists_lookup_iff.1 ⟨b, hb⟩).2.2
    omega
  have hahead : h.isAhead r = true := by simp [isAhead, he, Nat.le_trans hstart hr]
  simpa [hahead, Heap.invalid] using refuses_of_lookup hw hl

theorem refuses_of_stale (hw : w.ref? = some r) (hr : r.epoch ≠ h.epoch ∨ r.slot < h.start) :
    h.Refuses w .stale (.stale r h.epoch) := by
  have hl : h.lookup r = none := by
    rw [Option.eq_none_iff_forall_ne_some]
    intro b hb
    obtain ⟨he, hlo, -⟩ := exists_lookup_iff.1 ⟨b, hb⟩
    omega
  have hahead : h.isAhead r = false := by
    rw [isAhead, Bool.and_eq_false_iff, beq_eq_false_iff_ne, decide_eq_false_iff_not, Nat.not_le]
    exact hr
  simpa [hahead, Heap.invalid] using refuses_of_lookup hw hl

/-- From `h` to `h'` the roots that resolve have changed, each into a reference to what has become
of its block, and the other roots have not. -/
structure Sorts (h h' : Heap) : Prop where
  length : h'.rootWords.length = h.rootWords.length
  moves : ∀ (i : Nat) w, h.rootWords[i]? = some w → h.Stands w .current →
    ∃ w' b, h'.rootWords[i]? = some w' ∧ w' ≠ w ∧ h.block w = .ok (some b) ∧
      h'.block w' = .ok (some (b.mapFields h.carry))
  keeps : ∀ (i : Nat) w, h.rootWords[i]? = some w → ¬ h.Stands w .current →
    h'.rootWords[i]? = some w

theorem slot?_eq_none_of_not_stands (hw : ¬ h.Stands w .current) : h.slot? w = none := by
  rw [Option.eq_none_iff_forall_ne_some]
  intro s hs
  obtain ⟨hr, b, hb⟩ := slot?_eq_some_iff.1 hs
  exact hw ⟨_, b, hr, hb⟩

/-- A reference of the next epoch is another word than any that resolves now. -/
theorem ofRef_nextEpoch_ne {t : Nat} (hs : h.slot? w = some s)
    (hfits : (Ref.mk t (nextEpoch h.epoch)).Fits) : Word.ofRef ⟨t, nextEpoch h.epoch⟩ ≠ w := by
  rintro rfl
  simp [slot?_ofRef_nextEpoch hfits] at hs

theorem sorts_of_collect (h₀ : h.Sound) (hc : h.collect = .ok h') : h.Sorts h' := by
  have hsound : h'.Sound := (Step.collect hc).sound h₀
  obtain ⟨rfl, -⟩ := collect_eq_ok_iff.1 hc
  refine ⟨by rw [rootWords_moved, List.length_map], fun i w hi hw => ?_, fun i w hi hw => ?_⟩
  · obtain ⟨r, b, hr, hl⟩ := hw
    obtain ⟨s, hs, hb⟩ := block_eq_some_iff.1 (block_of_lookup hr hl)
    have hmem := mem_survivors_of_rootWord (List.mem_of_getElem? hi) hs
    have hmoved := blockAt?_moved_newSlot hmem hb
    obtain ⟨hlo, hhi⟩ := bounds_of_blockAt? hmoved
    have hslot := hsound.slot?_ofRef hlo hhi
    have hfits : (Ref.mk (h.newSlot s) (nextEpoch h.epoch)).Fits :=
      ⟨by have hle := hsound.next_le; change h.newSlot s ≤ maxSlot; omega, nextEpoch_le h₀.epoch_le⟩
    rw [epoch_moved] at hslot
    refine ⟨.ofRef ⟨h.newSlot s, nextEpoch h.epoch⟩, b, ?_, ofRef_nextEpoch_ne hs hfits,
      block_eq_some_iff.2 ⟨s, hs, hb⟩, block_eq_some_iff.2 ⟨_, hslot, hmoved⟩⟩
    rw [rootWords_moved, List.getElem?_map, hi, Option.map_some, carry_of_slot? hs hmem]
  · rw [rootWords_moved, List.getElem?_map, hi, Option.map_some,
      carry_of_slot?_eq_none (slot?_eq_none_of_not_stands hw)]

/-- Every word is an immediate, resolves, dangles or is stale, and all that looks at it agrees on
which: the first two are taken for what they are and never called dangling or stale, the others are
refused as what they are, and a collection changes the roots that resolve and no other. It comes to
its end if there are slots for the survivors. -/
theorem standing_decides {config : Config} (hr : Reachable config h) (w : Word) :
    (∃! c, h.Stands w c) ∧
    (h.Stands w .immediate → h.Takes w none) ∧
    (h.Stands w .current → ∃ b, h.Takes w (some b)) ∧
    (h.Stands w .dangling → ∃ r f, w.ref? = some r ∧ h.Refuses w .dangling f ∧
      f = .dangling r.slot h.start h.next ∧ Outline.dangling.text = "dangling block" ∧
      f.message =
        s!"dangling block reference (slot {r.slot}, live slots {h.start}..{h.next})") ∧
    (h.Stands w .stale → ∃ r f, w.ref? = some r ∧ h.Refuses w .stale f ∧
      f = .stale r h.epoch ∧ Outline.stale.text = "stale block" ∧
      f.message =
        s!"stale block reference (slot {r.slot}, epoch {r.epoch}, heap at {h.epoch}): " ++
          "value was not rooted across a collection") ∧
    (∀ h', h.collect = .ok h' → h.Sorts h') ∧
    (h.next + h.survivors.length ≤ maxSlot → ∃ h', h.collect = .ok h' ∧ h.Sorts h') := by
  have hsorts : ∀ h', h.collect = .ok h' → h.Sorts h' := fun _ => sorts_of_collect hr.sound
  refine ⟨⟨h.standing w, stands_iff.2 rfl, fun c hc => (stands_iff.1 hc).symm⟩, ?_, ?_, ?_, ?_,
    hsorts, ?_⟩
  · intro hw
    have hnone : w.ref? = none := if_pos hw
    exact takes_of_block (by simp only [block, hnone])
  · rintro ⟨r, b, hw, hl⟩
    exact ⟨b, takes_of_block (block_of_lookup hw hl)⟩
  · rintro ⟨r, hw, he, hslot⟩
    exact ⟨r, _, hw, refuses_of_dangling hw he hslot, rfl, rfl, rfl⟩
  · rintro ⟨r, hw, hslot⟩
    exact ⟨r, _, hw, refuses_of_stale hw hslot, rfl, rfl, rfl⟩
  · intro hroom
    have hc : h.collect = .ok h.moved :=
      collect_eq_ok_iff.2 ⟨rfl, by omega, by rw [next_moved]; omega⟩
    exact ⟨_, hc, hsorts _ hc⟩

/-- Roots of every standing, after a collection: a string, the same with bit 63 set, an integer, the
string as it was before the collection, its old slot under the new epoch, and the next slot. -/
def mixed : Heap :=
  (Heap.new {}).perform [.allocString [97], .root (.ofRef ⟨8, 0⟩), .collect,
    .root ⟨(Word.ofRef ⟨9, 1⟩).bits ||| 0x8000000000000000⟩, .root (.ofInt 7),
    .root (.ofRef ⟨8, 0⟩), .root (.ofRef ⟨8, 1⟩), .root (.ofRef ⟨18, 1⟩)]

theorem standing_decides_mixed : Reachable {} mixed ∧
    mixed.roots.map mixed.standing = [.current, .current, .immediate, .stale, .stale, .dangling] ∧
    (∃ w b, mixed.roots[1]? = some w ∧ w ≠ .ofRef ⟨9, 1⟩ ∧ mixed.Takes w (some b)) ∧
    (∃ f, mixed.Refuses (.ofRef ⟨18, 1⟩) .dangling f) ∧
    (∃ f, mixed.Refuses (.ofRef ⟨8, 1⟩) .stale f) ∧
    ∃ h', mixed.collect = .ok h' ∧ mixed.Sorts h' := by
  have hr : Reachable {} mixed := Reachable.new.perform _
  have hroom : mixed.next + mixed.survivors.length ≤ maxSlot := by decide +kernel
  have hcurrent : mixed.Stands ⟨(Word.ofRef ⟨9, 1⟩).bits ||| 0x8000000000000000⟩ .current := by
    decide +kernel
  have hdangling : mixed.Stands (.ofRef ⟨18, 1⟩) .dangling := by decide +kernel
  have hstale : mixed.Stands (.ofRef ⟨8, 1⟩) .stale := by decide +kernel
  obtain ⟨-, -, htakes, -, -, -, hcollect⟩ := standing_decides hr _
  obtain ⟨b, hb⟩ := htakes hcurrent
  obtain ⟨-, f, -, hf, -⟩ := (standing_decides hr _).2.2.2.1 hdangling
  obtain ⟨-, g, -, hg, -⟩ := (standing_decides hr _).2.2.2.2.1 hstale
  exact ⟨hr, by decide +kernel, ⟨_, b, by decide +kernel, by decide, hb⟩, ⟨f, hf⟩, ⟨g, hg⟩,
    hcollect hroom⟩

end Heap
end MovingHeap

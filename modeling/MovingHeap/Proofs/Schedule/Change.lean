import MovingHeap.Proofs.Mutator.Operation
import MovingHeap.Proofs.Schedule.Collection

/-!
Changes that are made alike to two matching heaps leave them matching.
-/
namespace MovingHeap

/-- The link with one more pair. -/
def Link.extend (l : Link) (s t : Nat) : Link :=
  { l with slots := fun a b => l.slots a b ∨ a = s ∧ b = t }

namespace Link

variable {l : Link} {s t : Nat} {v w x y : Word} {b c : Block}

theorem Same.extend (hs : l.Same v w) : (l.extend s t).Same v w := by
  cases hs with
  | immediate hw => exact .immediate hw
  | block hst => exact .block (.inl hst)

theorem SameBlock.extend (hb : l.SameBlock b c) : (l.extend s t).SameBlock b c :=
  ⟨hb.tag, hb.bytes, hb.fields.imp fun _ _ hs => hs.extend⟩

theorem forall₂_set {vs ws : List Word} (hs : List.Forall₂ l.Same vs ws) (i : Nat)
    (hx : l.Same x y) : List.Forall₂ l.Same (vs.set i x) (ws.set i y) := by
  induction hs generalizing i with
  | nil => exact .nil
  | cons hs hrest ih =>
    cases i with
    | zero => exact .cons hx hrest
    | succ i => exact .cons hs (ih i)

/-- Blocks that are the same take the same word in the same field, or refuse it alike. -/
theorem SameBlock.overwrite (hb : l.SameBlock b c) (hx : l.Same x y) (i : Nat) :
    Except.Rel (fun b' c' => l.SameBlock b' c' ∧ b'.words = b.words ∧ c'.words = c.words)
      (Heap.overwrite b i x) (Heap.overwrite c i y) := by
  have hlen := hb.fields.length_eq
  have hset := forall₂_set hb.fields i hx
  have htag := hb.tag
  cases b <;> cases c <;> simp only [Block.tag, reduceCtorEq] at htag
  case string.string => exact .error Fault.stringWrite
  all_goals
    simp only [Block.fields] at hlen hset
    simp only [Heap.overwrite, Block.fields, Block.withFields, hlen]
    rename_i fs gs
    by_cases hi : i < gs.length <;> simp only [hi, if_true, if_false]
    · refine .ok ⟨⟨rfl, rfl, hset⟩, ?_, ?_⟩ <;> simp [Block.words, Block.size]
    · exact .error _

end Link

namespace Registry

variable {R : Word → Word → Prop} {es fs : List (Bytes × Word)} (name : Bytes)

/-- Equal names with related words. -/
abbrev RelEntry (R : Word → Word → Prop) (e f : Bytes × Word) : Prop := e.1 = f.1 ∧ R e.2 f.2

theorem rel_findEntry (hr : List.Forall₂ (RelEntry R) es fs) :
    Option.Rel R (findEntry name es) (findEntry name fs) := by
  induction hr with
  | nil => exact .none
  | @cons e f _ _ hef _ ih =>
    obtain ⟨other, v⟩ := e
    obtain ⟨_, w⟩ := f
    obtain ⟨rfl, hvw⟩ := hef
    rw [findEntry, findEntry]
    split
    · exact .some hvw
    · exact ih

theorem rel_insertEntry {v w : Word} (hr : List.Forall₂ (RelEntry R) es fs) (hvw : R v w) :
    List.Forall₂ (RelEntry R) (insertEntry name v es) (insertEntry name w fs) := by
  induction hr with
  | nil => exact .cons ⟨rfl, hvw⟩ .nil
  | @cons e f _ _ hef hrest ih =>
    obtain ⟨other, v'⟩ := e
    obtain ⟨_, w'⟩ := f
    obtain ⟨rfl, hvw'⟩ := hef
    rw [insertEntry, insertEntry]
    split
    · exact .cons ⟨rfl, hvw⟩ hrest
    · split
      · exact .cons ⟨rfl, hvw⟩ (.cons ⟨rfl, hvw'⟩ hrest)
      · exact .cons ⟨rfl, hvw'⟩ ih

theorem rel_eraseEntry (hr : List.Forall₂ (RelEntry R) es fs) :
    List.Forall₂ (RelEntry R) (eraseEntry name es) (eraseEntry name fs) := by
  induction hr with
  | nil => exact .nil
  | @cons e f _ _ hef hrest ih =>
    obtain ⟨other, v⟩ := e
    obtain ⟨_, w⟩ := f
    obtain ⟨rfl, hvw⟩ := hef
    rw [eraseEntry, eraseEntry]
    split
    · exact ih
    · exact .cons ⟨rfl, hvw⟩ ih

end Registry

namespace Heap

variable {l : Link} {h k : Heap} {b c : Block} {s t : Nat}

theorem wordsOf_push (blocks : Array Block) (b : Block) :
    wordsOf (blocks.push b) = wordsOf blocks + b.words := by
  simp [wordsOf_eq_sum]

theorem Counted.place (hc : h.Counted) (hn : h.next ≤ maxSlot) (b : Block) :
    (h.place b).2.Counted where
  toSound := (Step.place b hn).sound hc.toSound
  live := by
    change h.liveWords + b.words = wordsOf (h.blocks.push b)
    rw [wordsOf_push, hc.live]

theorem Counted.write (hc : h.Counted) (hb : h.blockAt? s = some b) (hw : c.words = b.words) :
    (h.write s c).Counted where
  epoch_le := hc.epoch_le
  next_le := by simpa [next, Heap.write] using hc.next_le
  live := by
    obtain ⟨hlo, hb⟩ := blockAt?_eq_some_iff.1 hb
    obtain ⟨hi, hb⟩ := Array.getElem?_eq_some_iff.1 hb
    change h.liveWords = wordsOf (h.blocks.setIfInBounds (s - h.start) c)
    rw [wordsOf_eq_sum, Array.toList_setIfInBounds, List.map_set, hw, hc.live, wordsOf_eq_sum]
    have hlt : s - h.start < (h.blocks.toList.map Block.words).length := by simpa using hi
    have hself : (h.blocks.toList.map Block.words)[s - h.start] = b.words := by simp [hb]
    rw [← hself, List.set_getElem_self]

theorem Step.counted (hs : Step h k) (hc : h.Counted) : k.Counted := by
  cases hs with
  | collect hr => exact hc.collect hr
  | place b hn => exact hc.place hn b
  | setField hw =>
    obtain ⟨s, b, ⟨-, hb⟩, hbytes, -, rfl⟩ := setField_eq_ok_iff.1 hw
    exact hc.write hb (by rw [Block.words, Block.size_withFields (by simp), Block.words])
  | roots | register | unregister | pending | count => exact hc.congr ⟨rfl, rfl, rfl⟩ rfl

theorem Steps.counted (hs : h.Steps k) (hc : h.Counted) : k.Counted := by
  induction hs with
  | refl => exact hc
  | tail _ hs ih => exact hs.counted ih

theorem new_counted (config : Config) : (new config).Counted where
  toSound := new_sound config
  live := by
    have hlive : (new {}).liveWords = wordsOf (new {}).blocks := by decide +kernel
    exact hlive

theorem Reachable.counted {config : Config} (hr : Reachable config h) : h.Counted :=
  hr.steps.counted (new_counted config)

namespace Matched

theorem slot_lt (hm : Matched l h k) (hst : l.slots s t) : s < h.next ∧ t < k.next := by
  obtain ⟨b, c, hb, hc, -⟩ := hm.blocks s t hst
  exact ⟨(bounds_of_blockAt? hb).2, (bounds_of_blockAt? hc).2⟩

/-- Blocks that are the same, put into both heaps, are paired. -/
theorem place (hm : Matched l h k) (hbc : l.SameBlock b c) (hn : h.next ≤ maxSlot)
    (kn : k.next ≤ maxSlot) : Matched (l.extend h.next k.next) (h.place b).2 (k.place c).2 where
  left := hm.left
  right := hm.right
  countedLeft := hm.countedLeft.place hn b
  countedRight := hm.countedRight.place kn c
  unique := by
    constructor
    · rintro s s' t (hst | ⟨rfl, rfl⟩) (hst' | ⟨rfl, ht⟩)
      · exact hm.unique.1 hst hst'
      · exact absurd (hm.slot_lt hst).2 (by omega)
      · exact absurd (hm.slot_lt hst').2 (by omega)
      · rfl
    · rintro s t t' (hst | ⟨rfl, rfl⟩) (hst' | ⟨hs, rfl⟩)
      · exact hm.unique.2 hst hst'
      · exact absurd (hm.slot_lt hst).1 (by omega)
      · exact absurd (hm.slot_lt hst').1 (by omega)
      · rfl
  blocks := by
    rintro s t (hst | ⟨rfl, rfl⟩)
    · obtain ⟨b', c', hb, hc, hbc'⟩ := hm.blocks s t hst
      have hlt := hm.slot_lt hst
      refine ⟨b', c', ?_, ?_, hbc'.extend⟩
      · rw [blockAt?_place, if_neg (by omega), hb]
      · rw [blockAt?_place, if_neg (by omega), hc]
    · refine ⟨b, c, ?_, ?_, hbc.extend⟩
      · rw [blockAt?_place, if_pos rfl]
      · rw [blockAt?_place, if_pos rfl]
  roots := hm.roots.imp fun _ _ hs => hs.extend
  registry := hm.registry.imp fun _ _ hs => ⟨hs.1, hs.2.extend⟩
  builtins := fun b => (hm.builtins b).extend
  pending := by
    have hp := hm.pending
    change Option.Rel (l.extend h.next k.next).Same h.pending k.pending
    revert hp
    cases h.pending <;> cases k.pending <;> intro hp <;> cases hp
    · exact .none
    · exact .some (Link.Same.extend ‹_›)
  identities := hm.identities
  maxWords := hm.maxWords
  messageLimit := hm.messageLimit

theorem same_place (hm : Matched l h k) (b c : Block) :
    (l.extend h.next k.next).Same (h.place b).1 (k.place c).1 := by
  change (l.extend h.next k.next).Same (.ofRef ⟨h.next, h.epoch⟩) (.ofRef ⟨k.next, k.epoch⟩)
  rw [← hm.left, ← hm.right]
  exact .block (.inr ⟨rfl, rfl⟩)

/-- Writing into paired slots what is the same. -/
theorem write (hm : Matched l h k) (hst : l.slots s t) {b c b' c' : Block}
    (hb : h.blockAt? s = some b) (hc : k.blockAt? t = some c) (hbc : l.SameBlock b' c')
    (hbw : b'.words = b.words) (hcw : c'.words = c.words) :
    Matched l (h.write s b') (k.write t c') where
  left := hm.left
  right := hm.right
  countedLeft := hm.countedLeft.write hb hbw
  countedRight := hm.countedRight.write hc hcw
  unique := hm.unique
  blocks := by
    intro u v huv
    rw [blockAt?_write hb, blockAt?_write hc]
    by_cases hu : u = s
    · subst hu
      obtain rfl := hm.unique.2 hst huv
      exact ⟨b', c', by rw [if_pos rfl], by rw [if_pos rfl], hbc⟩
    · have hv : v ≠ t := by
        rintro rfl
        exact hu (hm.unique.1 huv hst)
      rw [if_neg hu, if_neg hv]
      exact hm.blocks u v huv
  roots := hm.roots
  registry := hm.registry
  builtins := hm.builtins
  pending := hm.pending
  identities := hm.identities
  maxWords := hm.maxWords
  messageLimit := hm.messageLimit

theorem setField (hm : Matched l h k) {v w x y : Word} (hs : l.Same v w) (hx : l.Same x y)
    (i : Nat) :
    Except.Rel (Matched l) (h.setField v i x) (k.setField w i y) := by
  cases hs with
  | immediate hv =>
    unfold Heap.setField
    rw [hv]
    exact .error _
  | @block s t hst =>
    obtain ⟨b, c, hb, hc, hbc⟩ := hm.blocks s t hst
    rw [setField_of_slot? (hm.slot?_left hst) hb, setField_of_slot? (hm.slot?_right hst) hc]
    exact (hbc.overwrite hx i).map fun b' c' hw => hm.write hst hb hc hw.1 hw.2.1 hw.2.2

theorem withRoots (hm : Matched l h k) {vs ws : List Word} (hs : List.Forall₂ l.Same vs ws) :
    Matched l { h with roots := vs } { k with roots := ws } :=
  { toPaired := hm.toPaired.congr ⟨rfl, rfl, rfl⟩ rfl ⟨rfl, rfl, rfl⟩ rfl
    roots := hs
    registry := hm.registry
    builtins := hm.builtins
    pending := hm.pending
    identities := hm.identities
    maxWords := hm.maxWords
    messageLimit := hm.messageLimit }

theorem withRegistry (hm : Matched l h k) {r q : Registry}
    (hs : List.Forall₂ (Registry.RelEntry l.Same) r.entries q.entries) :
    Matched l { h with registry := r } { k with registry := q } :=
  { toPaired := hm.toPaired.congr ⟨rfl, rfl, rfl⟩ rfl ⟨rfl, rfl, rfl⟩ rfl
    roots := hm.roots
    registry := hs
    builtins := hm.builtins
    pending := hm.pending
    identities := hm.identities
    maxWords := hm.maxWords
    messageLimit := hm.messageLimit }

theorem withPending (hm : Matched l h k) {p q : Option Word} (hs : Option.Rel l.Same p q) :
    Matched l { h with pending := p } { k with pending := q } :=
  { toPaired := hm.toPaired.congr ⟨rfl, rfl, rfl⟩ rfl ⟨rfl, rfl, rfl⟩ rfl
    roots := hm.roots
    registry := hm.registry
    builtins := hm.builtins
    pending := hs
    identities := hm.identities
    maxWords := hm.maxWords
    messageLimit := hm.messageLimit }

theorem count (hm : Matched l h k) :
    Matched l { h with identities := h.nextIdentity } { k with identities := k.nextIdentity } :=
  { toPaired := hm.toPaired.congr ⟨rfl, rfl, rfl⟩ rfl ⟨rfl, rfl, rfl⟩ rfl
    roots := hm.roots
    registry := hm.registry
    builtins := hm.builtins
    pending := hm.pending
    identities := congrArg (· + 1) hm.identities
    maxWords := hm.maxWords
    messageLimit := hm.messageLimit }

theorem named? (hm : Matched l h k) (name : Bytes) :
    Option.Rel l.Same (h.named? name) (k.named? name) := Registry.rel_findEntry name hm.registry

/-- A name is missing from both heaps, and reported alike, or found in both. -/
theorem named (hm : Matched l h k) (name : Bytes) :
    (∃ r, r.words = [] ∧ h.named name = .error r ∧ k.named name = .error r) ∨
      ∃ v w, h.named name = .ok v ∧ k.named name = .ok w ∧ l.Same v w := by
  unfold Heap.named
  have hr := hm.named? name
  revert hr
  cases h.named? name <;> cases k.named? name <;> intro hr <;> cases hr
  · refine .inl ⟨_, rfl, rfl, ?_⟩
    simp only [missingName, hm.messageLimit]
  · exact .inr ⟨_, _, rfl, rfl, ‹_›⟩

/-- The raise for want of memory is the same, and so is its word. -/
theorem outOfMemory (hm : Matched l h k) : h.outOfMemory.form = k.outOfMemory.form ∧
    List.Forall₂ l.Same h.outOfMemory.words k.outOfMemory.words := by
  unfold Heap.outOfMemory
  rcases hm.named (Utf8.encode Builtin.outOfMemory.name) with
      ⟨r, hr, hh, hk⟩ | ⟨v, w, hh, hk, hs⟩ <;>
    rw [hh, hk]
  · exact ⟨rfl, by rw [hr]; exact .nil⟩
  · exact ⟨rfl, .cons hs .nil⟩

theorem rootValue (hm : Matched l h k) (r : Root) :
    Except.Rel l.Same (h.rootValue r) (k.rootValue r) := by
  unfold Heap.rootValue
  by_cases hr : r.index < h.roots.length
  · have kr : r.index < k.roots.length := hm.roots.length_eq ▸ hr
    rw [List.getElem?_eq_getElem hr, List.getElem?_eq_getElem kr]
    exact .ok (hm.roots.get hr kr)
  · have kr : ¬ r.index < k.roots.length := hm.roots.length_eq ▸ hr
    rw [List.getElem?_eq_none (by omega), List.getElem?_eq_none (by omega)]
    exact .error Fault.deadRoot

theorem setRoot (hm : Matched l h k) (r : Root) {v w : Word} (hs : l.Same v w) :
    Except.Rel (Matched l) (h.setRoot r v) (k.setRoot r w) := by
  unfold Heap.setRoot
  rw [hm.roots.length_eq]
  split
  · exact .ok (hm.withRoots (Link.forall₂_set hm.roots r.index hs))
  · exact .error _

end Matched
end Heap
end MovingHeap

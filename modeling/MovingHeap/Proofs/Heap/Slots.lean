import MovingHeap.Heap.Access

/-!
The heap as a table from slots to blocks. A word resolves to at most one slot, and everything that
reads the heap goes by the slot and its block.
-/
namespace MovingHeap

namespace Except

variable {ε α β : Type}

theorem bind_eq_ok_iff {x : Except ε α} {f : α → Except ε β} {b : β} :
    x >>= f = .ok b ↔ ∃ a, x = .ok a ∧ f a = .ok b := by
  cases x <;> simp [bind, Except.bind]

theorem bind_eq_error_iff {x : Except ε α} {f : α → Except ε β} {e : ε} :
    x >>= f = .error e ↔ x = .error e ∨ ∃ a, x = .ok a ∧ f a = .error e := by
  cases x <;> simp [bind, Except.bind]

end Except

namespace Block

/-- The block with every field changed by `f`. -/
def mapFields (f : Word → Word) (b : Block) : Block := b.withFields (b.fields.map f)

variable (f : Word → Word) (b : Block)

@[simp]
theorem tag_mapFields : (b.mapFields f).tag = b.tag := by simp [mapFields]

@[simp]
theorem bytes?_mapFields : (b.mapFields f).bytes? = b.bytes? := by simp [mapFields]

@[simp]
theorem fields_mapFields : (b.mapFields f).fields = b.fields.map f :=
  fields_withFields (by simp)

@[simp]
theorem size_mapFields : (b.mapFields f).size = b.size := size_withFields (by simp)

@[simp]
theorem words_mapFields : (b.mapFields f).words = b.words := by simp [words]

theorem mapFields_congr {f g : Word → Word} {b : Block} (h : ∀ w ∈ b.fields, f w = g w) :
    b.mapFields f = b.mapFields g := by
  rw [mapFields, mapFields, List.map_congr_left h]

end Block

namespace Registry

def words (r : Registry) : List Word := r.entries.map Prod.snd

def map (f : Word → Word) (r : Registry) : Registry := ⟨r.entries.map fun e => (e.1, f e.2)⟩

theorem mem_words_insert {name : Bytes} {v w : Word} {r : Registry}
    (hw : w ∈ (r.insert name v).words) :
    w = v ∨ w ∈ r.words := by
  obtain ⟨es⟩ := r
  simp only [words, insert] at hw ⊢
  induction es with
  | nil => simpa [insertEntry] using hw
  | cons e es ih =>
    rw [insertEntry] at hw
    split at hw
    · rcases List.mem_cons.1 hw with hw | hw
      · exact .inl hw
      · exact .inr (List.mem_cons_of_mem _ hw)
    · split at hw
      · simpa using hw
      · rcases List.mem_cons.1 hw with hw | hw
        · exact .inr (hw ▸ List.mem_cons_self)
        · exact (ih hw).imp_right (List.mem_cons_of_mem _)

theorem mem_words_erase {name : Bytes} {w : Word} {r : Registry} (hw : w ∈ (r.erase name).words) :
    w ∈ r.words := by
  obtain ⟨es⟩ := r
  simp only [words, erase] at hw ⊢
  induction es with
  | nil => exact hw
  | cons e es ih =>
    rw [eraseEntry] at hw
    split at hw
    · exact List.mem_cons_of_mem _ (ih hw)
    · rcases List.mem_cons.1 hw with hw | hw
      · exact hw ▸ List.mem_cons_self
      · exact List.mem_cons_of_mem _ (ih hw)

theorem mem_words_of_find? {name : Bytes} {w : Word} {r : Registry} (hw : r.find? name = some w) :
    w ∈ r.words := by
  obtain ⟨es⟩ := r
  simp only [words, find?] at hw ⊢
  induction es with
  | nil => simp [findEntry] at hw
  | cons e es ih =>
    rw [findEntry] at hw
    split at hw
    · exact Option.some.inj hw ▸ List.mem_cons_self
    · exact List.mem_cons_of_mem _ (ih hw)

end Registry

/-- The words that a raise carries. -/
def Raise.words : Raise → List Word
  | record exn | constant exn => [exn]
  | _ => []

/-- A raise without its word. -/
def Raise.form : Raise → Raise
  | record _ => record .unit
  | constant _ => constant .unit
  | r => r

def Stop.words : Stop → List Word
  | raise r => r.words
  | fault _ => []

def Identities.words (ids : Identities) : List Word :=
  [ids.outOfMemory, ids.failure, ids.invalidArgument, ids.notFound]

def Identities.map (f : Word → Word) (ids : Identities) : Identities where
  outOfMemory := f ids.outOfMemory
  failure := f ids.failure
  invalidArgument := f ids.invalidArgument
  notFound := f ids.notFound

namespace Heap

variable {h : Heap}

/-- The block in slot `s`. -/
def blockAt? (h : Heap) (s : Nat) : Option Block := h.lookup ⟨s, h.epoch⟩

/-- The slot of the block that `w` resolves to. -/
def slot? (h : Heap) (w : Word) : Option Nat :=
  w.ref?.bind fun r => (h.lookup r).map fun _ => r.slot

theorem blockAt?_eq_some_iff {s : Nat} {b : Block} :
    h.blockAt? s = some b ↔ h.start ≤ s ∧ h.blocks[s - h.start]? = some b := by
  simp [blockAt?, lookup_eq_some_iff]

theorem blockAt?_of_le {s : Nat} (hs : h.start ≤ s) : h.blockAt? s = h.blocks[s - h.start]? := by
  ext b
  simp [blockAt?_eq_some_iff, hs]

theorem lookup_eq_some_iff_blockAt? {r : Ref} {b : Block} :
    h.lookup r = some b ↔ r.epoch = h.epoch ∧ h.blockAt? r.slot = some b := by
  rw [lookup_eq_some_iff, blockAt?_eq_some_iff]

theorem bounds_of_blockAt? {s : Nat} {b : Block} (hb : h.blockAt? s = some b) :
    h.start ≤ s ∧ s < h.next := by
  obtain ⟨hs, hb⟩ := blockAt?_eq_some_iff.1 hb
  obtain ⟨hi, -⟩ := Array.getElem?_eq_some_iff.1 hb
  exact ⟨hs, by unfold next; omega⟩

theorem exists_blockAt? {s : Nat} (hs : h.start ≤ s) (hn : s < h.next) :
    ∃ b, h.blockAt? s = some b := by
  have hi : s - h.start < h.blocks.size := by unfold next at hn; omega
  exact ⟨h.blocks[s - h.start], by rw [blockAt?_of_le hs, Array.getElem?_eq_getElem hi]⟩

theorem slot?_eq_some_iff {w : Word} {s : Nat} :
    h.slot? w = some s ↔ w.ref? = some ⟨s, h.epoch⟩ ∧ ∃ b, h.blockAt? s = some b := by
  simp only [slot?, Option.bind_eq_some_iff, Option.map_eq_some_iff]
  constructor
  · rintro ⟨⟨s', e⟩, hw, b, hb, rfl⟩
    obtain ⟨rfl, hb⟩ := lookup_eq_some_iff_blockAt?.1 hb
    exact ⟨hw, b, hb⟩
  · rintro ⟨hw, b, hb⟩
    exact ⟨⟨s, h.epoch⟩, hw, b, hb, rfl⟩

theorem slot?_of_ref?_eq_none {w : Word} (hw : w.ref? = none) : h.slot? w = none := by
  simp [slot?, hw]

theorem exists_block_of_slot? {w : Word} {s : Nat} (hw : h.slot? w = some s) :
    ∃ b, h.blockAt? s = some b := (slot?_eq_some_iff.1 hw).2

theorem bounds_of_slot? {w : Word} {s : Nat} (hw : h.slot? w = some s) :
    h.start ≤ s ∧ s < h.next := by
  obtain ⟨b, hb⟩ := exists_block_of_slot? hw
  exact bounds_of_blockAt? hb

theorem isCurrent_iff_slot? {w : Word} :
    h.isCurrent w = true ↔ w.ref? = none ∨ ∃ s, h.slot? w = some s := by
  rw [isCurrent_iff]
  constructor
  · intro hw
    cases hr : w.ref? with
    | none => exact .inl rfl
    | some r =>
      obtain ⟨b, hb⟩ := hw r hr
      exact .inr ⟨r.slot, by simp [slot?, hr, hb]⟩
  · rintro (hw | ⟨s, hs⟩) r hr
    · simp [hw] at hr
    · obtain ⟨hw, b, hb⟩ := slot?_eq_some_iff.1 hs
      rw [hw] at hr
      obtain rfl := Option.some.inj hr
      exact ⟨b, hb⟩

/-- Every word that the collector takes for a root. -/
def rootWords (h : Heap) : List Word :=
  h.roots ++ (h.registry.words ++ (h.builtins.words ++ h.pending.toList))

theorem mem_rootWords_of_entry {e : Bytes × Word} (he : e ∈ h.registry.entries) :
    e.2 ∈ h.rootWords := by
  simp only [rootWords, Registry.words, List.mem_append]
  exact .inr (.inl (List.mem_map_of_mem he))

theorem builtin_mem_rootWords (h : Heap) (b : Builtin) : h.builtin b ∈ h.rootWords := by
  cases b <;> simp [rootWords, Identities.words, builtin, Identities.get]

theorem mem_rootWords_of_pending {w : Word} (hw : h.pending = some w) : w ∈ h.rootWords := by
  simp [rootWords, hw]

def mapRoots (f : Word → Word) (h : Heap) : Heap :=
  { h with
    roots := h.roots.map f
    registry := h.registry.map f
    builtins := h.builtins.map f
    pending := h.pending.map f }

/-- The slots that can be reached from the words `ws` by following what resolves. -/
inductive Reaches (h : Heap) (ws : List Word) : Nat → Prop
  | word {w : Word} {s : Nat} : w ∈ ws → h.slot? w = some s → Reaches h ws s
  | field {s t : Nat} {b : Block} {w : Word} :
    Reaches h ws s → h.blockAt? s = some b → w ∈ b.fields → h.slot? w = some t → Reaches h ws t

theorem Reaches.mono {vs ws : List Word} {s : Nat} (hr : h.Reaches vs s) (hsub : vs ⊆ ws) :
    h.Reaches ws s := by
  induction hr with
  | word hw hs => exact .word (hsub hw) hs
  | field _ hb hw hs ih => exact .field ih hb hw hs

theorem Reaches.exists_block {ws : List Word} {s : Nat} (hs : h.Reaches ws s) :
    ∃ b, h.blockAt? s = some b := by
  cases hs with
  | word _ hw => exact exists_block_of_slot? hw
  | field _ _ _ hw => exact exists_block_of_slot? hw

end Heap
end MovingHeap

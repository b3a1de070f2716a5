import MovingHeap.Proofs.Collection.Preservation
import MovingHeap.Proofs.Heap.Lifetime

/-!
The builtin exceptions over the life of a heap. Main statement: their identities go on referring to
four objects with two fields each, and the name of the out-of-memory exception goes on standing for
its identity until something else is done with the name.
-/
namespace MovingHeap
namespace Heap

variable {h h' : Heap} {config : Config} {σ φ : Nat → Nat}

/-- The identities of the builtin exceptions refer to objects with two fields, each in a slot of its
own. -/
structure Distinguishes (h : Heap) (slot : Builtin → Nat) : Prop where
  slot? : ∀ b, h.slot? (h.builtin b) = some (slot b)
  object : ∀ b, ∃ c, h.blockAt? (slot b) = some c ∧ c.tag = .object ∧ c.fields.length = 2
  injective : Function.Injective slot

namespace Distinguishes

variable {slot : Builtin → Nat}

theorem mem_live (hd : Distinguishes h slot) (b : Builtin) : slot b ∈ h.live :=
  .word (h.builtin_mem_rootWords b) (hd.slot? b)

theorem relocate (hd : Distinguishes h slot) (hR : h.Relocation h' φ) :
    Distinguishes h' (φ ∘ slot) where
  slot? := by
    intro b
    rw [hR.builtins, renameWord, hd.slot? b]
    exact hR.resolves _ (hd.mem_live b)
  object := by
    intro b
    obtain ⟨c, hc, htag, hlen⟩ := hd.object b
    obtain ⟨c', d, hc', hd', htag', -, hfields⟩ := hR.block _ (hd.mem_live b)
    obtain rfl := Option.some.inj (hc.symm.trans hc')
    refine ⟨d, hd', htag'.trans htag, ?_⟩
    rw [hfields, List.length_map, hlen]
  injective := by
    intro b c he
    exact hd.injective (hR.bijective.injOn (hd.mem_live b) (hd.mem_live c) he)

theorem sameSpace (hd : Distinguishes h slot) (hs : SameSpace h h')
    (hb : h'.builtins = h.builtins) : Distinguishes h' slot where
  slot? := by
    intro b
    obtain ⟨hr, c, hc⟩ := slot?_eq_some_iff.1 (hd.slot? b)
    obtain ⟨c', hc', -⟩ := hs.blocks _ c hc
    rw [builtin, hb]
    exact slot?_eq_some_iff.2 ⟨hs.epoch ▸ hr, c', hc'⟩
  object := by
    intro b
    obtain ⟨c, hc, htag, hlen⟩ := hd.object b
    obtain ⟨c', hc', hr⟩ := hs.blocks _ c hc
    exact ⟨c', hc', hr.tag.trans htag, hr.length.trans hlen⟩
  injective := hd.injective

theorem step (hd : Distinguishes h slot) (hs : Step h h') (h₀ : h.Sound) :
    ∃ slot', Distinguishes h' slot' := by
  have hsound := hs.sound h₀
  rcases hs.sameSpace_or_collect with hsame | hc
  · refine ⟨slot, hd.sameSpace hsame ?_⟩
    cases hs with
    | collect hc =>
      obtain ⟨rfl, -⟩ := collect_eq_ok_iff.1 hc
      have hn := hsame.collections
      rw [collections_moved] at hn
      omega
    | setField hw =>
      obtain ⟨s, b, -, -, -, rfl⟩ := setField_eq_ok_iff.1 hw
      rfl
    | place | roots | register | unregister | pending | count => rfl
  · obtain ⟨rfl, -⟩ := collect_eq_ok_iff.1 hc
    exact ⟨_, hd.relocate (relocation_moved hsound)⟩

theorem steps (hd : Distinguishes h slot) (hs : h.Steps h') (h₀ : h.Sound) :
    ∃ slot', Distinguishes h' slot' := by
  induction hs with
  | refl => exact ⟨slot, hd⟩
  | tail hs hstep ih =>
    obtain ⟨_, hd'⟩ := ih
    exact hd'.step hstep (hs.sound h₀)

theorem builtin_ne (hd : Distinguishes h slot) {b c : Builtin} (hne : b ≠ c) :
    h.builtin b ≠ h.builtin c := by
  intro he
  have hb := hd.slot? b
  rw [he, hd.slot? c] at hb
  exact hne (hd.injective (Option.some.inj hb).symm)

theorem block (hd : Distinguishes h slot) (b : Builtin) :
    ∃ x y, h.block (h.builtin b) = .ok (some (.object [x, y])) := by
  obtain ⟨c, hc, htag, hlen⟩ := hd.object b
  cases c with
  | tuple | string => cases htag
  | object fields =>
    obtain ⟨x, y, rfl⟩ := List.length_eq_two.1 hlen
    exact ⟨x, y, block_eq_some_iff.2 ⟨slot b, hd.slot? b, hc⟩⟩

end Distinguishes

/-- Where the identities are in a new heap, each after its name. -/
def firstSlot : Builtin → Nat
  | .outOfMemory => 1
  | .failure => 3
  | .invalidArgument => 5
  | .notFound => 7

theorem distinguishes_new (config : Config) : Distinguishes (.new config) firstSlot := by
  have hdefault : Distinguishes (.new {}) firstSlot := {
    slot? := by
      intro b
      cases b <;> decide +kernel
    object := by
      intro b
      have hany : ((Heap.new {}).blockAt? (firstSlot b)).any
          (fun c => c.tag = .object ∧ c.fields.length = 2) = true := by
        cases b <;> decide +kernel
      simpa [Option.any_eq_true] using hany
    injective := by
      intro b c he
      cases b <;> cases c <;> simp_all [firstSlot] }
  exact hdefault.sameSpace (.of_sameStore ⟨rfl, rfl, rfl⟩ rfl) rfl

theorem Reachable.distinguishes (hr : Reachable config h) : ∃ slot, Distinguishes h slot :=
  (distinguishes_new config).steps hr.steps (new_sound config)

end Heap

theorem Registry.findEntry_map (f : Word → Word) (name : Bytes) (es : List (Bytes × Word)) :
    findEntry name (es.map fun e => (e.1, f e.2)) = (findEntry name es).map f := by
  induction es with
  | nil => rfl
  | cons e es ih =>
    rw [List.map_cons, findEntry, findEntry]
    by_cases he : name = e.1
    · rw [if_pos he, if_pos he]
      rfl
    · rw [if_neg he, if_neg he, ih]

/-- Whether the operation registers or unregisters something under `name`. -/
def Operation.renames (name : Bytes) : Operation → Bool
  | register other _ | unregister other => other == name
  | _ => false

theorem Operation.renames_of_allocates {o : Operation} (ho : o.allocates = true) (name : Bytes) :
    o.renames name = false := by
  cases o with
  | register | unregister => cases ho
  | _ => rfl

theorem Operation.named?_after {o : Operation} {name : Bytes} (ho : o.allocates = false)
    (hname : o.renames name = false) (h : Heap) :
    (o.after h).named? name = h.named? name ∧ (o.after h).builtins = h.builtins := by
  cases o with
  | setField w i x =>
    obtain ⟨blocks, he⟩ := exists_after_setField w i x h
    rw [he]
    exact ⟨rfl, rfl⟩
  | setRoot r w =>
    obtain ⟨rs, he⟩ := exists_after_setRoot r w h
    rw [he]
    exact ⟨rfl, rfl⟩
  | root | dropRoots | park | takePending => exact ⟨rfl, rfl⟩
  | register other w =>
    have hne : other ≠ name := by simpa [renames] using hname
    exact ⟨h.registry.find?_insert_of_ne hne.symm w, rfl⟩
  | unregister other =>
    have hne : other ≠ name := by simpa [renames] using hname
    exact ⟨h.registry.find?_erase_of_ne hne.symm, rfl⟩
  | _ => cases ho

namespace Heap

variable {h h' : Heap}

/-- The name of the out-of-memory exception stands for its identity. -/
def NamesOutOfMemory (h : Heap) : Prop :=
  h.named? (Utf8.encode Builtin.outOfMemory.name) = some (h.builtin .outOfMemory)

theorem namesOutOfMemory_new {config : Config} (hc : config.registerOutOfMemory = true) :
    (Heap.new config).NamesOutOfMemory := by
  have hregistry : (Heap.new config).registry = Registry.insert {}
      (Utf8.encode Builtin.outOfMemory.name) ((Heap.new config).builtin .outOfMemory) := by
    change (if config.registerOutOfMemory = true then _ else _) = _
    rw [if_pos hc]
    rfl
  rw [NamesOutOfMemory, named?, hregistry]
  exact Registry.find?_insert_self _ _ _

theorem NamesOutOfMemory.collect (hn : h.NamesOutOfMemory) (hc : h.collect = .ok h') :
    h'.NamesOutOfMemory := by
  obtain ⟨rfl, -⟩ := collect_eq_ok_iff.1 hc
  unfold NamesOutOfMemory named? Registry.find? at hn ⊢
  rw [registry_moved, Registry.findEntry_map, hn, builtin_moved]
  rfl

theorem admitsFrames_namesOutOfMemory :
    AdmitsFrames (fun h h' => h.NamesOutOfMemory → h'.NamesOutOfMemory)
      (fun h h' => h.NamesOutOfMemory → h'.NamesOutOfMemory) := by
  have hadmits : Admits fun h h' => h.NamesOutOfMemory → h'.NamesOutOfMemory := {
    refl := fun _ hn => hn
    trans := fun hn hn' h₀ => hn' (hn h₀)
    collect := fun hc hn => hn.collect hc
    place := fun _ _ hn => hn
    held := fun _ hn => hn }
  exact {
    hadmits with
    inner := hadmits
    root := fun _ _ hn => hn
    leave := fun hn => hn }

theorem NamesOutOfMemory.after (hn : h.NamesOutOfMemory) {o : Operation}
    (ho : o.renames (Utf8.encode Builtin.outOfMemory.name) = false) :
    (o.after h).NamesOutOfMemory := by
  by_cases ha : o.allocates = true
  · exact o.after_along admitsFrames_namesOutOfMemory (fun _ _ _ hn => hn) ha h hn
  · obtain ⟨hnamed, hbuiltins⟩ := Operation.named?_after (Bool.eq_false_iff.2 ha) ho h
    rw [NamesOutOfMemory, hnamed, builtin, hbuiltins]
    exact hn

theorem NamesOutOfMemory.perform (hn : h.NamesOutOfMemory) {os : List Operation}
    (hos : ∀ o ∈ os, o.renames (Utf8.encode Builtin.outOfMemory.name) = false) :
    (h.perform os).NamesOutOfMemory := by
  induction os generalizing h with
  | nil => exact hn
  | cons o os ih =>
    obtain ⟨ho, hos⟩ := List.forall_mem_cons.1 hos
    exact ih (hn.after ho) hos

end Heap
end MovingHeap

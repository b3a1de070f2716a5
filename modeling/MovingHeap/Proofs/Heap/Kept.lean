import MovingHeap.Proofs.Collection.Preservation
import MovingHeap.Proofs.Heap.Lifetime

/-!
What allocations leave of a heap. Main statement: whatever the roots reach is still there, in the
same places of the graph, with its words turned into others by the collections on the way.
-/
namespace MovingHeap

namespace Block

@[simp]
theorem mapFields_id (b : Block) : b.mapFields id = b := by simp [mapFields]

theorem mapFields_mapFields (f g : Word → Word) (b : Block) :
    (b.mapFields f).mapFields g = b.mapFields (g ∘ f) := by
  cases b <;> simp [mapFields, withFields, fields]

end Block

theorem Registry.map_id (r : Registry) : r.map id = r := by simp [Registry.map]

namespace Heap

variable {h h' h'' : Heap} {w : Word} {s : Nat} {b : Block} {f g : Word → Word} {φ ψ : Nat → Nat}

/-- `w` is a root or a field of a block that the roots reach. -/
def Holds (h : Heap) (w : Word) : Prop :=
  w ∈ h.rootWords ∨ ∃ s b, s ∈ h.live ∧ h.blockAt? s = some b ∧ w ∈ b.fields

theorem Holds.mem_live (hw : h.Holds w) (hs : h.slot? w = some s) : s ∈ h.live := by
  rcases hw with hw | ⟨t, b, ht, hb, hw⟩
  · exact .word hw hs
  · exact .field ht hb hw hs

/-- `w` is an immediate, or a reference to a slot that is no longer in use. -/
def Settled (h : Heap) (w : Word) : Prop := ∀ r, w.ref? = some r → r.slot < h.start

theorem Settled.slot?_eq_none (hw : h.Settled w) : h.slot? w = none := by
  cases hs : h.slot? w with
  | none => rfl
  | some s =>
    have hlt := hw _ (slot?_eq_some_iff.1 hs).1
    have hle := (bounds_of_slot? hs).1
    exact absurd hlt (by simpa using hle)

theorem Settled.mono (hw : h.Settled w) (hle : h.start ≤ h'.start) : h'.Settled w :=
  fun r hr => Nat.lt_of_lt_of_le (hw r hr) hle

/-- `h` leads to `h'` by steps, and the collections among them turn `w` into `f w`. -/
inductive Drifts (h : Heap) : (Word → Word) → Heap → Prop
  | refl : Drifts h id h
  | collect {f : Word → Word} {h' h'' : Heap} :
    Drifts h f h' → h'.collect = .ok h'' → Drifts h (h'.carry ∘ f) h''
  | step {f : Word → Word} {h' h'' : Heap} :
    Drifts h f h' → Step h' h'' → h''.collections = h'.collections → Drifts h f h''

namespace Drifts

theorem trans (hf : h.Drifts f h') (hg : h'.Drifts g h'') : h.Drifts (g ∘ f) h'' := by
  induction hg with
  | refl => exact hf
  | collect _ hc ih => exact .collect ih hc
  | step _ hs hn ih => exact .step ih hs hn

theorem single (hs : Step h h') (hn : h'.collections = h.collections) : h.Drifts id h' :=
  .step .refl hs hn

theorem steps (hf : h.Drifts f h') : h.Steps h' := by
  induction hf with
  | refl => exact .refl
  | collect _ hc ih => exact ih.tail (.collect hc)
  | step _ hs _ ih => exact ih.tail hs

end Drifts

theorem Steps.start_le (hs : h.Steps h') : h.start ≤ h'.start := by
  rcases hs.sameSpace_or_past with hsame | ⟨-, hle⟩
  · exact Nat.le_of_eq hsame.start.symm
  · exact Nat.le_trans (Nat.le_add_right _ _) hle

/-- No collection touches what is settled. -/
theorem Drifts.fixes (hf : h.Drifts f h') (hw : h.Settled w) : f w = w := by
  induction hf with
  | refl => rfl
  | collect hd _ ih =>
    rw [Function.comp_apply, ih]
    exact carry_of_slot?_eq_none (hw.mono hd.steps.start_le).slot?_eq_none
  | step _ _ _ ih => exact ih

/-- All that the roots of `h` reach is in `h'`, with every slot `s` renamed to `φ s` and every word
`w` turned into `f w`. Further roots may have been pushed. -/
structure Keeps (f : Word → Word) (φ : Nat → Nat) (h h' : Heap) : Prop where
  drifts : h.Drifts f h'
  roots : h'.roots.take h.roots.length = h.roots.map f
  registry : h'.registry = h.registry.map f
  builtins : h'.builtins = h.builtins.map f
  pending : h'.pending = h.pending.map f
  slot : ∀ w s, h.Holds w → h.slot? w = some s → h'.slot? (f w) = some (φ s)
  block : ∀ s ∈ h.live, ∀ b, h.blockAt? s = some b → h'.blockAt? (φ s) = some (b.mapFields f)
  injective : Set.InjOn φ h.live

/-- A change that moves nothing keeps everything. -/
theorem Keeps.of_blocks (hd : h.Drifts id h')
    (hroots : h'.roots.take h.roots.length = h.roots) (hregistry : h'.registry = h.registry)
    (hbuiltins : h'.builtins = h.builtins) (hpending : h'.pending = h.pending)
    (hslot : ∀ w s, h.slot? w = some s → h'.slot? w = some s)
    (hblock : ∀ s b, h.blockAt? s = some b → h'.blockAt? s = some b) : Keeps id id h h' where
  drifts := hd
  roots := by rw [hroots, List.map_id]
  registry := by rw [hregistry, Registry.map_id]
  builtins := hbuiltins
  pending := by rw [hpending, Option.map_id_fun, id]
  slot := fun w s _ hs => hslot w s hs
  block := by
    intro s _ b hb
    rw [Block.mapFields_id]
    exact hblock s b hb
  injective := Function.injective_id.injOn

theorem Keeps.refl (h : Heap) : Keeps id id h h :=
  .of_blocks .refl List.take_length rfl rfl rfl (fun _ _ hs => hs) fun _ _ hb => hb

theorem Keeps.collect (h₀ : h.Sound) (hc : h.collect = .ok h') : Keeps h.carry h.newSlot h h' := by
  have hsound : h'.Sound := (Step.collect hc).sound h₀
  obtain ⟨rfl, -⟩ := collect_eq_ok_iff.1 hc
  have hR := relocation_moved hsound
  exact {
    drifts := .collect .refl hc
    roots := by
      rw [roots_moved]
      exact List.take_of_length_le (by simp)
    registry := by rw [moved_eq]; rfl
    builtins := by rw [moved_eq]; rfl
    pending := h.pending_moved
    slot := by
      intro w s hw hs
      have hmem := hw.mem_live hs
      rw [carry_of_slot? hs (mem_live_iff.1 hmem)]
      exact hR.resolves s hmem
    block := fun s hs b hb => blockAt?_moved_newSlot (mem_live_iff.1 hs) hb
    injective := h.newSlot_bijOn.injOn }

theorem Keeps.place (b : Block) (hn : h.next ≤ maxSlot) : Keeps id id h (h.place b).2 := by
  apply Keeps.of_blocks (.single (.place b hn) rfl) List.take_length rfl rfl rfl
  · exact fun w s => slot?_place b
  · intro s c hc
    have hlt := (bounds_of_blockAt? hc).2
    rw [blockAt?_place, if_neg (by omega), hc]

theorem Keeps.of_sameStore (hd : h.Drifts id h') (hs : SameStore h h')
    (hroots : h'.roots.take h.roots.length = h.roots) (hregistry : h'.registry = h.registry)
    (hbuiltins : h'.builtins = h.builtins) (hpending : h'.pending = h.pending) :
    Keeps id id h h' :=
  .of_blocks hd hroots hregistry hbuiltins hpending (fun w _ hw => (hs.slot? w).trans hw)
    fun s _ hb => (hs.blockAt? s).trans hb

theorem Keeps.hold (h : Heap) (ws : List Word) : Keeps id id h (h.hold ws) :=
  .of_sameStore (.single (.roots _) rfl) ⟨rfl, rfl, rfl⟩ List.take_left rfl rfl rfl

theorem Keeps.count (h : Heap) : Keeps id id h { h with identities := h.nextIdentity } :=
  .of_sameStore (.single .count rfl) ⟨rfl, rfl, rfl⟩ List.take_length rfl rfl rfl

/-- The younger roots may be dropped. -/
theorem Keeps.truncateRoots (hk : Keeps f φ h h') :
    Keeps f φ h (h'.truncateRoots h.roots.length) where
  drifts := .step hk.drifts (.roots _) rfl
  roots := by
    rw [roots_truncateRoots, List.take_take, Nat.min_self]
    exact hk.roots
  registry := hk.registry
  builtins := hk.builtins
  pending := hk.pending
  slot := hk.slot
  block := hk.block
  injective := hk.injective

namespace Keeps

theorem rootWord (hk : Keeps f φ h h') (hw : w ∈ h.rootWords) : f w ∈ h'.rootWords := by
  simp only [rootWords, List.mem_append] at hw ⊢
  rcases hw with hw | hw | hw | hw
  · left
    apply List.mem_of_mem_take (i := h.roots.length)
    rw [hk.roots]
    exact List.mem_map_of_mem hw
  · right; left
    obtain ⟨e, he, rfl⟩ := List.mem_map.1 hw
    rw [hk.registry]
    exact List.mem_map.2 ⟨_, List.mem_map_of_mem he, rfl⟩
  · right; right; left
    rw [hk.builtins]
    exact List.mem_map_of_mem (f := f) hw
  · right; right; right
    rw [hk.pending, Option.toList_map]
    exact List.mem_map_of_mem hw

theorem mem_live (hk : Keeps f φ h h') (hs : s ∈ h.live) : φ s ∈ h'.live := by
  induction hs with
  | word hw hs => exact .word (hk.rootWord hw) (hk.slot _ _ (.inl hw) hs)
  | field ht hb hw hs ih =>
    have hfield := List.mem_map_of_mem (f := f) hw
    rw [← Block.fields_mapFields] at hfield
    exact .field ih (hk.block _ ht _ hb) hfield (hk.slot _ _ (.inr ⟨_, _, ht, hb, hw⟩) hs)

theorem holds (hk : Keeps f φ h h') (hw : h.Holds w) : h'.Holds (f w) := by
  rcases hw with hw | ⟨s, b, hs, hb, hw⟩
  · exact .inl (hk.rootWord hw)
  · refine .inr ⟨φ s, _, hk.mem_live hs, hk.block s hs b hb, ?_⟩
    rw [Block.fields_mapFields]
    exact List.mem_map_of_mem hw

theorem builtin (hk : Keeps f φ h h') (b : Builtin) : h'.builtin b = f (h.builtin b) := by
  rw [Heap.builtin, hk.builtins]
  cases b <;> rfl

theorem roots_length_le (hk : Keeps f φ h h') : h.roots.length ≤ h'.roots.length := by
  have hlen := congrArg List.length hk.roots
  rw [List.length_take, List.length_map] at hlen
  omega

theorem trans (hk : Keeps f φ h h') (hk' : Keeps g ψ h' h'') : Keeps (g ∘ f) (ψ ∘ φ) h h'' where
  drifts := hk.drifts.trans hk'.drifts
  roots := by
    calc h''.roots.take h.roots.length
        = (h''.roots.take h'.roots.length).take h.roots.length := by
          rw [List.take_take, Nat.min_eq_left hk.roots_length_le]
      _ = (h'.roots.take h.roots.length).map g := by rw [hk'.roots, List.map_take]
      _ = h.roots.map (g ∘ f) := by rw [hk.roots, List.map_map]
  registry := by
    rw [hk'.registry, hk.registry]
    simp [Registry.map]
  builtins := by
    rw [hk'.builtins, hk.builtins]
    rfl
  pending := by rw [hk'.pending, hk.pending, Option.map_map]
  slot := fun w s hw hs => hk'.slot _ _ (hk.holds hw) (hk.slot w s hw hs)
  block := by
    intro s hs b hb
    rw [← Block.mapFields_mapFields]
    exact hk'.block _ (hk.mem_live hs) _ (hk.block s hs b hb)
  injective := hk'.injective.comp hk.injective fun s hs => hk.mem_live hs

end Keeps

/-- What the roots of `h` reach is kept. -/
def Kept (h h' : Heap) : Prop := h.Sound → ∃ f φ, Keeps f φ h h'

theorem admitsFrames_kept : AdmitsFrames Kept Kept := by
  have hadmits : Admits Kept := {
    refl := fun h _ => ⟨id, id, .refl h⟩
    trans := by
      intro h h' h'' hk hk' h₀
      obtain ⟨f, φ, hf⟩ := hk h₀
      obtain ⟨g, ψ, hg⟩ := hk' (hf.drifts.steps.sound h₀)
      exact ⟨_, _, hf.trans hg⟩
    collect := fun hc h₀ => ⟨_, _, .collect h₀ hc⟩
    place := fun b hn _ => ⟨id, id, .place b hn⟩
    held := by
      intro h h' ws hk h₀
      obtain ⟨f, φ, hf⟩ := hk (h₀.hold ws)
      exact ⟨_, _, ((Keeps.hold h ws).trans hf).truncateRoots⟩ }
  exact {
    hadmits with
    inner := hadmits
    root := fun h w _ => ⟨id, id, .hold h [w]⟩
    leave := by
      intro h h' hk h₀
      obtain ⟨f, φ, hf⟩ := hk h₀
      exact ⟨f, φ, hf.truncateRoots⟩ }

end Heap

theorem Operation.kept_after {o : Operation} (ho : o.allocates = true) (h : Heap) :
    Heap.Kept h (o.after h) :=
  after_along Heap.admitsFrames_kept (fun _ _ h _ => ⟨id, id, .count h⟩) ho h

/-- What an operation can do to a heap: move what is there and place blocks, write a field, or
change no block and no identity. -/
theorem Operation.after_cases {h : Heap} (o : Operation) (h₀ : h.Sound) :
    (∃ f φ, Heap.Keeps f φ h (o.after h)) ∨
    (∃ w i x, o = setField w i x ∧ h.setField w i x = .ok (o.after h)) ∨
    (h.Drifts id (o.after h) ∧ h.SameStore (o.after h) ∧ (o.after h).builtins = h.builtins ∧
      (o.settles = false → (o.after h).pending = h.pending)) := by
  by_cases ha : o.allocates = true
  · exact .inl (kept_after ha h h₀)
  cases o with
  | setField w i x =>
    have hafter : (setField w i x).after h = _ := after_of_update rfl h
    cases hr : h.setField w i x with
    | ok h' =>
      rw [hr] at hafter
      exact .inr (.inl ⟨w, i, x, rfl, hr.trans (congrArg Except.ok hafter.symm)⟩)
    | error e =>
      rw [hr] at hafter
      rw [hafter]
      exact .inl ⟨id, id, .refl h⟩
  | setRoot r w =>
    obtain ⟨rs, he⟩ := exists_after_setRoot r w h
    rw [he]
    exact .inr (.inr ⟨.single (.roots rs) rfl, ⟨rfl, rfl, rfl⟩, rfl, fun _ => rfl⟩)
  | root | dropRoots =>
    exact .inr (.inr ⟨.single (.roots _) rfl, ⟨rfl, rfl, rfl⟩, rfl, fun _ => rfl⟩)
  | register name w =>
    exact .inr (.inr ⟨.single (.register name w) rfl, ⟨rfl, rfl, rfl⟩, rfl, fun _ => rfl⟩)
  | unregister name =>
    exact .inr (.inr ⟨.single (.unregister name) rfl, ⟨rfl, rfl, rfl⟩, rfl, fun _ => rfl⟩)
  | park | takePending =>
    exact .inr (.inr ⟨.single (.pending _) rfl, ⟨rfl, rfl, rfl⟩, rfl, fun ho => by cases ho⟩)
  | _ => exact absurd rfl ha

end MovingHeap

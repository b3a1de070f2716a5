import MovingHeap.Proofs.Heap.Names

/-!
The places where a heap keeps a word for its users: a root, a name, and the pending exception. The
collections bring the word up to date; it is otherwise the same until another is put there.
-/
namespace MovingHeap

inductive Place
  | root (index : Nat)
  | name (bytes : Bytes)
  | pending

namespace Place

/-- The word in the place, if there is one. -/
def value? (h : Heap) : Place → Option Word
  | root index => h.roots[index]?
  | name bytes => h.named? bytes
  | pending => h.pending

variable {h h' : Heap} {f : Word → Word} {φ : Nat → Nat} {p : Place} {v : Word}

theorem holds (hv : p.value? h = some v) : h.Holds v := by
  left
  simp only [Heap.rootWords, List.mem_append]
  cases p with
  | root index => exact .inl (List.mem_of_getElem? hv)
  | name bytes => exact .inr (.inl (Registry.mem_words_of_find? hv))
  | pending => exact .inr (.inr (.inr (Option.mem_toList.2 hv)))

theorem value?_of_keeps (hk : Heap.Keeps f φ h h') (hv : p.value? h = some v) :
    p.value? h' = some (f v) := by
  cases p with
  | root index =>
    have hlt : index < h.roots.length := (List.getElem?_eq_some_iff.1 hv).1
    calc h'.roots[index]?
        = (h'.roots.take h.roots.length)[index]? := (List.getElem?_take_of_lt hlt).symm
      _ = h.roots[index]?.map f := by rw [hk.roots, List.getElem?_map]
      _ = some (f v) := congrArg (Option.map f) hv
  | name bytes =>
    have hfind : Registry.findEntry bytes h.registry.entries = some v := hv
    change Registry.findEntry bytes h'.registry.entries = some (f v)
    rw [hk.registry, Registry.map, Registry.findEntry_map, hfind, Option.map_some]
  | pending => exact hk.pending.trans (congrArg (Option.map f) hv)

end Place

namespace Operation

/-- The operation writes a field of the block that `v` refers to. -/
def Writes (o : Operation) (v : Word) (h : Heap) : Prop :=
  ∃ w i x s, o = .setField w i x ∧ h.setField w i x = .ok (o.after h) ∧ h.slot? w = some s ∧
    h.slot? v = some s

/-- The operation leaves the word in the place `p` to the collections, and does not write to the
block that it refers to. -/
def Spares (p : Place) (o : Operation) (h : Heap) : Prop :=
  (o.allocates = false → p.value? (o.after h) = p.value? h) ∧
    ∀ v, p.value? h = some v → ¬ o.Writes v h

/-- Whether the operation does nothing to a heap but change what it keeps for its users, and where.
-/
def rearranges : Operation → Bool
  | root _ | setRoot _ _ | dropRoots _ | register _ _ | unregister _ | park _ | takePending => true
  | _ => false

theorem sameStore_after {o : Operation} (ho : o.rearranges = true) (h : Heap) :
    h.SameStore (o.after h) := by
  cases o with
  | setRoot r w =>
    obtain ⟨rs, he⟩ := exists_after_setRoot r w h
    rw [he]
    exact ⟨rfl, rfl, rfl⟩
  | root | dropRoots | register | unregister | park | takePending => exact ⟨rfl, rfl, rfl⟩
  | _ => cases ho

end Operation

namespace Heap

/-- Each of the operations, done one after the other, spares the place `p`. -/
def Spared (p : Place) : List Operation → Heap → Prop
  | [], _ => True
  | o :: os, h => o.Spares p h ∧ Spared p os (o.after h)

/-- Collections and allocations spare every place. -/
theorem spared_of_allocates {p : Place} {os : List Operation} (hos : ∀ o ∈ os, o.allocates = true)
    (h : Heap) : h.Spared p os := by
  induction os generalizing h with
  | nil => trivial
  | cons o os ih =>
    obtain ⟨ho, hrest⟩ := List.forall_mem_cons.1 hos
    refine ⟨⟨fun hno => by simp [ho] at hno, ?_⟩, ih hrest (o.after h)⟩
    rintro v - ⟨w, i, x, s, rfl, -⟩
    cases ho

theorem sameStore_perform {os : List Operation} (hos : ∀ o ∈ os, o.rearranges = true) (h : Heap) :
    h.SameStore (h.perform os) := by
  induction os generalizing h with
  | nil => exact ⟨rfl, rfl, rfl⟩
  | cons o os ih =>
    obtain ⟨ho, hrest⟩ := List.forall_mem_cons.1 hos
    have hs := Operation.sameStore_after ho h
    have hs' := ih hrest (o.after h)
    exact ⟨hs'.blocks.trans hs.blocks, hs'.start.trans hs.start, hs'.epoch.trans hs.epoch⟩

/-- What a property says of a word goes on being so of the word that the collections turn it into,
unless the block that it refers to is written to. -/
structure Lasting (P : Heap → Word → Prop) : Prop where
  of_sameStore : ∀ {h h' : Heap} {v : Word}, P h v → SameStore h h' → P h' v
  of_keeps : ∀ {h h' : Heap} {v : Word} {f : Word → Word} {φ : Nat → Nat}, P h v →
    Keeps f φ h h' → h.Holds v → P h' (f v)
  of_setField : ∀ {h h' : Heap} {v w x : Word} {i : Nat}, P h v → h.setField w i x = .ok h' →
    (∀ s, h.slot? w = some s → h.slot? v ≠ some s) → P h' v

theorem lasting_string (bytes : Bytes) :
    Lasting fun h v => h.block v = .ok (some (.string bytes)) where
  of_sameStore := fun hb hs => hs.block_eq hb
  of_keeps := fun hb hk hv => hk.block_eq hv hb
  of_setField := fun hb hset _ => block_of_setField hset hb nofun

namespace Lasting

variable {P : Heap → Word → Prop} {h : Heap} {p : Place} {v : Word}

theorem after (hP : Lasting P) (hp : P h v) (h₀ : h.Sound) (hv : p.value? h = some v)
    {o : Operation} (ho : o.Spares p h) :
    ∃ w, p.value? (o.after h) = some w ∧ P (o.after h) w := by
  obtain ⟨hplace, hwrites⟩ := ho
  by_cases hallocates : o.allocates = true
  · obtain ⟨f, φ, hk⟩ := Operation.kept_after hallocates h h₀
    exact ⟨f v, Place.value?_of_keeps hk hv, hP.of_keeps hp hk (Place.holds hv)⟩
  have hsame : p.value? (o.after h) = some v :=
    (hplace (Bool.eq_false_iff.2 hallocates)).trans hv
  rcases o.after_cases h₀ with ⟨f, φ, hk⟩ | ⟨w, i, x, rfl, hset⟩ | ⟨-, hstore, -⟩
  · exact ⟨f v, Place.value?_of_keeps hk hv, hP.of_keeps hp hk (Place.holds hv)⟩
  · refine ⟨v, hsame, hP.of_setField hp hset fun s hw hv' => ?_⟩
    exact hwrites v hv ⟨w, i, x, s, rfl, hset, hw, hv'⟩
  · exact ⟨v, hsame, hP.of_sameStore hp hstore⟩

theorem perform (hP : Lasting P) (hp : P h v) (h₀ : h.Sound) (hv : p.value? h = some v)
    {os : List Operation} (hos : h.Spared p os) :
    ∃ w, p.value? (h.perform os) = some w ∧ P (h.perform os) w := by
  induction os generalizing h v with
  | nil => exact ⟨v, hv, hp⟩
  | cons o os ih =>
    obtain ⟨w, hw, hpw⟩ := hP.after hp h₀ hv hos.1
    exact ih hpw ((o.steps_after h).sound h₀) hw hos.2

end Lasting

/-- In `h'` the word `w` of `h` is `w'`: no time has passed, or it was put into a place that is kept
for the users, where it was found again after operations that left the place to the collections. -/
def Recovers (h : Heap) (w : Word) (h' : Heap) (w' : Word) : Prop :=
  h' = h ∧ w' = w ∨ ∃ (p : Place) (stores os : List Operation),
    (∀ o ∈ stores, o.rearranges = true) ∧ p.value? (h.perform stores) = some w ∧
      (h.perform stores).Spared p os ∧ h' = h.perform (stores ++ os) ∧ p.value? h' = some w'

namespace Recovers

variable {P : Heap → Word → Prop} {config : Config} {h h' : Heap} {w w' : Word}

theorem reachable (hf : Recovers h w h' w') (hr : Reachable config h) : Reachable config h' := by
  rcases hf with ⟨rfl, -⟩ | ⟨p, stores, os, -, -, -, rfl, -⟩
  · exact hr
  · exact hr.perform _

theorem lasting (hf : Recovers h w h' w') (hP : Lasting P) (hp : P h w) (h₀ : h.Sound) :
    P h' w' := by
  rcases hf with ⟨rfl, rfl⟩ | ⟨p, stores, os, hstores, hw, hos, rfl, hw'⟩
  · exact hp
  · have hstored := hP.of_sameStore hp (sameStore_perform hstores h)
    have hsound := (h.steps_perform stores).sound h₀
    obtain ⟨v, hv, hlater⟩ := hP.perform hstored hsound hw hos
    rw [perform_append] at hw' ⊢
    obtain rfl := Option.some.inj (hv.symm.trans hw')
    exact hlater

end Recovers

end Heap
end MovingHeap

import MovingHeap.Proofs.Heap.Place
import MovingHeap.Proofs.Native.Mapping
import MovingHeap.Proofs.Schedule.Collection

/-!
Arrays of strings. Main statements: what an array of strings spells is lost only by a write to the
array, whatever else is done while it is kept for the users; and its conversion gives what it
spells, each string up to its first zero byte.
-/
namespace MovingHeap
namespace Heap

variable {h h' : Heap} {f : Word → Word} {φ : Nat → Nat} {v w x : Word} {i : Nat} {p : Place}
  {items : List Bytes}

/-- `v` refers to an array of strings with these bytes. -/
def Spells (h : Heap) (v : Word) (items : List Bytes) : Prop :=
  ∃ ws, h.block v = .ok (some (.tuple ws)) ∧
    List.Forall₂ (fun w bytes => h.block w = .ok (some (.string bytes))) ws items

namespace Spells

theorem fits (hs : h.Spells v items) : h.Fits (.array .string) v := by
  obtain ⟨ws, hv, hws⟩ := hs
  have hfit : ∀ w ∈ ws, h.Fits .string w := by
    clear hv
    induction hws with
    | nil => simp
    | cons hb _ ih => exact List.forall_mem_cons.2 ⟨⟨_, hb⟩, ih⟩
  exact ⟨ws, hv, hfit⟩

theorem of_sameStore (hs : h.Spells v items) (hsame : SameStore h h') : h'.Spells v items := by
  obtain ⟨ws, hv, hws⟩ := hs
  exact ⟨ws, hsame.block_eq hv, hws.imp fun _ _ hb => hsame.block_eq hb⟩

theorem of_keeps (hs : h.Spells v items) (hk : Keeps f φ h h') (hv : h.Holds v) :
    h'.Spells (f v) items := by
  obtain ⟨ws, hb, hws⟩ := hs
  refine ⟨ws.map f, hk.block_eq hv hb, forall₂_map_left_of_mem hws fun w hw bytes hstring => ?_⟩
  exact hk.block_eq (hv.of_block hb hw) hstring

theorem of_setField (hs : h.Spells v items) (hset : h.setField w i x = .ok h')
    (hne : ∀ s, h.slot? w = some s → h.slot? v ≠ some s) : h'.Spells v items := by
  obtain ⟨ws, hv, hws⟩ := hs
  refine ⟨ws, block_of_setField hset hv fun _ => hne, hws.imp fun y bytes hb => ?_⟩
  exact block_of_setField hset hb nofun

/-- Operations that spare the place of the array keep what it spells. -/
theorem perform {os : List Operation} (hs : h.Spells v items) (h₀ : h.Sound)
    (hv : p.value? h = some v) (hos : h.Spared p os) :
    ∃ w, p.value? (h.perform os) = some w ∧ (h.perform os).Spells w items := by
  have hlasting : Lasting fun h v => h.Spells v items := ⟨of_sameStore, of_keeps, of_setField⟩
  exact hlasting.perform hs h₀ hv hos

end Spells
end Heap

/-- The requests are served that an array with copies of these strings takes. -/
def NativeMemory.Serves (m : NativeMemory) (items : List Bytes) : Prop :=
  m.GrantsAll (Native.arraySize items.length :: items.map fun bytes => bytes.length + 1)

namespace Native

variable {σ : Type} {h : Heap} {v w : Word} {bytes : Bytes} {items : List Bytes}

theorem ofString_apply (hw : h.block w = .ok (some (.string bytes))) {t : NativeMemory × σ}
    (ht : t.1.grants t.1.requests (bytes.length + 1) = true) :
    ofString h ⟨w⟩ t = .ok { place := t.1.regions.size, bytes } (t.1.copied bytes, t.2) := by
  unfold ofString
  rw [read_bind (Heap.bytes_of_block hw), copy_of_grants h ht]

/-- Strings are copied one after the other, each to a new place, and the copies stay while others
are made. -/
theorem mapM_ofString {ys : List (Handle .string)}
    (hys : List.Forall₂ (fun y bytes => h.block y.word = .ok (some (.string bytes))) ys items)
    {t : NativeMemory × σ} (ht : t.1.GrantsAll (items.map fun bytes => bytes.length + 1)) :
    ∃ bs m, ys.mapM (ofString h) t = .ok bs (m, t.2) ∧ t.1.Grows items.length m ∧
      bs.map Buffer.bytes = items ∧ ∀ b ∈ bs, t.1.regions.size ≤ b.place ∧ m.Holds b := by
  induction hys generalizing t with
  | nil => exact ⟨[], t.1, rfl, .refl t.1, rfl, by simp⟩
  | @cons y bytes ys items hy _ ih =>
    have hfirst := ofString_apply hy ht.head
    have hcopied := NativeMemory.Grows.copied t.1 bytes
    obtain ⟨bs, m, hrest, hgrows, hbytes, hholds⟩ := ih (t := (t.1.copied bytes, t.2))
      (ht.tail hcopied)
    refine ⟨{ place := t.1.regions.size, bytes } :: bs, m, ?_, ?_, ?_, ?_⟩
    · rw [List.mapM_cons, Mutator.bind_apply, hfirst]
      simp only [Mutator.bind_apply, hrest]
      rfl
    · rw [List.length_cons, Nat.add_comm]
      exact hcopied.trans hgrows
    · rw [List.map_cons, hbytes]
    · have hsize := hcopied.retains.size_le
      have hhead := (NativeMemory.holds_copied t.1 bytes).of_retains hgrows.retains
      exact List.forall_mem_cons.2 ⟨⟨Nat.le_refl _, hhead⟩, fun b hb =>
        (hholds b hb).imp_left (Nat.le_trans hsize)⟩

/-- An array of strings is copied string by string. Afterwards its region has the pointers, and
those of the copies have the strings with their terminators. -/
theorem ofStrings_apply (hs : h.Spells v items) (hne : items ≠ []) {t : NativeMemory × σ}
    (ht : t.1.Serves items) :
    ∃ a m, ofStrings h ⟨v⟩ t = .ok (some a) (m, t.2) ∧ t.1.Grows (items.length + 1) m ∧
      a.items.map Buffer.bytes = items ∧ (∀ b ∈ a.items, m.Holds b) ∧
      m.Filled a.place (arraySize items.length) (.pointers (a.items.map Buffer.place)) := by
  obtain ⟨ws, hv, hws⟩ := hs
  have hlen := hws.length_eq
  rw [← Handle.map_word_map_mk (s := .string) ws] at hv
  have hys : ws.map (Handle.mk : Word → Handle .string) ≠ [] := by
    rw [Ne, List.map_eq_nil_iff, ← List.length_eq_zero_iff, hlen]
    simpa using hne
  have hgranted := ht.head
  have hserved := NativeMemory.Grows.serve t.1 (arraySize items.length)
  obtain ⟨bs, m, hcopies, hgrows, hbytes, hholds⟩ := mapM_ofString (h := h)
    (List.forall₂_map_left_iff.2 hws) (t := prepared items.length t) (ht.tail hserved)
  have hcount : bs.length = items.length := by rw [← hbytes, List.length_map]
  have hsize : (prepared items.length t).1.regions.size = t.1.regions.size + 1 :=
    Array.size_push _
  refine ⟨gathered t bs, (pointed t bs (m, t.2)).1, ?_, ?_, hbytes, ?_, ?_⟩
  · rw [ofStrings, mapArray_apply hv, if_neg hys, List.length_map, hlen, hgranted,
      if_neg Bool.true_eq_false.mp, hcopies]
    rfl
  · rw [Nat.add_comm]
    exact (hserved.trans hgrows).write (Nat.le_refl _) _
  · intro b hb
    obtain ⟨hnew, hb⟩ := hholds b hb
    have hne : t.1.regions.size ≠ b.place := by omega
    exact hb.write_of_ne hne _
  · exact filled_pointed hcount (covers_of_grants hgranted) hgrows.retains

theorem ofStrings_nil (hs : h.Spells v []) (t : NativeMemory × σ) :
    ofStrings h ⟨v⟩ t = .ok none t := by
  obtain ⟨ws, hv, hws⟩ := hs
  obtain rfl := List.forall₂_nil_right_iff.1 hws
  have hnone : h.block v = .ok (some (.tuple (([] : List (Handle .string)).map Handle.word))) := hv
  rw [ofStrings, mapArray_apply hnone, if_pos rfl]

end Native

namespace Heap

open Native (ofStrings)

/-- `v` is a current word that spells `items` and is accepted as an array of strings. Its conversion
gives nothing for no strings, at no cost; otherwise an array of as many copies, each of which shows
its string up to the first zero byte, for one request a string and one for the array. Afterwards
there are the pointers in a region that was asked for with their size, and every copy with its
terminator in one of theirs; what was in native memory before is still there. -/
structure Transcribes (h : Heap) (v : Word) (items : List Bytes) : Prop where
  current : h.isCurrent v = true
  spells : h.Spells v items
  narrow : h.narrow (.array .string) v = .ok (.ok ⟨v⟩)
  empty : items = [] → ∀ {σ : Type} (t : NativeMemory × σ), ofStrings h ⟨v⟩ t = .ok none t
  copies : items ≠ [] → ∀ {σ : Type} (t : NativeMemory × σ), t.1.Serves items →
    ∃ a m, ofStrings h ⟨v⟩ t = .ok (some a) (m, t.2) ∧ t.1.Grows (items.length + 1) m ∧
      a.length = items.length ∧ (∀ i, a.item? i = items[i]?.map cString) ∧
      (∀ b ∈ a.items, m.Holds b) ∧ a.length * pointerSize ≤ Native.arraySize items.length ∧
      m.Filled a.place (Native.arraySize items.length) (.pointers (a.items.map Buffer.place))

theorem Spells.transcribes {h : Heap} {v : Word} {items : List Bytes} (hs : h.Spells v items) :
    h.Transcribes v items where
  current := by
    obtain ⟨ws, hv, -⟩ := hs
    exact isCurrent_of_block hv
  spells := hs
  narrow := hs.fits.narrow rfl
  empty := by
    rintro rfl σ t
    exact Native.ofStrings_nil hs t
  copies := by
    intro hne σ t ht
    obtain ⟨a, m, ha, hgrows, rfl, hholds, hfilled⟩ := Native.ofStrings_apply hs hne ht
    have hcovers : (a.items.map Buffer.place).length * pointerSize ≤ _ := hfilled.covers
    rw [List.length_map] at hcovers
    refine ⟨a, m, ha, hgrows, (List.length_map _).symm, fun i => ?_, hholds, hcovers, hfilled⟩
    rw [List.getElem?_map, Option.map_map]
    rfl

end Heap
end MovingHeap

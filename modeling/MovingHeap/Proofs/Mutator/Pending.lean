import MovingHeap.Proofs.Heap.Kept

/-!
The pending exception while a heap is used. Main statements: an exception is pending exactly if one
was parked and not taken since; the block that it refers to follows the collections, and its fields
change only where they are written.
-/
namespace MovingHeap
namespace Operation

/-- The operation writes field `i` of the block that the pending exception of `h` refers to. -/
def WritesPending (o : Operation) (h : Heap) (i : Nat) : Prop :=
  ∃ v x s, o = .setField v i x ∧ h.slot? v = some s ∧ h.pending.bind h.slot? = some s

/-- An exception was parked and not taken since. -/
def Parked (os : List Operation) : Prop :=
  ∃ front exn back, os = front ++ .park exn :: back ∧ .takePending ∉ back

theorem parked_concat_iff {os : List Operation} {o : Operation} :
    Parked (os ++ [o]) ↔ (∃ exn, o = .park exn) ∨ o ≠ .takePending ∧ Parked os := by
  constructor
  · rintro ⟨front, exn, back, he, hback⟩
    rcases List.eq_nil_or_concat back with rfl | ⟨back', last, rfl⟩
    · obtain ⟨-, hlast⟩ := List.append_inj' he rfl
      exact .inl ⟨exn, List.singleton_inj.1 hlast⟩
    · rw [List.concat_eq_append, ← List.cons_append, ← List.append_assoc] at he
      obtain ⟨rfl, hlast⟩ := List.append_inj' he rfl
      obtain rfl := List.singleton_inj.1 hlast
      simp only [List.concat_eq_append, List.mem_append, List.mem_singleton, not_or] at hback
      exact .inr ⟨Ne.symm hback.2, front, exn, back', rfl, hback.1⟩
  · rintro (⟨exn, rfl⟩ | ⟨ho, front, exn, back, rfl, hback⟩)
    · exact ⟨os, exn, [], rfl, List.not_mem_nil⟩
    · refine ⟨front, exn, back ++ [o], by simp, ?_⟩
      simp [hback, Ne.symm ho]

end Operation

namespace Heap

variable {h h' h'' : Heap} {f g : Word → Word} {i : Nat}

/-- One of the operations writes field `i` of the block that the pending exception then refers to.
-/
def WritesPending : List Operation → Heap → Nat → Prop
  | [], _, _ => False
  | o :: os, h, i => o.WritesPending h i ∨ WritesPending os (o.after h) i

/-- What is pending in `h` is pending in `h'`, with its word and the words in its block turned into
others by `f`, apart from the fields with `written`. -/
structure Tracks (f : Word → Word) (written : Nat → Prop) (h h' : Heap) : Prop where
  drifts : h.Drifts f h'
  pending : h'.pending = h.pending.map f
  block : ∀ v s b, h.pending = some v → h.slot? v = some s → h.blockAt? s = some b →
    ∃ t c, h'.slot? (f v) = some t ∧ h'.blockAt? t = some c ∧ b.Remains c ∧
      ∀ i x, ¬ written i → b.fields[i]? = some x → c.fields[i]? = some (f x)

namespace Tracks

variable {p q : Nat → Prop}

theorem trans (ht : Tracks f p h h') (ht' : Tracks g q h' h'') :
    Tracks (g ∘ f) (fun i => p i ∨ q i) h h'' where
  drifts := ht.drifts.trans ht'.drifts
  pending := by rw [ht'.pending, ht.pending, Option.map_map]
  block := by
    intro v s b hv hs hb
    obtain ⟨t, c, hslot, hc, hbc, hfields⟩ := ht.block v s b hv hs hb
    have hv' : h'.pending = some (f v) := by rw [ht.pending, hv, Option.map_some]
    obtain ⟨u, d, hslot', hd, hcd, hfields'⟩ := ht'.block (f v) t c hv' hslot hc
    refine ⟨u, d, hslot', hd, hbc.trans hcd, fun i x hi hx => ?_⟩
    exact hfields' i (f x) (fun hq => hi (.inr hq)) (hfields i x (fun hp => hi (.inl hp)) hx)

/-- A change of what is neither a block nor the pending exception. -/
theorem of_sameStore (hd : h.Drifts id h') (hs : SameStore h h') (hp : h'.pending = h.pending) :
    Tracks id p h h' where
  drifts := hd
  pending := by rw [hp, Option.map_id_fun, id]
  block := by
    intro v s b _ hv hb
    refine ⟨s, b, (hs.slot? v).trans hv, (hs.blockAt? s).trans hb, .refl b, fun i x _ hx => hx⟩

theorem of_keeps {φ : Nat → Nat} (hk : Keeps f φ h h') : Tracks f p h h' where
  drifts := hk.drifts
  pending := hk.pending
  block := by
    intro v s b hv hs hb
    have hroot : h.Holds v := .inl (mem_rootWords_of_pending hv)
    refine ⟨φ s, _, hk.slot v s hroot hs, hk.block s (hroot.mem_live hs) b hb,
      ⟨by simp, by simp, by simp⟩, fun i x _ hx => ?_⟩
    rw [Block.fields_mapFields, List.getElem?_map, hx, Option.map_some]

/-- A write changes one field of one block. -/
theorem of_setField {w x : Word} (hw : h.setField w i x = .ok h') :
    Tracks id (Operation.WritesPending (.setField w i x) h) h h' := by
  have hd : h.Drifts id h' := by
    apply Drifts.single (.setField hw)
    obtain ⟨t, c, -, -, -, rfl⟩ := setField_eq_ok_iff.1 hw
    rfl
  obtain ⟨t, c, ⟨hslot, hc⟩, hbytes, hi, rfl⟩ := setField_eq_ok_iff.1 hw
  refine ⟨hd, by rw [Option.map_id_fun]; rfl, fun v s b hv hs hb => ?_⟩
  by_cases hst : s = t
  · subst hst
    obtain rfl := Option.some.inj (hc.symm.trans hb)
    have hlen : (c.fields.set i x).length = c.fields.length := List.length_set
    refine ⟨s, _, (slot?_write hc v).trans hs, by rw [blockAt?_write hc, if_pos rfl],
      ⟨by simp, by simp, by rw [Block.fields_withFields hlen, hlen]⟩, fun j y hj hy => ?_⟩
    have hij : i ≠ j := by
      rintro rfl
      exact hj ⟨w, x, s, rfl, hslot, by rw [hv, Option.bind_some, hs]⟩
    rwa [Block.fields_withFields hlen, List.getElem?_set_ne hij]
  · refine ⟨s, b, (slot?_write hc v).trans hs, by rw [blockAt?_write hc, if_neg hst, hb], .refl b,
      fun j y _ hy => hy⟩

/-- An operation that neither parks nor takes an exception. -/
theorem after {o : Operation} (ho : o.settles = false) (h₀ : h.Sound) :
    ∃ f, Tracks f (o.WritesPending h) h (o.after h) := by
  rcases o.after_cases h₀ with ⟨f, φ, hk⟩ | ⟨w, i, x, rfl, hw⟩ | ⟨hd, hs, -, hp⟩
  · exact ⟨f, of_keeps hk⟩
  · exact ⟨id, of_setField hw⟩
  · exact ⟨id, of_sameStore hd hs (hp ho)⟩

theorem perform {os : List Operation} (hos : ∀ o ∈ os, o.settles = false) (h₀ : h.Sound) :
    ∃ f, Tracks f (WritesPending os h) h (h.perform os) := by
  induction os generalizing h with
  | nil => exact ⟨id, of_sameStore .refl ⟨rfl, rfl, rfl⟩ rfl⟩
  | cons o os ih =>
    obtain ⟨ho, hrest⟩ := List.forall_mem_cons.1 hos
    obtain ⟨f, hf⟩ := after ho h₀
    obtain ⟨g, hg⟩ := ih hrest (hf.drifts.steps.sound h₀)
    exact ⟨g ∘ f, hf.trans hg⟩

end Tracks

/-- An exception is pending exactly if one was parked and not taken since. -/
theorem isSome_pending_perform_iff (h₀ : h.Sound) (hnone : h.pending = none) (os : List Operation) :
    (h.perform os).pending.isSome = true ↔ Operation.Parked os := by
  induction os using List.reverseRecOn with
  | nil => simp [perform, hnone, Operation.Parked]
  | append_singleton os o ih =>
    have hperform : h.perform (os ++ [o]) = o.after (h.perform os) := perform_append os [o] h
    rw [hperform, Operation.parked_concat_iff]
    by_cases ho : o.settles = true
    · cases o with
      | park exn => exact iff_of_true rfl (.inl ⟨exn, rfl⟩)
      | takePending => exact iff_of_false Bool.false_ne_true (by simp)
      | _ => cases ho
    · obtain ⟨f, hf⟩ := Tracks.after (Bool.eq_false_iff.2 ho) ((h.steps_perform os).sound h₀)
      rw [hf.pending, Option.isSome_map, ih]
      cases o with
      | park | takePending => exact absurd rfl ho
      | _ => simp

end Heap
end MovingHeap

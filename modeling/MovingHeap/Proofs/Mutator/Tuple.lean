import MovingHeap.Proofs.Mutator.Record

/-!
What a new tuple holds. Main statement: its fields are the given words in order, as the collection
on the way has relocated them; words that resolved denote what they did, and all others are kept.
-/
namespace MovingHeap
namespace Heap

variable {h h' k : Heap} {f : Word → Word} {φ : Nat → Nat} {v : Word} {ws : List Word}

/-- In `h'`, `v` refers to a tuple of the words `ws` of `h`, as `f` and `φ` relocate them. The tuple
is none of the blocks of `h`, and those that the roots and `ws` reach are as they were, but for
where their fields refer to. -/
structure Stored (f : Word → Word) (φ : Nat → Nat) (h : Heap) (ws : List Word) (h' : Heap)
    (v : Word) : Prop where
  current : h'.isCurrent v = true
  tuple : h'.block v = .ok (some (.tuple (ws.map f)))
  field : ∀ i w, ws[i]? = some w → h'.field v i = .ok (f w)
  fresh : ∃ t, h'.slot? v = some t ∧ (∀ s b, h.blockAt? s = some b → s < t) ∧
    ∀ s ∈ (h.hold ws).live, φ s ≠ t
  block : ∀ s ∈ (h.hold ws).live, ∃ b, h.blockAt? s = some b ∧
    h'.blockAt? (φ s) = some (b.mapFields f)
  slot : ∀ w s, (h.hold ws).Holds w → h.slot? w = some s → h'.slot? (f w) = some (φ s)
  apart : ∀ w₁ ∈ ws, ∀ w₂ ∈ ws, ∀ s₁ s₂, h.slot? w₁ = some s₁ → h.slot? w₂ = some s₂ → s₁ ≠ s₂ →
    h'.slot? (f w₁) ≠ h'.slot? (f w₂)
  unresolved : ∀ w, h.slot? w = none → f w = w

theorem Relocates.stored (hrel : Relocates f φ h ws h')
    (hnew : (h.hold ws).IsNew φ h' v (.tuple (ws.map f))) : Stored f φ h ws h' v where
  current := isCurrent_of_block hnew.block
  tuple := hnew.block
  field := by
    intro i w hw
    simp [field_of_block hnew.block, item, Block.fields, hw]
  fresh := by
    obtain ⟨t, ht, hle, hlive⟩ := hnew.slot
    exact ⟨t, ht, fun s b hb => Nat.lt_of_lt_of_le (bounds_of_blockAt? hb).2 hle, hlive⟩
  block := by
    intro s hs
    obtain ⟨b, hb⟩ := hs.exists_block
    exact ⟨b, hb, hrel.keeps.block s hs b hb⟩
  slot := hrel.keeps.slot
  apart := by
    intro w₁ hw₁ w₂ hw₂ s₁ s₂ hs₁ hs₂ hne he
    have hheld₁ := holds_hold (h := h) hw₁
    have hheld₂ := holds_hold (h := h) hw₂
    have hslots : some (φ s₁) = some (φ s₂) :=
      (hrel.keeps.slot w₁ s₁ hheld₁ hs₁).symm.trans
        (he.trans (hrel.keeps.slot w₂ s₂ hheld₂ hs₂))
    exact hne (hrel.keeps.injective (hheld₁.mem_live hs₁) (hheld₂.mem_live hs₂)
      (Option.some.inj hslots))
  unresolved := hrel.unresolved

theorem MakesRoom.eq_id (hm : MakesRoom h f k) (hc : k.collections = h.collections) : f = id := by
  cases hm with
  | nothing => rfl
  | collect hr =>
    obtain ⟨rfl, -⟩ := collect_eq_ok_iff.1 hr
    rw [collections_moved] at hc
    omega

open Mutator (allocTuple allocSome)

/-- Whatever the words are, whether they resolve or not and however often each is among them, a
tuple or a present option that is allocated holds them in order, as they have been relocated, in a
block that was not there before. -/
theorem allocTuple_stores_words {config : Config} {h h' : Heap} {ws : List Word} {v : Word}
    (hr : Reachable config h)
    (ha : allocTuple ws h = .ok v h' ∨ ∃ w, ws = [w] ∧ allocSome w h = .ok v h') :
    ∃ f φ, h.Relocates f φ ws h' ∧ h.Stored f φ ws h' v ∧
      (h'.collections = h.collections → f = id) := by
  have htuple : allocTuple ws h = .ok v h' := by
    rcases ha with ha | ⟨w, rfl, ha⟩ <;> exact ha
  have hc := hr.counted
  obtain ⟨f, k, hm, hn, ⟨rfl, rfl⟩, -⟩ := Mutator.allocTuple_eq_ok hc htuple
  obtain ⟨φ, hrel⟩ := hm.relocates hc.toSound
  have hnew := hrel.isNew_place hc.toSound hm.slots.1 hn (.tuple (ws.map f))
  exact ⟨f, φ, hrel.place _ hn, (hrel.place _ hn).stored hnew, hm.eq_id⟩

/-- The smaller block of `loose` twice, once with bit 63 set, a reference that was never given out
and an immediate: there is room for their tuple after a collection, which moves the block. -/
theorem allocTuple_stores_words_loose :
    let small : Word := .ofRef ⟨9, 0⟩
    let twin : Word := ⟨small.bits ||| 0x8000000000000000⟩
    let forged : Word := .ofRef ⟨999, 0⟩
    Reachable snug loose ∧ ∃ (h' : Heap) (f : Word → Word) (φ : Nat → Nat),
      allocTuple [small, twin, forged, .ofInt 5] loose = .ok (.ofRef ⟨19, 1⟩) h' ∧
      loose.Stored f φ [small, twin, forged, .ofInt 5] h' (.ofRef ⟨19, 1⟩) ∧
      h'.block (.ofRef ⟨19, 1⟩) =
        .ok (some (.tuple [.ofRef ⟨10, 1⟩, .ofRef ⟨10, 1⟩, forged, .ofInt 5])) := by
  intro small twin forged
  have hr : Reachable snug loose := Reachable.new.perform _
  have hrun : Mutator.succeedsWith (allocTuple [small, twin, forged, .ofInt 5])
      (fun v h' => v == .ofRef ⟨19, 1⟩ && h'.lookup ⟨19, 1⟩ ==
        some (.tuple [.ofRef ⟨10, 1⟩, .ofRef ⟨10, 1⟩, forged, .ofInt 5])) loose = true := by
    decide +kernel
  obtain ⟨v, h', ha, hfound⟩ := Mutator.succeedsWith_iff.1 hrun
  simp only [Bool.and_eq_true, beq_iff_eq] at hfound
  obtain ⟨rfl, hblock⟩ := hfound
  obtain ⟨f, φ, -, hstored, -⟩ := allocTuple_stores_words hr (.inl ha)
  have hplace : (Word.ofRef ⟨19, 1⟩).ref? = some ⟨19, 1⟩ := by decide
  refine ⟨hr, h', f, φ, ha, hstored, ?_⟩
  simp only [block, hplace, resolve_eq_ok_iff.2 hblock]
  rfl

end Heap
end MovingHeap

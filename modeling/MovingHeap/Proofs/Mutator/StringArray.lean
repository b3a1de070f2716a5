import MovingHeap.Proofs.Mutator.Message
import MovingHeap.Proofs.Mutator.Record
import MovingHeap.Proofs.Native.Strings

/-!
Arrays of strings from allocation to conversion. Main statement: an array that has been allocated
for some strings spells them, and its conversion gives them, at once and at any later time as long
as it is kept for the users and not written to.
-/
namespace MovingHeap
namespace Heap

variable {h h' : Heap} {f : Word → Word} {φ : Nat → Nat} {r : Root} {bytes : Bytes}

/-- The root `r` holds a string with these bytes. -/
def RootsString (h : Heap) (r : Root) (bytes : Bytes) : Prop :=
  ∃ w, h.rootValue r = .ok w ∧ h.block w = .ok (some (.string bytes))

theorem RootsString.of_keeps (hr : h.RootsString r bytes) (hk : Keeps f φ h h') :
    h'.RootsString r bytes := by
  obtain ⟨w, hw, hb⟩ := hr
  have hplace : (Place.root r.index).value? h = some w := rootValue_eq_ok_iff.1 hw
  exact ⟨f w, rootValue_eq_ok_iff.2 (Place.value?_of_keeps hk hplace),
    hk.block_eq (Place.holds hplace) hb⟩

end Heap

namespace Mutator

variable {h h' : Heap} {r : Root} {rs : List Root} {v : Word} {bytes : Bytes} {items : List Bytes}

theorem rootString_eq_ok (hc : h.Counted)
    (hr : (do root (← allocString bytes) : Mutator Root) h = .ok r h') :
    (∃ f φ, Heap.Keeps f φ h h') ∧ h'.Counted ∧ h'.RootsString r bytes := by
  rw [bind_apply] at hr
  cases ha : allocString bytes h with
  | error => simp [ha] at hr
  | ok w k =>
    obtain ⟨⟨f, φ, hk⟩, -, hcounted, -, hb, -⟩ := keeps_of_allocString hc ha
    simp only [ha, root, EStateM.Result.ok.injEq] at hr
    obtain ⟨rfl, rfl⟩ := hr
    refine ⟨⟨_, _, hk.trans (.hold k [w])⟩, hcounted.hold [w], w, ?_, hb⟩
    exact Heap.rootValue_eq_ok_iff.2 (by simp)

/-- While further strings are allocated, those that are rooted stay. -/
theorem mapM_rootString_eq_ok (hc : h.Counted)
    (hr : (items.mapM fun bytes => do root (← allocString bytes)) h = .ok rs h') :
    (∃ f φ, Heap.Keeps f φ h h') ∧ h'.Counted ∧ List.Forall₂ h'.RootsString rs items := by
  induction items generalizing h rs with
  | nil =>
    obtain ⟨rfl, rfl⟩ := EStateM.Result.ok.inj hr
    exact ⟨⟨_, _, .refl h⟩, hc, .nil⟩
  | cons bytes items ih =>
    rw [List.mapM_cons, bind_apply] at hr
    cases hfirst : (do root (← allocString bytes) : Mutator Root) h with
    | error => simp [hfirst] at hr
    | ok r k =>
      simp only [hfirst, bind_apply] at hr
      cases hrest : (items.mapM fun bytes => do root (← allocString bytes)) k with
      | error => simp [hrest] at hr
      | ok rs' k' =>
        simp only [hrest] at hr
        obtain ⟨rfl, rfl⟩ := EStateM.Result.ok.inj hr
        obtain ⟨⟨f, φ, hk⟩, hcounted, hroot⟩ := rootString_eq_ok hc hfirst
        obtain ⟨⟨g, ψ, hk'⟩, hcounted', hroots⟩ := ih hcounted hrest
        exact ⟨⟨_, _, hk.trans hk'⟩, hcounted', .cons (hroot.of_keeps hk') hroots⟩

theorem mapM_readRoot (hrs : List.Forall₂ h.RootsString rs items) :
    ∃ ws, (rs.mapM fun r => read (·.rootValue r)) h = .ok ws h ∧
      List.Forall₂ (fun w bytes => h.block w = .ok (some (.string bytes))) ws items := by
  induction hrs with
  | nil => exact ⟨[], rfl, .nil⟩
  | @cons r bytes _ _ hr _ ih =>
    obtain ⟨w, hw, hb⟩ := hr
    obtain ⟨ws, hws, hblocks⟩ := ih
    have hread : read (·.rootValue r) h = .ok w h := by simp [read, hw]
    refine ⟨w :: ws, ?_, .cons hb hblocks⟩
    rw [List.mapM_cons, bind_apply, hread]
    simp only [bind_apply, hws]
    rfl

theorem spells_of_allocTuple (hc : h.Counted) {ws : List Word}
    (hws : List.Forall₂ (fun w bytes => h.block w = .ok (some (.string bytes))) ws items)
    (hr : allocTuple ws h = .ok v h') : h'.Spells v items := by
  obtain ⟨⟨f, φ, hrel, hnew⟩, -⟩ := relocates_of_allocTuple hc hr
  exact ⟨ws.map f, hnew.block,
    Heap.forall₂_map_left_of_mem hws fun w hw bytes hstring => hrel.block_eq hw hstring⟩

theorem spells_of_allocStringArray (hc : h.Counted) (hr : allocStringArray items h = .ok v h') :
    h'.Spells v items := by
  unfold allocStringArray frame at hr
  simp only [bind_apply] at hr
  cases hroots : (items.mapM fun bytes => do root (← allocString bytes)) h with
  | error => simp [hroots] at hr
  | ok rs k =>
    obtain ⟨-, hcounted, hrs⟩ := mapM_rootString_eq_ok hc hroots
    obtain ⟨ws, hread, hws⟩ := mapM_readRoot hrs
    simp only [hroots, hread] at hr
    cases hv : allocTuple ws k with
    | error => simp [hv] at hr
    | ok v' k' =>
      simp only [hv, EStateM.Result.ok.injEq] at hr
      obtain ⟨rfl, rfl⟩ := hr
      exact (spells_of_allocTuple hcounted hws hv).of_sameStore ⟨rfl, rfl, rfl⟩

end Mutator

namespace Heap

open Mutator (allocStringArray)

/-- Whatever bytes the strings have, an array that is allocated for them transcribes them. It goes
on to do so after it has been put into a place that is kept for the users, where any operations may
follow that leave that place and the array alone; the collections among them move the array, and
the place then has the new word for it. -/
theorem allocStringArray_transcribes {config : Config} {h h' : Heap} {items : List Bytes} {v : Word}
    (hr : Reachable config h) (ha : allocStringArray items h = .ok v h') :
    h'.Transcribes v items ∧
    ∀ (p : Place) (stores os : List Operation), (∀ o ∈ stores, o.rearranges = true) →
      p.value? (h'.perform stores) = some v → (h'.perform stores).Spared p os →
        ∃ w, p.value? (h'.perform (stores ++ os)) = some w ∧
          (h'.perform (stores ++ os)).Transcribes w items := by
  have hspells := Mutator.spells_of_allocStringArray hr.counted ha
  have hafter : (Operation.allocStringArray items).after h = h' :=
    Operation.after_of_ok (Operation.run_of_word rfl ha)
  refine ⟨hspells.transcribes, fun p stores os hstores hv hos => ?_⟩
  have hstored := hspells.of_sameStore (sameStore_perform hstores h')
  have hsound : (h'.perform stores).Sound :=
    (hafter ▸ (hr.after (.allocStringArray items)).perform stores).sound
  obtain ⟨w, hw, hlater⟩ := hstored.perform hsound hv hos
  rw [perform_append]
  exact ⟨w, hw, hlater.transcribes⟩

/-- No byte, a zero byte between two others, and a byte that is not UTF-8. -/
def scribbles : List Bytes := [[], [97, 0, 98], [255]]

def restless : Config := { tuning := { minorWords := 3 } }

/-- Collections come between the strings and after them. The array is put under a root and moves
twice more. -/
theorem allocStringArray_transcribes_restless :
    let moves : List Operation := [.collect, .allocString [1], .allocSome .unit]
    ∃ h', allocStringArray scribbles (.new restless) = .ok (.ofRef ⟨49, 4⟩) h' ∧
      h'.Transcribes (.ofRef ⟨49, 4⟩) scribbles ∧
      ∃ moved a m, moved = h'.perform (.root (.ofRef ⟨49, 4⟩) :: moves) ∧
        moved.isCurrent (.ofRef ⟨49, 4⟩) = false ∧ moved.Transcribes (.ofRef ⟨63, 6⟩) scribbles ∧
        Native.ofStrings moved ⟨.ofRef ⟨63, 6⟩⟩ ({}, ()) = .ok (some a) (m, ()) ∧
        m.allocations = 4 ∧ m.Filled a.place 24 (.pointers (a.items.map Buffer.place)) ∧
        a.length = 3 ∧ a.item? 0 = some [] ∧ a.item? 1 = some [97] ∧ a.item? 2 = some [255] := by
  intro moves
  have hrun : Mutator.succeedsWith (allocStringArray scribbles)
      (fun v h' =>
        let moved := h'.perform (.root (.ofRef ⟨49, 4⟩) :: moves)
        v == .ofRef ⟨49, 4⟩ && h'.roots == [] && moved.roots == [.ofRef ⟨63, 6⟩] &&
          !moved.isCurrent (.ofRef ⟨49, 4⟩)) (.new restless) = true := by decide +kernel
  have hserves : ({} : NativeMemory).Serves scribbles := by
    intro i size hi
    have hsmall : ∀ size ∈ Native.arraySize 3 :: scribbles.map fun bytes => bytes.length + 1,
        size ≤ 24 := by decide
    have hle := hsmall size (List.mem_of_getElem? hi)
    exact NativeMemory.grants_new i (Nat.le_trans hle (by decide))
  obtain ⟨v, h', ha, hfound⟩ := Mutator.succeedsWith_iff.1 hrun
  simp only [Bool.and_eq_true, beq_iff_eq, Bool.not_eq_true'] at hfound
  obtain ⟨⟨⟨rfl, hbare⟩, hroots⟩, hstale⟩ := hfound
  obtain ⟨htranscribes, hlater⟩ := allocStringArray_transcribes .new ha
  have hput : (Place.root 0).value? (h'.perform [.root (.ofRef ⟨49, 4⟩)]) =
      some (.ofRef ⟨49, 4⟩) := by
    change (h'.roots ++ [Word.ofRef ⟨49, 4⟩])[0]? = _
    rw [hbare]
    rfl
  obtain ⟨w, hw, hmoved⟩ := hlater (.root 0) [.root (.ofRef ⟨49, 4⟩)] moves (by decide) hput
    (spared_of_allocates (by decide) _)
  have hword : w = .ofRef ⟨63, 6⟩ := by
    have hplace : (h'.perform (.root (.ofRef ⟨49, 4⟩) :: moves)).roots[0]? = some w := hw
    rw [hroots] at hplace
    exact (Option.some.inj hplace).symm
  subst hword
  obtain ⟨a, m, hconverted, hgrows, hlength, hitems, -, -, hpointers⟩ :=
    hmoved.copies (by decide) ({}, ()) hserves
  exact ⟨h', ha, htranscribes, _, a, m, rfl, hstale, hmoved, hconverted, hgrows.allocations,
    hpointers, hlength, hitems 0, hitems 1, hitems 2⟩

end Heap
end MovingHeap

import MovingHeap.Proofs.Collection.Preservation

/-!
What becomes of the words on the stack of roots. Main statement: whatever is allocated and
collected, a root stays in its place, and each collection on the way relocates the word that it
holds. -/
namespace MovingHeap
namespace Heap

variable {h h' h'' : Heap} {i : Nat} {w w' w'' : Word}

/-- Root `i` has held a word all the way from `h`, where it was `w`, to `h'`, where it is `w'`. Each
collection on the way renames the slot that the word resolves to, and leaves any other word as it
is. -/
inductive Becomes (i : Nat) (h : Heap) (w : Word) : Heap → Word → Prop
  | refl : h.roots[i]? = some w → Becomes i h w h w
  | collect {h' h'' : Heap} {w' : Word} {φ : Nat → Nat} : Becomes i h w h' w' →
    h'.collect = .ok h'' → h'.Relocation h'' φ → Becomes i h w h'' (h'.renameWord φ w')
  | step {h' h'' : Heap} {w' : Word} : Becomes i h w h' w' → Step h' h'' →
    h''.collections = h'.collections → h''.roots[i]? = some w' → Becomes i h w h'' w'

theorem Becomes.trans (hb : Becomes i h w h' w') (hb' : Becomes i h' w' h'' w'') :
    Becomes i h w h'' w'' := by
  induction hb' with
  | refl => exact hb
  | collect _ hc hR ih => exact .collect ih hc hR
  | step _ hs hn hw ih => exact .step ih hs hn hw

theorem Becomes.root (hb : Becomes i h w h' w') : h'.roots[i]? = some w' := by
  induction hb with
  | refl hw => exact hw
  | collect _ _ hR ih => rw [hR.roots, List.getElem?_map, ih, Option.map_some]
  | step _ _ _ hw => exact hw

/-- Every root of `h` is in its place in `h'`. Further roots may have been pushed. -/
structure CarriesRoots (h h' : Heap) : Prop where
  steps : h.Steps h'
  root : ∀ (i : Nat) w, h.roots[i]? = some w → ∃ w', Becomes i h w h' w'

namespace CarriesRoots

theorem refl (h : Heap) : CarriesRoots h h := ⟨.refl, fun _ w hw => ⟨w, .refl hw⟩⟩

theorem trans (hc : CarriesRoots h h') (hc' : CarriesRoots h' h'') : CarriesRoots h h'' where
  steps := hc.steps.trans hc'.steps
  root := by
    intro i w hw
    obtain ⟨w', hb⟩ := hc.root i w hw
    obtain ⟨w'', hb'⟩ := hc'.root i w' hb.root
    exact ⟨w'', hb.trans hb'⟩

/-- A change that keeps the roots of `h` in their places. -/
theorem single (hs : Step h h') (hn : h'.collections = h.collections)
    (hr : ∀ (i : Nat) w, h.roots[i]? = some w → h'.roots[i]? = some w) : CarriesRoots h h' :=
  ⟨.single hs, fun i w hw => ⟨w, .step (.refl hw) hs hn (hr i w hw)⟩⟩

theorem collect (h₀ : h.Sound) (hc : h.collect = .ok h') : CarriesRoots h h' where
  steps := .single (.collect hc)
  root := by
    intro i w hw
    have hsound : h'.Sound := (Step.collect hc).sound h₀
    obtain ⟨rfl, -⟩ := collect_eq_ok_iff.1 hc
    exact ⟨_, .collect (.refl hw) hc (relocation_moved hsound)⟩

theorem hold (h : Heap) (ws : List Word) : CarriesRoots h (h.hold ws) := by
  refine single (.roots _) rfl fun i w hw => ?_
  have hi : i < h.roots.length := (List.getElem?_eq_some_iff.1 hw).1
  rw [Heap.hold, List.getElem?_append_left hi, hw]

/-- The younger roots may be dropped. -/
theorem truncateRoots (hc : CarriesRoots h h') :
    CarriesRoots h (h'.truncateRoots h.roots.length) where
  steps := hc.steps.tail (.roots _)
  root := by
    intro i w hw
    have hi : i < h.roots.length := (List.getElem?_eq_some_iff.1 hw).1
    obtain ⟨w', hb⟩ := hc.root i w hw
    refine ⟨w', .step hb (.roots _) rfl ?_⟩
    rw [roots_truncateRoots, List.getElem?_take_of_lt hi, hb.root]

end CarriesRoots

/-- The roots of a sound heap are carried along. -/
def Carried (h h' : Heap) : Prop := h.Sound → CarriesRoots h h'

theorem admitsFrames_carried : AdmitsFrames Carried Carried := by
  have hadmits : Admits Carried := {
    refl := fun h _ => .refl h
    trans := fun hc hc' h₀ => (hc h₀).trans (hc' ((hc h₀).steps.sound h₀))
    collect := fun hc h₀ => .collect h₀ hc
    place := fun b hn _ => .single (.place b hn) rfl fun _ _ hw => hw
    held := by
      intro h h' ws hc h₀
      have hheld := hc (show (h.hold ws).Sound from ⟨h₀.epoch_le, h₀.next_le⟩)
      exact ((CarriesRoots.hold h ws).trans hheld).truncateRoots }
  exact {
    hadmits with
    inner := hadmits
    root := fun h w _ => .hold h [w]
    leave := fun hc h₀ => (hc h₀).truncateRoots }

end Heap
end MovingHeap

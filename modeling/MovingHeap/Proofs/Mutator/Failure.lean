import MovingHeap.Proofs.Mutator.Room

/-!
What an operation leaves behind that raises. Main statement: apart from where its blocks are, the
heap is as it was; whatever the operation had allocated is out of reach.
-/
namespace MovingHeap
namespace Heap

variable {h h' : Heap} {f : Word → Word} {φ : Nat → Nat}

/-- The rooted graph of `h'` is that of `h`, root for root, with every slot `s` renamed to `φ s` and
every word `w` turned into `f w`. -/
structure SameGraph (f : Word → Word) (φ : Nat → Nat) (h h' : Heap) : Prop where
  bijective : Set.BijOn φ h.live h'.live
  block : ∀ s ∈ h.live, ∃ b, h.blockAt? s = some b ∧ h'.blockAt? (φ s) = some (b.mapFields f)
  slot : ∀ w, h.Holds w → h'.slot? (f w) = (h.slot? w).map φ
  unresolved : ∀ w, h.Holds w → h.slot? w = none → f w = w
  roots : h'.roots = h.roots.map f
  registry : h'.registry.entries = h.registry.entries.map fun e => (e.1, f e.2)
  builtins : ∀ b, h'.builtin b = f (h.builtin b)
  pending : h'.pending = h.pending.map f

/-- Nothing has changed that could be observed through the roots. -/
structure Intact (h h' : Heap) : Prop where
  roots : h'.roots.length = h.roots.length
  identities : h'.identities = h.identities
  names : h'.registry.entries.map Prod.fst = h.registry.entries.map Prod.fst
  pending : h'.pending.isSome = h.pending.isSome
  graph : ∃ f φ, SameGraph f φ h h'
  collected : ∀ k k', h.collect = .ok k → h'.collect = .ok k' →
    k'.blocks.size = k.blocks.size ∧ k'.liveWords = k.liveWords

/-- Every reference in a root or in a block resolves, or did so at an earlier time. -/
def Unforged (config : Config) (h : Heap) : Prop :=
  ∀ w, (w ∈ h.rootWords ∨ ∃ s b, h.blockAt? s = some b ∧ w ∈ b.fields) → w.ref? = none ∨
    ∃ g os, Reachable config g ∧ h = g.perform os ∧ ∃ s, g.slot? w = some s

/-- A reference that has resolved goes on doing so until it is settled. -/
theorem Steps.resolves_or_settled (hs : h.Steps h') {w : Word} {s : Nat}
    (hw : h.slot? w = some s) : h'.slot? w = some s ∨ h'.Settled w := by
  obtain ⟨hr, b, hb⟩ := slot?_eq_some_iff.1 hw
  rcases hs.sameSpace_or_past with hsame | ⟨-, hpast⟩
  · left
    obtain ⟨c, hc, -⟩ := hsame.blocks s b hb
    exact slot?_eq_some_iff.2 ⟨hsame.epoch ▸ hr, c, hc⟩
  · right
    intro r hr'
    obtain rfl := Option.some.inj (hr.symm.trans hr')
    exact Nat.lt_of_lt_of_le (bounds_of_blockAt? hb).2 hpast

theorem Unforged.settled {config : Config} (hw : h.Unforged config) {w : Word} (hheld : h.Holds w)
    (hs : h.slot? w = none) : h.Settled w := by
  have hany : w ∈ h.rootWords ∨ ∃ s b, h.blockAt? s = some b ∧ w ∈ b.fields := by
    rcases hheld with hroot | ⟨s, b, -, hb, hfield⟩
    · exact .inl hroot
    · exact .inr ⟨s, b, hb, hfield⟩
  rcases hw w hany with hr | ⟨g, os, -, rfl, s, hg⟩
  · intro r hr'
    cases hr.symm.trans hr'
  · rcases (g.steps_perform os).resolves_or_settled hg with hres | hset
    · cases hs.symm.trans hres
    · exact hset

namespace Keeps

theorem slot?_eq (hk : Keeps f φ h h') {w : Word} (hw : h.Holds w)
    (hset : h.slot? w = none → h.Settled w) : h'.slot? (f w) = (h.slot? w).map φ := by
  cases hs : h.slot? w with
  | some s => exact hk.slot w s hw hs
  | none =>
    have hold := hset hs
    rw [hk.drifts.fixes hold]
    exact (hold.mono hk.drifts.steps.start_le).slot?_eq_none

theorem rootWords (hk : Keeps f φ h h') (hlen : h'.roots.length = h.roots.length) :
    h'.rootWords = h.rootWords.map f := by
  have hroots := hk.roots
  rw [← hlen, List.take_length] at hroots
  simp only [Heap.rootWords, hroots, hk.registry, hk.builtins, hk.pending, List.map_append]
  simp [Registry.words, Registry.map, Identities.words, Identities.map, Option.toList_map]

/-- Nothing is reached but what was reached before. -/
theorem surjOn (hk : Keeps f φ h h') (hlen : h'.roots.length = h.roots.length)
    (hset : ∀ w, h.Holds w → h.slot? w = none → h.Settled w) : Set.SurjOn φ h.live h'.live := by
  have hword : ∀ w t, h.Holds w → h'.slot? (f w) = some t → ∃ s ∈ h.live, φ s = t := by
    intro w t hw ht
    rw [hk.slot?_eq hw (hset w hw)] at ht
    obtain ⟨s, hs, rfl⟩ := Option.map_eq_some_iff.1 ht
    exact ⟨s, hw.mem_live hs, rfl⟩
  intro t ht
  induction ht with
  | word hw ht =>
    rw [hk.rootWords hlen] at hw
    obtain ⟨v, hv, rfl⟩ := List.mem_map.1 hw
    exact hword v _ (.inl hv) ht
  | field _ hc hw ht ih =>
    obtain ⟨s, hs, rfl⟩ := ih
    obtain ⟨b, hb⟩ := hs.exists_block
    obtain rfl := Option.some.inj ((hk.block s hs b hb).symm.trans hc)
    rw [Block.fields_mapFields] at hw
    obtain ⟨v, hv, rfl⟩ := List.mem_map.1 hw
    exact hword v _ (.inr ⟨s, b, hs, hb, hv⟩) ht

theorem sameGraph (hk : Keeps f φ h h') (hlen : h'.roots.length = h.roots.length)
    (hset : ∀ w, h.Holds w → h.slot? w = none → h.Settled w) : SameGraph f φ h h' where
  bijective := ⟨fun s hs => hk.mem_live hs, hk.injective, hk.surjOn hlen hset⟩
  block := by
    intro s hs
    obtain ⟨b, hb⟩ := hs.exists_block
    exact ⟨b, hb, hk.block s hs b hb⟩
  slot := fun w hw => hk.slot?_eq hw (hset w hw)
  unresolved := fun w hw hs => hk.drifts.fixes (hset w hw hs)
  roots := by
    rw [← hk.roots, ← hlen, List.take_length]
  registry := by
    rw [hk.registry]
    rfl
  builtins := hk.builtin
  pending := hk.pending

end Keeps

/-- Heaps with the same rooted graph are of the same size once they have been collected. -/
theorem SameGraph.collected (hg : SameGraph f φ h h') {k k' : Heap} (hc : h.collect = .ok k)
    (hc' : h'.collect = .ok k') :
    k'.blocks.size = k.blocks.size ∧ k'.liveWords = k.liveWords := by
  obtain ⟨rfl, -⟩ := collect_eq_ok_iff.1 hc
  obtain ⟨rfl, -⟩ := collect_eq_ok_iff.1 hc'
  constructor
  · have hlen := (survivors_perm hg.bijective).length_eq
    rw [List.length_map] at hlen
    simp [moved_eq, hlen]
  · rw [liveWords_moved, liveWords_moved]
    apply rootedWords_of_bijOn hg.bijective
    intro s hs
    obtain ⟨b, hb, hb'⟩ := hg.block s hs
    simp [wordsAt, hb, hb']

theorem Kept.intact (hk : Kept h h') (h₀ : h.Sound) (hlen : h'.roots.length = h.roots.length)
    (hids : h'.identities = h.identities)
    (hset : ∀ w, h.Holds w → h.slot? w = none → h.Settled w) : Intact h h' := by
  obtain ⟨f, φ, hf⟩ := hk h₀
  have hg := hf.sameGraph hlen hset
  exact {
    roots := hlen
    identities := hids
    names := by
      rw [hg.registry, List.map_map]
      rfl
    pending := by rw [hg.pending, Option.isSome_map]
    graph := ⟨f, φ, hg⟩
    collected := fun k k' => hg.collected }

theorem admits_identities : AdmitsFrames (fun h h' => h'.identities = h.identities)
    (fun h h' => h'.identities = h.identities) := by
  have hadmits : Admits fun h h' => h'.identities = h.identities := {
    refl := fun _ => rfl
    trans := fun hn hn' => hn'.trans hn
    collect := by
      intro h h' hc
      obtain ⟨rfl, -⟩ := collect_eq_ok_iff.1 hc
      exact h.identities_moved
    place := fun _ _ => rfl
    held := fun _ hn => hn }
  exact {
    hadmits with
    inner := hadmits
    root := fun _ _ => rfl
    leave := fun hn => hn }

end Heap

namespace Operation

variable {h h' : Heap} {o : Operation} {r : Raise}

/-- Only allocations and their like raise anything. -/
theorem allocates_of_raise (he : o.run h = .error (.raise r) h') : o.allocates = true := by
  have hupdate : ∀ f : Heap → Except Fault Heap, Mutator.NeverRaises (do
      Mutator.update f
      return ([] : List Word)) := by
    intro f h h' r hr
    simp only [Mutator.bind_apply, Mutator.update] at hr
    cases hf : f h with
    | ok | error =>
      rw [hf] at hr
      cases hr
  cases o with
  | setField w i x => exact absurd he (hupdate _ h h' r)
  | setRoot q w => exact absurd he (hupdate _ h h' r)
  | root | dropRoots | register | unregister | park | takePending => cases he
  | _ => rfl

theorem length_roots_run (ho : o.allocates = true) :
    (o.run.final h).roots.length = h.roots.length :=
  along Heap.admits_rootsLength (fun _ _ _ => rfl) ho h

theorem length_roots_after (ho : o.allocates = true) :
    (o.after h).roots.length = h.roots.length := by
  rcases o.after_eq_self_or_final h with he | he
  · rw [he]
  · rw [he, length_roots_run ho]

/-- A number is used up only where an identity has been made. -/
theorem identities_of_raise (he : o.run h = .error (.raise r) h') :
    h'.identities = h.identities := by
  have ho := allocates_of_raise he
  by_cases hn : ∃ name, o = allocIdentity name
  · obtain ⟨name, rfl⟩ := hn
    have hcount : ∀ exn : Word, Mutator.NeverRaises (do
        modify fun h : Heap => { h with identities := h.nextIdentity }
        return exn) := fun exn h h' r hr => by cases hr
    have hlist : ∀ exn : Word, Mutator.NeverRaises (pure [exn] : Mutator (List Word)) :=
      fun exn h h' r hr => by cases hr
    simp only [run] at he
    rw [Mutator.bind_eq_raise_iff hlist, Mutator.allocIdentity_eq,
      Mutator.bind_eq_raise_iff hcount] at he
    have hsame := Mutator.Along.uncountedIdentity Heap.admits_identities.toAdmits name h
    rwa [Mutator.final_eq_of_error he] at hsame
  · have hsame := along Heap.admits_identities (fun name he => absurd ⟨name, he⟩ hn) ho h
    rwa [Mutator.final_eq_of_error he] at hsame

end Operation

namespace Heap

/-- An operation that raises leaves the heap intact, and so does turning a raise into an exception,
be it the exception with its message or the one for want of memory. Where one block was asked for,
the heap has just been collected. -/
theorem intact_of_raise {config : Config} {h : Heap} (hr : Reachable config h)
    (hw : h.Unforged config) :
    (∀ (o : Operation) r h', o.run h = .error (.raise r) h' → Intact h h') ∧
    (∀ r ws h', (Operation.realize r).run h = .ok ws h' → Intact h h') ∧
    (∀ tag size r h', Mutator.allocFields tag size h = .error (.raise r) h' →
      h.collect = .ok h') ∧
    ∀ bytes r h', Mutator.allocString bytes h = .error (.raise r) h' → h.collect = .ok h' := by
  have hset : ∀ w, h.Holds w → h.slot? w = none → h.Settled w := fun w => hw.settled
  refine ⟨fun o r h' he => ?_, fun r ws h' he => ?_, fun tag size r h' he => ?_,
    fun bytes r h' he => ?_⟩
  · have ho := o.allocates_of_raise he
    have hk := o.kept_after ho h
    have hlen := o.length_roots_after (h := h) ho
    rw [Operation.after_of_raise he] at hk hlen
    exact hk.intact hr.sound hlen (o.identities_of_raise he) hset
  · have hk := Operation.kept_after (o := .realize r) rfl h
    have hlen := Operation.length_roots_after (h := h) (o := .realize r) rfl
    have hids := Operation.after_along (o := .realize r) admits_identities
      (fun _ ho => by cases ho) rfl h
    rw [Operation.after_of_ok he] at hk hlen hids
    exact hk.intact hr.sound hlen hids hset
  · exact ((Mutator.allocFields_eq_raise_iff hr.counted).1 he).2.2.2.1
  · exact ((Mutator.allocString_eq_raise_iff hr.counted).1 he).2.1

/-- A root holds a string that a collection has dropped. -/
def bereft : Heap :=
  ((Operation.allocString [97]).after (.new tight)).perform [.collect, .root (.ofRef ⟨8, 0⟩)]

/-- Two strings fit beside 24 words that are reached, and their array does not. -/
theorem intact_of_raise_bereft : Reachable tight bereft ∧ bereft.Unforged tight ∧
    ∃ r h', (Operation.allocStringArray [[98], [99]]).run bereft = .error (.raise r) h' ∧
      h'.liveWords = 28 ∧ Intact bereft h' := by
  have hearlier : Reachable tight ((Operation.allocString [97]).after (.new tight)) := .after _ .new
  have hr : Reachable tight bereft := hearlier.perform _
  have hroots : ∀ w ∈ bereft.rootWords,
      w.ref? = none ∨ w = .ofRef ⟨8, 0⟩ ∨ (bereft.slot? w).isSome := by decide +kernel
  have hfields : ∀ b ∈ bereft.blocks.toList, ∀ w ∈ b.fields,
      w.ref? = none ∨ w = .ofRef ⟨8, 0⟩ ∨ (bereft.slot? w).isSome := by decide +kernel
  have hslot : ((Operation.allocString [97]).after (.new tight)).slot? (.ofRef ⟨8, 0⟩) =
      some 8 := by decide +kernel
  have hunforged : bereft.Unforged tight := by
    intro w hw
    have hcases : w.ref? = none ∨ w = .ofRef ⟨8, 0⟩ ∨ (bereft.slot? w).isSome := by
      rcases hw with hw | ⟨s, b, hb, hw⟩
      · exact hroots w hw
      · have hmem := List.mem_of_getElem? (Array.getElem?_toList ▸ (blockAt?_eq_some_iff.1 hb).2)
        exact hfields b hmem w hw
    rcases hcases with hnone | rfl | hsome
    · exact .inl hnone
    · exact .inr ⟨_, _, hearlier, rfl, 8, hslot⟩
    · exact .inr ⟨bereft, [], hr, rfl, Option.isSome_iff_exists.1 hsome⟩
  have hraises : Mutator.raises (Operation.allocStringArray [[98], [99]]).run bereft = true := by
    decide +kernel
  have hwords : ((Operation.allocStringArray [[98], [99]]).run.final bereft).liveWords = 28 := by
    decide +kernel
  obtain ⟨r, h', he⟩ := Mutator.raises_iff.1 hraises
  rw [Mutator.final_eq_of_error he] at hwords
  exact ⟨hr, hunforged, r, h', he, hwords, (intact_of_raise hr hunforged).1 _ r h' he⟩

end Heap
end MovingHeap

import MovingHeap.Proofs.Heap.Place
import MovingHeap.Proofs.Text.Cut

/-!
What a name stands for. Main statement: a name stands for the word that was last put under it, as
the collections since have turned it into another, and about any other name the report is cut so
that it fits.
-/
namespace MovingHeap
namespace Heap

variable {h h' h'' k : Heap} {f g : Word → Word} {φ : Nat → Nat} {config : Config} {name : Bytes}
  {os : List Operation} {v w : Word}

theorem Step.config_eq (hs : Step h h') : h'.config = h.config := by
  cases hs with
  | collect hc =>
    obtain ⟨rfl, -⟩ := collect_eq_ok_iff.1 hc
    exact config_moved h
  | setField hw =>
    obtain ⟨s, b, -, -, -, rfl⟩ := setField_eq_ok_iff.1 hw
    rfl
  | place | roots | register | unregister | pending | count => rfl

theorem Steps.config_eq (hs : h.Steps h') : h'.config = h.config := by
  induction hs with
  | refl => rfl
  | tail _ hs ih => exact hs.config_eq.trans ih

/-- The settings of a heap are those that it was made with. -/
theorem Reachable.config_eq (hr : Reachable config h) : h.config = config := hr.steps.config_eq

theorem SameSpace.block_eq {b : Block} (hs : SameSpace h h') (hb : h.block w = .ok (some b)) :
    ∃ c, h'.block w = .ok (some c) ∧ b.Remains c := by
  obtain ⟨s, hw, hat⟩ := block_eq_some_iff.1 hb
  obtain ⟨c, hc, hr⟩ := hs.blocks s b hat
  refine ⟨c, block_eq_some_iff.2 ⟨s, slot?_eq_some_iff.2 ⟨?_, c, hc⟩, hc⟩, hr⟩
  rw [hs.epoch]
  exact (slot?_eq_some_iff.1 hw).1

/-- What `name` stands for in `h` it stands for in `h'`, with the word turned into another by `f`
and its block moved along. -/
structure Relays (name : Bytes) (f : Word → Word) (h h' : Heap) : Prop where
  drifts : h.Drifts f h'
  named : h'.named? name = (h.named? name).map f
  block : ∀ w b, h.named? name = some w → h.block w = .ok (some b) →
    ∃ c, h'.block (f w) = .ok (some c) ∧ b.Remains c

namespace Relays

theorem refl (name : Bytes) (h : Heap) : Relays name id h h where
  drifts := .refl
  named := by rw [Option.map_id_fun, id]
  block := fun _ b _ hb => ⟨b, hb, .refl b⟩

theorem trans (hf : Relays name f h h') (hg : Relays name g h' h'') :
    Relays name (g ∘ f) h h'' where
  drifts := hf.drifts.trans hg.drifts
  named := by rw [hg.named, hf.named, Option.map_map]
  block := by
    intro w b hw hb
    obtain ⟨c, hc, hbc⟩ := hf.block w b hw hb
    obtain ⟨d, hd, hcd⟩ := hg.block (f w) c (by rw [hf.named, hw, Option.map_some]) hc
    exact ⟨d, hd, hbc.trans hcd⟩

theorem of_keeps (hk : Keeps f φ h h') : Relays name f h h' where
  drifts := hk.drifts
  named := by
    unfold named? Registry.find?
    rw [hk.registry]
    exact Registry.findEntry_map f name h.registry.entries
  block := by
    intro w b hw hb
    exact ⟨_, hk.block_eq (Place.holds (p := .name name) hw) hb, by simp, by simp, by simp⟩

theorem after {o : Operation} (ho : o.renames name = false) (h₀ : h.Sound) :
    ∃ f, Relays name f h (o.after h) := by
  by_cases ha : o.allocates = true
  · obtain ⟨f, φ, hk⟩ := Operation.kept_after ha h h₀
    exact ⟨f, of_keeps hk⟩
  have hallocates : o.allocates = false := Bool.eq_false_iff.2 ha
  rcases o.after_eq_or_quiet hallocates h with he | hq
  · rw [he]
    exact ⟨id, refl name h⟩
  · refine ⟨id, .single hq.step hq.collections, ?_, fun w b _ hb => ?_⟩
    · rw [Option.map_id_fun, id]
      exact (Operation.named?_after hallocates ho h).1
    · rcases hq.step.sameSpace_or_collect with hsame | hc
      · exact hsame.block_eq hb
      · obtain ⟨he, -⟩ := collect_eq_ok_iff.1 hc
        have hn := hq.collections
        rw [he, collections_moved] at hn
        omega

end Relays

/-- The last that a run from a new heap did with `name` was to put `w` under it, which left the heap
`k`. -/
inductive LastPut (config : Config) (name : Bytes) : List Operation → Word → Heap → Prop
  | builtin : config.registerOutOfMemory = true → name = Utf8.encode Builtin.outOfMemory.name →
    LastPut config name [] ((new config).builtin .outOfMemory) (new config)
  | register (os : List Operation) (w : Word) :
    LastPut config name (os ++ [.register name w]) w
      ((new config).perform (os ++ [.register name w]))
  | later {os : List Operation} {w : Word} {k : Heap} {o : Operation} :
    LastPut config name os w k → o.renames name = false → LastPut config name (os ++ [o]) w k

theorem perform_concat (os : List Operation) (o : Operation) (h : Heap) :
    h.perform (os ++ [o]) = o.after (h.perform os) := perform_append os [o] h

theorem LastPut.relays (hl : LastPut config name os w k) :
    k.named? name = some w ∧ ∃ f, Relays name f k ((new config).perform os) := by
  induction hl with
  | builtin hc hname => exact ⟨hname ▸ namesOutOfMemory_new hc, id, .refl ..⟩
  | register os w =>
    refine ⟨?_, id, .refl ..⟩
    rw [perform_concat]
    exact named?_register_self _ name w
  | @later os w k o _ ho ih =>
    obtain ⟨hw, f, hf⟩ := ih
    have hsound := (Reachable.new.perform os : Reachable config _).sound
    obtain ⟨g, hg⟩ := Relays.after ho hsound
    rw [perform_concat]
    exact ⟨hw, g ∘ f, hf.trans hg⟩

theorem named?_new (hname : (new config).named? name = some w) :
    config.registerOutOfMemory = true ∧ name = Utf8.encode Builtin.outOfMemory.name := by
  have hregistry : (new config).registry = if config.registerOutOfMemory then
      Registry.insert {} (Utf8.encode Builtin.outOfMemory.name) ((new config).builtin .outOfMemory)
      else {} := rfl
  rw [named?, hregistry] at hname
  split at hname
  next hc =>
    refine ⟨hc, by_contra fun hne => ?_⟩
    rw [Registry.find?_insert_of_ne _ hne] at hname
    cases hname
  next => cases hname

/-- A name stands for something only if a word was put under it. -/
theorem exists_lastPut (hname : ((new config).perform os).named? name = some v) :
    ∃ w k, LastPut config name os w k := by
  induction os using List.reverseRecOn generalizing v with
  | nil =>
    obtain ⟨hc, hname⟩ := named?_new hname
    exact ⟨_, _, .builtin hc hname⟩
  | append_singleton os o ih =>
    rw [perform_concat] at hname
    by_cases ho : o.renames name = false
    · have hsound := (Reachable.new.perform os : Reachable config _).sound
      obtain ⟨f, hf⟩ := Relays.after ho hsound
      rw [hf.named] at hname
      obtain ⟨u, hu, -⟩ := Option.map_eq_some_iff.1 hname
      obtain ⟨w, k, hl⟩ := ih hu
      exact ⟨w, k, .later hl ho⟩
    · cases o with
      | register other w =>
        obtain rfl : other = name := by simpa [Operation.renames] using ho
        exact ⟨w, _, .register os w⟩
      | unregister other =>
        obtain rfl : other = name := by simpa [Operation.renames] using ho
        rw [show (Operation.unregister other).after ((new config).perform os) =
          ((new config).perform os).unregister other from rfl, named?_unregister_self] at hname
        cases hname
      | _ => exact absurd rfl ho

/-- Looking up a name gives the word that was last put under it, as it has been relayed since. If
none was, or it was taken away again, the raise names what was looked for, cut to the configured
length; the search for the place to cut at ends before it could step back from zero. -/
theorem named_reports (config : Config) (os : List Operation) (name : Bytes) :
    let h := (new config).perform os
    let report := name ++ Utf8.encode " not registered."
    ((∃ v, Mutator.named name h = .ok v h) ↔ ∃ w k, LastPut config name os w k) ∧
    (∀ w k, LastPut config name os w k → k.named? name = some w ∧
      ∃ f, Relays name f k h ∧ Mutator.named name h = .ok (f w) h) ∧
    ((¬ ∃ w k, LastPut config name os w k) →
      ∃ m, Mutator.named name h = .error (.raise (.failure m)) h ∧
        Utf8.IsCut report config.messageLimit m) := by
  intro h report
  have hconfig : h.config = config := (Reachable.new.perform os).config_eq
  have hput (w k) (hl : LastPut config name os w k) : k.named? name = some w ∧
      ∃ f, Relays name f k h ∧ Mutator.named name h = .ok (f w) h := by
    obtain ⟨hw, f, hf⟩ := hl.relays
    refine ⟨hw, f, hf, ?_⟩
    rw [Mutator.named_apply, named, hf.named, hw, Option.map_some]
  refine ⟨⟨?_, ?_⟩, hput, fun hno => ?_⟩
  · rintro ⟨v, hv⟩
    rw [Mutator.named_apply] at hv
    cases hn : h.named name with
    | ok => exact exists_lastPut (named_eq_ok_iff.1 hn)
    | error => simp [hn] at hv
  · rintro ⟨w, k, hl⟩
    obtain ⟨-, f, -, hv⟩ := hput w k hl
    exact ⟨f w, hv⟩
  · have hnone : h.named? name = none := by
      rw [Option.eq_none_iff_forall_not_mem]
      exact fun v hv => hno (exists_lastPut hv)
    refine ⟨h.missingName name, ?_, ?_⟩
    · rw [Mutator.named_apply, named, hnone]
    · rw [missingName, hconfig]
      exact Utf8.isCut_cut report config.messageLimit

end Heap
end MovingHeap

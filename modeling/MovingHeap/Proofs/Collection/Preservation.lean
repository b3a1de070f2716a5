import Mathlib.Data.Set.Card
import MovingHeap.Proofs.Mutator.Operation

/-!
What a collection does to the rooted graph. Main statement: the new heap is the part of the old one
that the roots reach, with its slots renamed one to one and its references changed accordingly.
-/
namespace MovingHeap
namespace Heap

variable {h h' : Heap}

/-- The slots that the roots reach. -/
def live (h : Heap) : Set Nat := {s | h.Reaches h.rootWords s}

/-- `w` with the slot that it resolves to renamed by `φ`, under the next epoch; any other word as it
is. -/
def renameWord (h : Heap) (φ : Nat → Nat) (w : Word) : Word :=
  match h.slot? w with
  | some s => .ofRef ⟨φ s, nextEpoch h.epoch⟩
  | none => w

/-- `h'` is what the roots of `h` reach, with each slot `s` of it renamed to `φ s`. -/
structure Relocation (h h' : Heap) (φ : Nat → Nat) : Prop where
  bijective : Set.BijOn φ h.live {s | ∃ b, h'.blockAt? s = some b}
  block : ∀ s ∈ h.live, ∃ b b', h.blockAt? s = some b ∧ h'.blockAt? (φ s) = some b' ∧
    b'.tag = b.tag ∧ b'.bytes? = b.bytes? ∧ b'.fields = b.fields.map (h.renameWord φ)
  resolves : ∀ s ∈ h.live, h'.slot? (.ofRef ⟨φ s, nextEpoch h.epoch⟩) = some (φ s)
  epoch : h'.epoch = nextEpoch h.epoch
  roots : h'.roots = h.roots.map (h.renameWord φ)
  registry : h'.registry.entries = h.registry.entries.map fun e => (e.1, h.renameWord φ e.2)
  builtins : ∀ b, h'.builtin b = h.renameWord φ (h.builtin b)
  pending : h'.pending = h.pending.map (h.renameWord φ)
  config : h'.config = h.config
  identities : h'.identities = h.identities
  allocated : h'.allocated = h.allocated
  sinceCollection : h'.sinceCollection = 0
  liveWords : h'.liveWords = wordsOf h'.blocks
  collections : h'.collections = h.collections + 1

theorem mem_live_iff {s : Nat} : s ∈ h.live ↔ s ∈ h.survivors := mem_survivors_iff.symm

theorem ncard_live (h : Heap) : h.live.ncard = h.survivors.length := by
  have he : h.live = ↑h.survivors.toFinset := by
    ext s
    simp [mem_live_iff]
  rw [he, Set.ncard_coe_finset, List.toFinset_card_of_nodup h.listing_survivors.nodup]

/-- A word that resolves to no block stays as it is, a word that resolves to a live one is renamed.
-/
theorem carry_eq_renameWord {w : Word} (hw : ∀ s, h.slot? w = some s → s ∈ h.survivors) :
    h.carry w = h.renameWord h.newSlot w := by
  unfold renameWord
  split
  next s hs => exact carry_of_slot? hs (hw s hs)
  next hs => exact carry_of_slot?_eq_none hs

theorem carry_rootWord {w : Word} (hw : w ∈ h.rootWords) :
    h.carry w = h.renameWord h.newSlot w :=
  carry_eq_renameWord fun _ hs => mem_survivors_of_rootWord hw hs

theorem newSlot_bijOn (h : Heap) :
    Set.BijOn h.newSlot h.live {s | ∃ b, h.moved.blockAt? s = some b} := by
  refine ⟨?_, ?_, ?_⟩
  · intro s hs
    obtain ⟨b, hb⟩ := hs.exists_block
    exact ⟨_, blockAt?_moved_newSlot (mem_live_iff.1 hs) hb⟩
  · intro s hs t ht he
    unfold newSlot at he
    exact (List.idxOf_inj (mem_live_iff.1 hs)).1 (by omega)
  · rintro t ⟨b, hb⟩
    obtain ⟨s, hs, -, -, rfl, -⟩ := exists_of_blockAt?_moved hb
    exact ⟨s, mem_live_iff.2 hs, rfl⟩

theorem relocation_moved (hm : h.moved.Sound) : h.Relocation h.moved h.newSlot where
  bijective := h.newSlot_bijOn
  block := by
    intro s hs
    obtain ⟨b, hb⟩ := hs.exists_block
    have hs' := mem_live_iff.1 hs
    refine ⟨b, _, hb, blockAt?_moved_newSlot hs' hb, by simp, by simp, ?_⟩
    rw [Block.fields_mapFields]
    exact List.map_congr_left fun w hw =>
      carry_eq_renameWord fun t ht => mem_survivors_of_field hs' hb hw ht
  resolves := by
    intro s hs
    obtain ⟨b, hb⟩ := h.newSlot_bijOn.mapsTo hs
    obtain ⟨hlo, hhi⟩ := bounds_of_blockAt? hb
    exact h.epoch_moved ▸ hm.slot?_ofRef hlo hhi
  epoch := h.epoch_moved
  roots := by
    rw [roots_moved]
    exact List.map_congr_left fun w hw => carry_rootWord (List.mem_append_left _ hw)
  registry := by
    rw [registry_moved]
    exact List.map_congr_left fun e he => Prod.ext rfl (carry_rootWord (mem_rootWords_of_entry he))
  builtins := fun b => (h.builtin_moved b).trans (carry_rootWord (h.builtin_mem_rootWords b))
  pending := by
    rw [pending_moved]
    exact Option.map_congr fun w hw => carry_rootWord (mem_rootWords_of_pending hw)
  config := h.config_moved
  identities := h.identities_moved
  allocated := h.allocated_moved
  sinceCollection := by rw [moved_eq]
  liveWords := by rw [moved_eq]
  collections := by rw [moved_eq]

/-- A collection comes to its end exactly if there are slots for the live blocks, and then it has
moved the rooted graph and dropped the rest. -/
theorem collect_preserves_rooted_graph {config : Config} (hr : Reachable config h) :
    ((∃ h', h.collect = .ok h') ↔ h.next ≤ maxSlot ∧ h.next + h.live.ncard ≤ maxSlot + 1) ∧
    ∀ h', h.collect = .ok h' → ∃ φ, h.Relocation h' φ := by
  constructor
  · simp only [collect_eq_ok_iff, next_moved, ncard_live]
    constructor
    · rintro ⟨h', -, hn⟩
      exact hn
    · intro hn
      exact ⟨h.moved, rfl, hn⟩
  · intro h' hc
    have hs : h'.Sound := (Step.collect hc).sound hr.sound
    obtain ⟨rfl, -⟩ := collect_eq_ok_iff.1 hc
    exact ⟨h.newSlot, relocation_moved hs⟩

/-- A block that refers to itself, held by a root, by a root with bit 63 set, and beside a root that
is stale. -/
def ring : Heap :=
  let self : Word := .ofRef ⟨8, 0⟩
  (Operation.root (.ofRef ⟨8, 5⟩)).after <|
    (Operation.root ⟨self.bits ||| 0x8000000000000000⟩).after <|
      (Operation.root self).after <|
        (Operation.setField self 1 self).after <|
          (Operation.allocTuple [.unit, .unit]).after (.new {})

theorem collect_preserves_ring :
    Reachable {} ring ∧ ∃ h' φ, ring.collect = .ok h' ∧ ring.Relocation h' φ ∧
      h'.roots = [.ofRef ⟨9, 1⟩, .ofRef ⟨9, 1⟩, .ofRef ⟨8, 5⟩] := by
  have hr : Reachable {} ring := .after _ (.after _ (.after _ (.after _ (.after _ .new))))
  have hroots : ring.collect.toOption.map (·.roots) =
      some [.ofRef ⟨9, 1⟩, .ofRef ⟨9, 1⟩, .ofRef ⟨8, 5⟩] := by decide +kernel
  refine ⟨hr, ?_⟩
  cases hc : ring.collect with
  | error => simp [hc, Except.toOption] at hroots
  | ok h' =>
    obtain ⟨φ, hφ⟩ := (collect_preserves_rooted_graph hr).2 h' hc
    rw [hc] at hroots
    exact ⟨h', φ, rfl, hφ, Option.some.inj hroots⟩

end Heap
end MovingHeap

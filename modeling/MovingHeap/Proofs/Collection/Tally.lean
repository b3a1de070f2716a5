import MovingHeap.Proofs.Collection.Course
import MovingHeap.Proofs.Collection.Preservation

/-!
The tables of a collection: the source blocks that are left, and the new slots of those that are
taken. Main statement: after every call the tables agree with each other and with the target, and
the scan ends after a turn for each block in the target, with no reference to the old space left.
-/
namespace MovingHeap

namespace Copying

/-- What the tables make of `w`: the word for its new slot, if there is one. -/
def image (c : Copying) (w : Word) : Word :=
  match (c.position? w).bind fun i => c.forwarding[i]?.join with
  | some slot => c.targetWord slot
  | none => w

/-- Forwarding `w` finds its block taken, and no new slot for it. -/
def Strands (c : Copying) (w : Word) : Prop :=
  ∃ i, c.position? w = some i ∧ c.forwarding[i]?.join = none ∧ c.source[i]?.join = none

theorem lt_of_position? {c : Copying} {w : Word} {i : Nat} (hw : c.position? w = some i) :
    i < c.forwarding.size := by
  unfold position? at hw
  split at hw
  · cases hw
  · split at hw
    next r _ hr =>
      rw [Option.some.injEq] at hw
      omega
    next => cases hw

end Copying

/-- What has become of `b`, the block at position `j` of the target: the fields that the scan has
passed are forwarded. -/
def Progress.passed (p : Progress) (j : Nat) (b : Block) : Block :=
  if j < p.scanned then b.mapFields p.copy.image
  else if j = p.scanned then b.mapFirst p.fields p.copy.image
  else b

namespace Heap

/-- The tables of a collection of `h` that has come to `p`, and has copied the blocks at the source
positions `taken`. -/
structure Tallies (h : Heap) (taken : List Nat) (p : Progress) : Prop where
  /-- No block is copied twice. -/
  nodup : taken.Nodup
  mem_iff : ∀ i : Nat, i ∈ taken ↔ p.copy.source[i]? = some none
  taken_iff : ∀ i : Nat, p.copy.source[i]? = some none ↔
    ∃ s, p.copy.forwarding[i]? = some (some s)
  placed : ∀ i s : Nat, p.copy.forwarding[i]? = some (some s) → h.next ≤ s ∧ s ≤ maxSlot ∧
    ∃ b, h.blocks[i]? = some b ∧ p.copy.target[s - h.next]? = some (p.passed (s - h.next) b)
  injective : ∀ i j s : Nat, p.copy.forwarding[i]? = some (some s) →
    p.copy.forwarding[j]? = some (some s) → i = j
  size_target : p.copy.target.size = {i : Nat | ∃ s, p.copy.forwarding[i]? = some (some s)}.ncard
  size_le : p.copy.target.size ≤ p.copy.source.size
  scanned_le : p.scanned ≤ p.copy.target.size
  not_strands : ∀ w, ¬ p.copy.Strands w

variable {h : Heap} {order taken : List Nat} {p : Progress} {i j s : Nat} {b : Block}

theorem Follows.image {k : Nat} {c : Copying} (hc : h.Follows order k c) (w : Word) :
    c.image w = h.relocate order w := by
  rw [Copying.image, hc.position?]
  cases hs : h.slot? w with
  | none => simp [relocate_of_slot?_eq_none hs]
  | some s =>
    obtain ⟨hlo, hhi⟩ := bounds_of_slot? hs
    simp only [Option.map_some, Option.bind_some, hc.forwarding s hlo hhi, Option.join_some]
    by_cases hm : s ∈ order
    · simp [hm, relocate_of_mem hs hm, Copying.targetWord, hc.targetEpoch]
    · simp [hm, relocate, hs]

namespace Visits

theorem image (hp : h.Visits order p) : p.copy.image = h.relocate order := by
  obtain ⟨c, hc, he⟩ := hp.copy
  funext w
  rw [he]
  exact hc.image w

theorem target (hp : h.Visits order p) (hs : order[j]? = some s) (hb : h.blockAt? s = some b) :
    p.copy.target[j]? = some (p.passed j b) := by
  by_cases hj : p.scanned = j
  · subst hj
    rw [hp.target_scanned hs hb, Progress.passed, if_neg (Nat.lt_irrefl _), if_pos rfl, hp.image]
  · obtain ⟨c, hc, he⟩ := hp.copy
    rw [Progress.passed, hp.image, if_neg (Ne.symm hj), he, Copying.rewrite, Array.getElem?_modify,
      if_neg hj, hc.target j s hs, hb, Option.map_some]

end Visits

namespace Collecting

theorem listing (hp : h.Collecting taken p) : h.Listing (taken.map (h.start + ·)) := by
  obtain ⟨c, hc, -⟩ := hp.visits.copy
  exact hc.listing

theorem nodup (hp : h.Collecting taken p) : taken.Nodup := hp.listing.nodup.of_map

theorem exists_block (hp : h.Collecting taken p) (hi : taken[j]? = some i) :
    ∃ b, h.blocks[i]? = some b ∧ h.blockAt? (h.start + i) = some b := by
  have hs : (taken.map (h.start + ·))[j]? = some (h.start + i) := by rw [List.getElem?_map, hi]; rfl
  obtain ⟨b, hb⟩ := hp.listing.exists_block hs
  have hblock := (blockAt?_eq_some_iff.1 hb).2
  rw [Nat.add_sub_cancel_left] at hblock
  exact ⟨b, hblock, hb⟩

theorem exists_follows (hp : h.Collecting taken p) :
    ∃ c, h.Follows (taken.map (h.start + ·)) p.scanned c ∧ p.copy.source = c.source ∧
      p.copy.forwarding = c.forwarding ∧ p.copy.target.size = c.target.size := by
  obtain ⟨c, hc, he⟩ := hp.visits.copy
  rw [he]
  exact ⟨c, hc, rfl, rfl, Array.size_modify⟩

theorem size_source (hp : h.Collecting taken p) : p.copy.source.size = h.blocks.size := by
  obtain ⟨c, hc, hsource, -, -⟩ := hp.exists_follows
  rw [hsource, hc.sourceSize]

theorem size_forwarding (hp : h.Collecting taken p) : p.copy.forwarding.size = h.blocks.size := by
  obtain ⟨c, hc, -, hforwarding, -⟩ := hp.exists_follows
  rw [hforwarding, hc.forwardingSize]

theorem size_target (hp : h.Collecting taken p) : p.copy.target.size = taken.length := by
  obtain ⟨c, hc, -, -, htarget⟩ := hp.exists_follows
  rw [htarget, hc.targetSize, List.length_map]

theorem source (hp : h.Collecting taken p) (hi : i < h.blocks.size) :
    p.copy.source[i]? = some (if i ∈ taken then none else h.blocks[i]?) := by
  obtain ⟨c, hc, hsource, -, -⟩ := hp.exists_follows
  have hslot := hc.source (h.start + i) (Nat.le_add_right _ _) (by unfold Heap.next; omega)
  rw [blockAt?_of_le (Nat.le_add_right _ _), Nat.add_sub_cancel_left] at hslot
  rw [hsource]
  simpa using hslot

/-- The new slots are given out in the order of copying. -/
theorem forwarding_eq_some_iff (hp : h.Collecting taken p) :
    p.copy.forwarding[i]? = some (some s) ↔ ∃ j, taken[j]? = some i ∧ s = h.next + j := by
  obtain ⟨c, hc, -, hforwarding, -⟩ := hp.exists_follows
  have hslot : i < h.blocks.size → c.forwarding[i]? = some (if i ∈ taken then
      some (h.next + (taken.map (h.start + ·)).idxOf (h.start + i)) else none) := by
    intro hi
    have hslot := hc.forwarding (h.start + i) (Nat.le_add_right _ _) (by unfold Heap.next; omega)
    rw [Nat.add_sub_cancel_left] at hslot
    simpa using hslot
  rw [hforwarding]
  constructor
  · intro hs
    have hi := hc.forwardingSize ▸ (Array.getElem?_eq_some_iff.1 hs).1
    rw [hslot hi, Option.some.injEq] at hs
    split at hs
    next hm =>
      have hmem : h.start + i ∈ taken.map (h.start + ·) := List.mem_map_of_mem hm
      refine ⟨_, ?_, (Option.some.inj hs).symm⟩
      simpa using List.getElem?_idxOf hmem
    next => cases hs
  · rintro ⟨j, hj, rfl⟩
    obtain ⟨b, hb, -⟩ := hp.exists_block hj
    have hs : (taken.map (h.start + ·))[j]? = some (h.start + i) := by simp [hj]
    obtain ⟨hlt, he⟩ := List.getElem?_eq_some_iff.1 hs
    rw [hslot (Array.getElem?_eq_some_iff.1 hb).1, if_pos (List.mem_of_getElem? hj), ← he,
      hp.listing.nodup.idxOf_getElem]

theorem exists_forwarding_iff (hp : h.Collecting taken p) :
    (∃ s, p.copy.forwarding[i]? = some (some s)) ↔ i ∈ taken := by
  simp only [hp.forwarding_eq_some_iff, List.mem_iff_getElem?]
  constructor
  · rintro ⟨-, j, hj, -⟩
    exact ⟨j, hj⟩
  · rintro ⟨j, hj⟩
    exact ⟨_, j, hj, rfl⟩

theorem source_eq_none_iff (hp : h.Collecting taken p) :
    p.copy.source[i]? = some none ↔ i ∈ taken := by
  constructor
  · intro hs
    have hi := hp.size_source ▸ (Array.getElem?_eq_some_iff.1 hs).1
    rw [hp.source hi, Option.some.injEq, Array.getElem?_eq_getElem hi] at hs
    by_contra hm
    simp [hm] at hs
  · intro hm
    obtain ⟨j, hj⟩ := List.mem_iff_getElem?.1 hm
    obtain ⟨b, hb, -⟩ := hp.exists_block hj
    rw [hp.source (Array.getElem?_eq_some_iff.1 hb).1, if_pos hm]

theorem not_strands (hp : h.Collecting taken p) (w : Word) : ¬ p.copy.Strands w := by
  rintro ⟨i, hw, hforwarding, hsource⟩
  have hi := hp.size_forwarding ▸ Copying.lt_of_position? hw
  by_cases hm : i ∈ taken
  · obtain ⟨s, hs⟩ := hp.exists_forwarding_iff.2 hm
    simp [hs] at hforwarding
  · rw [hp.source hi, if_neg hm, Array.getElem?_eq_getElem hi] at hsource
    cases hsource

/-- Each copied block is live, and has a slot of its own. -/
theorem length_le (hp : h.Collecting taken p) : taken.length ≤ h.live.ncard := by
  have hsub : taken.map (h.start + ·) ⊆ h.survivors :=
    fun s hs => mem_survivors_iff.2 (hp.visits.reached s hs)
  have hle := hp.listing.nodup.length_le_of_subset hsub
  rwa [List.length_map, ← ncard_live] at hle

theorem size_target_le (hp : h.Collecting taken p) :
    p.copy.target.size ≤ p.copy.source.size := by
  have hle := hp.listing.length_le
  rwa [List.length_map, ← hp.size_target, ← hp.size_source] at hle

theorem tallies (hp : h.Collecting taken p) (hroom : h.next + h.live.ncard ≤ maxSlot + 1) :
    h.Tallies taken p where
  nodup := hp.nodup
  mem_iff := fun _ => hp.source_eq_none_iff.symm
  taken_iff := fun _ => hp.source_eq_none_iff.trans hp.exists_forwarding_iff.symm
  placed := by
    intro i s hs
    obtain ⟨j, hj, rfl⟩ := hp.forwarding_eq_some_iff.1 hs
    obtain ⟨b, hb, hslot⟩ := hp.exists_block hj
    have hlt := (List.getElem?_eq_some_iff.1 hj).1
    have hlen := hp.length_le
    refine ⟨Nat.le_add_right _ _, by omega, b, hb, ?_⟩
    rw [Nat.add_sub_cancel_left]
    exact hp.visits.target (by simp [hj]) hslot
  injective := by
    intro i i' s hs hs'
    obtain ⟨j, hj, rfl⟩ := hp.forwarding_eq_some_iff.1 hs
    obtain ⟨j', hj', he⟩ := hp.forwarding_eq_some_iff.1 hs'
    obtain rfl := Nat.add_left_cancel he
    exact Option.some.inj (hj.symm.trans hj')
  size_target := by
    have hset : {i : Nat | ∃ s, p.copy.forwarding[i]? = some (some s)} = ↑taken.toFinset := by
      ext i
      simp [hp.exists_forwarding_iff]
    rw [hset, Set.ncard_coe_finset, List.toFinset_card_of_nodup hp.nodup, hp.size_target]
  size_le := hp.size_target_le
  scanned_le := by
    obtain ⟨c, hc, -, -, htarget⟩ := hp.exists_follows
    exact htarget ▸ hc.targetSize ▸ hc.scanned_le
  not_strands := hp.not_strands

/-- Where the scan has ended, it has been through the whole target. -/
theorem scanned_eq_of_end (hp : h.Collecting taken p) (hend : p.next? = none) :
    p.scanned = p.copy.target.size := by
  obtain ⟨c, hc, -, -, htarget⟩ := hp.exists_follows
  have hle := Array.getElem?_eq_none_iff.1 (Progress.next?_eq_none_iff.1 hend).2
  have hge := hc.scanned_le
  rw [← hc.targetSize, ← htarget] at hge
  omega

/-- Where the scan has ended, no field refers to the old space. -/
theorem slot?_field_of_end (hp : h.Collecting taken p) (h₀ : h.Sound)
    (hroom : h.next + h.live.ncard ≤ maxSlot + 1) (hend : p.next? = none) {w : Word}
    (hb : b ∈ p.copy.target) (hw : w ∈ b.fields) : h.slot? w = none := by
  obtain ⟨c, hc, -⟩ := hp.exists_follows
  obtain ⟨j, hj⟩ := Array.mem_iff_getElem?.1 hb
  have hscanned := hp.scanned_eq_of_end hend
  have hlt := (Array.getElem?_eq_some_iff.1 hj).1
  have hlt' : j < taken.length := hp.size_target ▸ hlt
  obtain ⟨b', -, hb'⟩ := hp.exists_block (List.getElem?_eq_getElem hlt')
  have hs : (taken.map (h.start + ·))[j]? = some (h.start + taken[j]) := by simp
  rw [hp.visits.target hs hb', Option.some.injEq, Progress.passed, if_pos (by omega),
    hp.visits.image] at hj
  rw [← hj, Block.fields_mapFields] at hw
  obtain ⟨v, hv, rfl⟩ := List.mem_map.1 hw
  cases hslot : h.slot? v with
  | none => rwa [relocate_of_slot?_eq_none hslot]
  | some t =>
    have hm := hc.scanned j (by omega) _ hs v (fieldsAt_of_blockAt? hb' ▸ hv) t hslot
    have hidx := List.idxOf_lt_length_of_mem hm
    have hlen := hp.length_le
    rw [List.length_map] at hidx
    rw [relocate_of_mem hslot hm]
    exact slot?_ofRef_nextEpoch
      ⟨by change h.next + _ ≤ maxSlot; omega, nextEpoch_le h₀.epoch_le⟩

end Collecting

/-- The scan ends, with the copy that the new heap is made from. -/
theorem exists_collecting_end (h : Heap) : ∃ taken p, h.Collecting taken p ∧ p.next? = none ∧
    p.copy = (h.forwardRoots.run h.copying).2.scan := by
  obtain ⟨taken, p, hp, hr, hcopy, hend⟩ :=
    h.exists_collecting_scanFrom (h.forwardRoots.run h.copying).2.source.size
  refine ⟨taken, p, hp, ?_, hcopy⟩
  rcases hend with hscanned | hend
  · rw [h.follows_forwardRoots.sourceSize, ← hp.size_source] at hscanned
    exact Progress.next?_eq_none_iff.2 ⟨hr, Array.getElem?_eq_none (hscanned ▸ hp.size_target_le)⟩
  · exact hend

/-- With slots for the live blocks, the tables of a collection agree with each other and with the
target after every call, and thus between any two turns of the scan. The scan ends when it has been
through the target, with the copy that the new heap is made from and without a reference to the old
space. -/
theorem collecting_tallies {config : Config} (hr : Reachable config h)
    (hroom : h.next ≤ maxSlot ∧ h.next + h.live.ncard ≤ maxSlot + 1) :
    (∀ taken p, h.Collecting taken p → h.Tallies taken p) ∧
    (∀ n, ∃ taken p, h.Collecting taken p ∧
      p.copy = (h.forwardRoots.run h.copying).2.scanFrom n 0) ∧
    ∃ taken p h', h.Collecting taken p ∧ p.next? = none ∧
      p.scanned = p.copy.target.size ∧ p.scanned ≤ h.blocks.size ∧
      (∀ b ∈ p.copy.target, ∀ w ∈ b.fields, h.slot? w = none) ∧
      p.copy = (h.forwardRoots.run h.copying).2.scan ∧
      h.collect = .ok h' ∧ h'.blocks = p.copy.target := by
  obtain ⟨hnext, hlive⟩ := hroom
  refine ⟨fun taken p hp => hp.tallies hlive, fun n => ?_, ?_⟩
  · obtain ⟨taken, p, hp, -, hcopy, -⟩ := h.exists_collecting_scanFrom n
    exact ⟨taken, p, hp, hcopy⟩
  · obtain ⟨taken, p, hp, hend, hcopy⟩ := h.exists_collecting_end
    have hscanned := hp.scanned_eq_of_end hend
    have hc : h.collect = .ok h.moved :=
      collect_eq_ok_iff.2 ⟨rfl, hnext, by rwa [next_moved, ← ncard_live]⟩
    exact ⟨taken, p, h.moved, hp, hend, hscanned, hscanned ▸ hp.size_source ▸ hp.size_target_le,
      fun b hb w hw => hp.slot?_field_of_end hr.sound hlive hend hb hw, hcopy, hc, hcopy ▸ rfl⟩

/-- Two blocks that refer to each other, one of them held by two roots, with a dropped block between
them and a field that is stale. -/
def couple : Heap :=
  let first : Word := .ofRef ⟨8, 0⟩
  let second : Word := .ofRef ⟨10, 0⟩
  (Operation.root second).after <|
    (Operation.root second).after <|
      (Operation.setField first 0 second).after <|
        (Operation.allocTuple [first]).after <|
          (Operation.allocString []).after <|
            (Operation.allocTuple [.unit, .ofRef ⟨8, 5⟩]).after (.new {})

theorem collecting_tallies_couple :
    Reachable {} couple ∧ couple.next = 11 ∧ couple.live.ncard = 10 ∧
    couple.blockAt? 8 = some (.tuple [.ofRef ⟨10, 0⟩, .ofRef ⟨8, 5⟩]) ∧
    couple.blockAt? 10 = some (.tuple [.ofRef ⟨8, 0⟩]) ∧
    ∃ taken p, couple.Collecting taken p ∧ p.next? = none ∧ couple.Tallies taken p ∧
      p.scanned = 10 ∧ p.copy.target[0]? = some (.tuple [.ofRef ⟨16, 1⟩]) ∧
      p.copy.target[5]? = some (.tuple [.ofRef ⟨11, 1⟩, .ofRef ⟨8, 5⟩]) := by
  have hr : Reachable {} couple :=
    .after _ (.after _ (.after _ (.after _ (.after _ (.after _ .new)))))
  have hnext : couple.next = 11 := by decide +kernel
  have hlive : couple.live.ncard = 10 := by
    rw [ncard_live]
    decide +kernel
  have hblocks : couple.collect.toOption.map
      (fun h => (h.blocks.size, h.blocks[0]?, h.blocks[5]?)) =
        some (10, some (.tuple [.ofRef ⟨16, 1⟩]),
          some (.tuple [.ofRef ⟨11, 1⟩, .ofRef ⟨8, 5⟩])) := by
    decide +kernel
  have hmax : maxSlot = 0x7FFFFFFFFFFF := rfl
  obtain ⟨htallies, -, taken, p, h', hp, hend, hscanned, -, -, -, hc, htarget⟩ :=
    collecting_tallies hr ⟨by omega, by omega⟩
  rw [hc] at hblocks
  simp only [Except.toOption, Option.map_some, Option.some.injEq, Prod.mk.injEq, htarget] at hblocks
  obtain ⟨hsize, hfirst, hsecond⟩ := hblocks
  exact ⟨hr, hnext, hlive, by decide +kernel, by decide +kernel, taken, p, hp, hend,
    htallies taken p hp, hscanned.trans hsize, hfirst, hsecond⟩

end Heap
end MovingHeap

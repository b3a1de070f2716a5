import MovingHeap.Proofs.Heap.Standing

/-!
How long a reference lasts. Between collections a slot keeps its block, and a collection gives out
new slots only. Main statement: a reference that has resolved resolves to its block until the next
collection, and is found stale ever after, however often the epochs have gone round.
-/
namespace MovingHeap

/-- `c` is what `b` may have become without being moved: only the contents of fields change. -/
structure Block.Remains (b c : Block) : Prop where
  tag : c.tag = b.tag
  bytes : c.bytes? = b.bytes?
  length : c.fields.length = b.fields.length

theorem Block.Remains.refl (b : Block) : b.Remains b := ⟨rfl, rfl, rfl⟩

theorem Block.Remains.trans {b c d : Block} (hc : b.Remains c) (hd : c.Remains d) : b.Remains d :=
  ⟨hd.tag.trans hc.tag, hd.bytes.trans hc.bytes, hd.length.trans hc.length⟩

theorem Block.Remains.size {b c : Block} (hr : b.Remains c) : c.size = b.size := by
  have ht := hr.tag
  have hbytes := hr.bytes
  have hlen := hr.length
  cases b <;> cases c <;> simp_all [Block.tag, Block.bytes?, Block.fields, Block.size]

namespace Heap

variable {h h' h'' : Heap} {w : Word} {r : Ref} {b : Block}

/-- Nothing has been collected between `h` and `h'`: the slots in use have kept their blocks. -/
structure SameSpace (h h' : Heap) : Prop where
  start : h'.start = h.start
  epoch : h'.epoch = h.epoch
  collections : h'.collections = h.collections
  next : h.next ≤ h'.next
  blocks : ∀ s b, h.blockAt? s = some b → ∃ c, h'.blockAt? s = some c ∧ b.Remains c

namespace SameSpace

theorem refl (h : Heap) : SameSpace h h :=
  ⟨rfl, rfl, rfl, Nat.le_refl _, fun _ b hb => ⟨b, hb, .refl b⟩⟩

theorem trans (h₁ : SameSpace h h') (h₂ : SameSpace h' h'') : SameSpace h h'' where
  start := h₂.start.trans h₁.start
  epoch := h₂.epoch.trans h₁.epoch
  collections := h₂.collections.trans h₁.collections
  next := Nat.le_trans h₁.next h₂.next
  blocks := by
    intro s b hb
    obtain ⟨c, hc, hbc⟩ := h₁.blocks s b hb
    obtain ⟨d, hd, hcd⟩ := h₂.blocks s c hc
    exact ⟨d, hd, hbc.trans hcd⟩

theorem of_sameStore (hs : SameStore h h') (hc : h'.collections = h.collections) :
    SameSpace h h' where
  start := hs.start
  epoch := hs.epoch
  collections := hc
  next := by
    have hn : h'.next = h.next := by rw [Heap.next, Heap.next, hs.start, hs.blocks]
    exact Nat.le_of_eq hn.symm
  blocks := fun s b hb => ⟨b, (hs.blockAt? s).trans hb, .refl b⟩

end SameSpace

/-- A step collects, or it leaves every slot in use its block. -/
theorem Step.sameSpace_or_collect (hs : Step h h') : SameSpace h h' ∨ h.collect = .ok h' := by
  cases hs with
  | collect hc => exact .inr hc
  | place b hn =>
    refine .inl ⟨rfl, rfl, rfl, by rw [next_place]; omega, fun s c hc => ⟨c, ?_, .refl c⟩⟩
    have hlt := (bounds_of_blockAt? hc).2
    rw [blockAt?_place, if_neg (by omega), hc]
  | setField hw =>
    obtain ⟨s, b, ⟨-, hb⟩, -, -, rfl⟩ := setField_eq_ok_iff.1 hw
    refine .inl ⟨rfl, rfl, rfl, by simp [next, write], fun t c hc => ?_⟩
    rw [blockAt?_write hb]
    by_cases ht : t = s
    · subst ht
      obtain rfl := Option.some.inj (hb.symm.trans hc)
      refine ⟨_, by rw [if_pos rfl], by simp, by simp, ?_⟩
      rw [Block.fields_withFields (by simp), List.length_set]
    · exact ⟨c, by rw [if_neg ht, hc], .refl c⟩
  | roots | register | unregister | pending | count =>
    exact .inl (.of_sameStore ⟨rfl, rfl, rfl⟩ rfl)

theorem collections_moved (h : Heap) : h.moved.collections = h.collections + 1 := by rw [moved_eq]

/-- After a collection the slots in use are all new, and they stay so. -/
theorem Steps.sameSpace_or_past (hs : h.Steps h') :
    SameSpace h h' ∨ h.collections < h'.collections ∧ h.next ≤ h'.start := by
  induction hs with
  | refl => exact .inl (.refl h)
  | @tail k k' _ hstep ih =>
    have hstart : k.start ≤ k.next := Nat.le_add_right _ _
    rcases hstep.sameSpace_or_collect with hsame | hc
    · rcases ih with ih | ⟨hlt, hle⟩
      · exact .inl (ih.trans hsame)
      · exact .inr ⟨hsame.collections ▸ hlt, hsame.start ▸ hle⟩
    · obtain ⟨rfl, -⟩ := collect_eq_ok_iff.1 hc
      rw [collections_moved, start_moved]
      rcases ih with ih | ⟨hlt, hle⟩
      · exact .inr ⟨by rw [ih.collections]; omega, ih.next⟩
      · exact .inr ⟨by omega, by omega⟩

theorem Steps.collections_le (hs : h.Steps h') : h.collections ≤ h'.collections := by
  rcases hs.sameSpace_or_past with hsame | ⟨hlt, -⟩
  · exact Nat.le_of_eq hsame.collections.symm
  · exact Nat.le_of_lt hlt

/-- Whatever looks at the reference `r` of the word `w` finds it stale, and a collection does not
touch the word, be it in a root or in a field. -/
structure Stale (h : Heap) (w : Word) (r : Ref) : Prop where
  lookup : h.lookup r = none
  isCurrent : h.isCurrent w = false
  outline : h.outline w = .stale
  narrow : ∀ s, h.narrow s w = .ok (.error ⟨s, .stale⟩)
  block : h.block w = .error (.stale r h.epoch)
  tag : h.tag w = .error (.stale r h.epoch)
  size : h.size w = .error (.stale r h.epoch)
  bytes : h.bytes w = .error (.stale r h.epoch)
  field : ∀ i, h.field w i = .error (.stale r h.epoch)
  setField : ∀ i x, h.setField w i x = .error (.stale r h.epoch)
  inRoot : ∀ (h' : Heap) (i : Nat), h.collect = .ok h' → h.rootWords[i]? = some w →
    h'.rootWords[i]? = some w
  inField : ∀ (h' : Heap) (s : Nat) (b : Block) (i : Nat), h.collect = .ok h' → s ∈ h.survivors →
    h.blockAt? s = some b → b.fields[i]? = some w →
    ∃ c, h'.blockAt? (h.newSlot s) = some c ∧ c.fields[i]? = some w

/-- A reference to a slot before the first is stale. -/
theorem stale_of_slot_lt (hw : w.ref? = some r) (hr : r.slot < h.start) : h.Stale w r := by
  have hrefuses := refuses_of_stale hw (.inr hr)
  have hlookup : h.lookup r = none := by simpa [hw] using hrefuses.lookup
  have hcarry : h.carry w = w := carry_of_slot?_eq_none (by simp [slot?, hw, hlookup])
  refine
    { hrefuses with
      lookup := hlookup
      inRoot := fun h' i hc hi => ?_
      inField := fun h' s b i hc hs hb hi => ?_ }
  · obtain ⟨rfl, -⟩ := collect_eq_ok_iff.1 hc
    rw [rootWords_moved, List.getElem?_map, hi, Option.map_some, hcarry]
  · obtain ⟨rfl, -⟩ := collect_eq_ok_iff.1 hc
    refine ⟨_, blockAt?_moved_newSlot hs hb, ?_⟩
    rw [Block.fields_mapFields, List.getElem?_map, hi, Option.map_some, hcarry]

/-- `h` leads to `h'` by steps, and on the way new blocks and copies of blocks were put into the
slots `slots`, in this order. -/
inductive Allots (h : Heap) : List Nat → Heap → Prop
  | refl : Allots h [] h
  | collect {slots : List Nat} {h' h'' : Heap} : Allots h slots h' → h'.collect = .ok h'' →
    Allots h (slots ++ h'.survivors.map h'.newSlot) h''
  | place {slots : List Nat} {h' : Heap} (b : Block) : Allots h slots h' → h'.next ≤ maxSlot →
    Allots h (slots ++ [h'.next]) (h'.place b).2
  | other {slots : List Nat} {h' h'' : Heap} : Allots h slots h' → Step h' h'' →
    h''.start = h'.start → h''.next = h'.next → Allots h slots h''

theorem Steps.exists_allots (hs : h.Steps h') : ∃ slots, Allots h slots h' := by
  induction hs with
  | refl => exact ⟨[], .refl⟩
  | @tail k k' _ hstep ih =>
    obtain ⟨slots, ha⟩ := ih
    cases hstep with
    | collect hc => exact ⟨_, .collect ha hc⟩
    | place b hn => exact ⟨_, .place b ha hn⟩
    | setField hw =>
      obtain ⟨s, b, -, -, -, rfl⟩ := setField_eq_ok_iff.1 hw
      exact ⟨slots, .other ha (.setField hw) rfl (by simp [next, write])⟩
    | roots rs => exact ⟨slots, .other ha (.roots rs) rfl rfl⟩
    | register name w => exact ⟨slots, .other ha (.register name w) rfl rfl⟩
    | unregister name => exact ⟨slots, .other ha (.unregister name) rfl rfl⟩
    | pending exn => exact ⟨slots, .other ha (.pending exn) rfl rfl⟩
    | count => exact ⟨slots, .other ha .count rfl rfl⟩

/-- The copies that a collection makes lie one after the other behind the slots in use. -/
theorem map_newSlot_survivors (h : Heap) :
    h.survivors.map h.newSlot = List.range' h.next h.survivors.length := by
  apply List.ext_getElem
  · simp
  · intro i hi hj
    have hlt : i < h.survivors.length := by simpa using hi
    simp [newSlot, h.listing_survivors.nodup.idxOf_getElem i hlt]

/-- Slots are given out in ascending order, each after all that were in use before. -/
theorem Allots.ascending {slots : List Nat} (ha : Allots h slots h') :
    slots.Pairwise (· < ·) ∧ h.next ≤ h'.next ∧ ∀ s ∈ slots, h.next ≤ s ∧ s < h'.next := by
  induction ha with
  | refl => exact ⟨.nil, Nat.le_refl _, fun _ hs => absurd hs List.not_mem_nil⟩
  | @collect slots k k' _ hc ih =>
    obtain ⟨hasc, hle, hb⟩ := ih
    obtain ⟨rfl, -⟩ := collect_eq_ok_iff.1 hc
    rw [map_newSlot_survivors, next_moved]
    refine ⟨List.pairwise_append.2 ⟨hasc, List.pairwise_lt_range', fun s hs t ht => ?_⟩, by omega,
      fun s hs => ?_⟩
    · have hlt := (hb s hs).2
      have hge := (List.mem_range'_1.1 ht).1
      omega
    · rcases List.mem_append.1 hs with hs | hs
      · have hbs := hb s hs
        omega
      · have hbs := List.mem_range'_1.1 hs
        omega
  | @place slots k b _ hn ih =>
    obtain ⟨hasc, hle, hb⟩ := ih
    rw [next_place]
    refine ⟨List.pairwise_append.2 ⟨hasc, by simp, fun s hs t ht => ?_⟩, by omega, fun s hs => ?_⟩
    · rw [List.mem_singleton.1 ht]
      exact (hb s hs).2
    · rcases List.mem_append.1 hs with hs | hs
      · have hbs := hb s hs
        omega
      · rw [List.mem_singleton.1 hs]
        omega
  | other _ _ _ hn ih => rwa [hn]

/-- A reference that resolves goes on resolving to its block until the next collection. From then on
it is stale, and no slot is ever given out again: those given out later lie behind all that were in
use, in ascending order. -/
theorem stale_forever (hw : w.ref? = some r) (hl : h.lookup r = some b) (hs : h.Steps h') :
    (h'.collections = h.collections → ∃ c, h'.lookup r = some c ∧ b.Remains c) ∧
    (h'.collections ≠ h.collections → h'.Stale w r) ∧
    (∃ slots, Allots h slots h') ∧
    ∀ slots, Allots h slots h' → slots.Pairwise (· < ·) ∧
      ∀ s ∈ slots, ∀ t c, h.blockAt? t = some c → t < s := by
  obtain ⟨hepoch, hb⟩ := lookup_eq_some_iff_blockAt?.1 hl
  have hlt := (bounds_of_blockAt? hb).2
  refine ⟨fun hc => ?_, fun hc => ?_, hs.exists_allots, fun slots ha => ?_⟩
  · rcases hs.sameSpace_or_past with hsame | ⟨hmore, -⟩
    · obtain ⟨c, hc, hbc⟩ := hsame.blocks _ b hb
      exact ⟨c, lookup_eq_some_iff_blockAt?.2 ⟨hepoch.trans hsame.epoch.symm, hc⟩, hbc⟩
    · omega
  · rcases hs.sameSpace_or_past with hsame | ⟨-, hpast⟩
    · exact absurd hsame.collections hc
    · exact stale_of_slot_lt hw (by omega)
  · obtain ⟨hasc, -, hbounds⟩ := ha.ascending
    refine ⟨hasc, fun s hs t c hc => ?_⟩
    have ht := (bounds_of_blockAt? hc).2
    have hge := (hbounds s hs).1
    omega

theorem nextEpoch_eq_mod {epoch : Nat} (he : epoch ≤ maxEpoch) :
    nextEpoch epoch = (epoch + 1) % (maxEpoch + 1) := by
  unfold nextEpoch maxEpoch at *
  split <;> omega

theorem after_collect (hc : h.collect = .ok h') : Operation.collect.after h = h' := by
  rw [Operation.after_of_update rfl, hc]

theorem perform_collect_succ (hc : h.collect = .ok h') (n : Nat) :
    h.perform (.replicate (n + 1) .collect) = h'.perform (.replicate n .collect) := by
  rw [List.replicate_succ, perform, List.foldl_cons, after_collect hc]
  rfl

/-- With enough slots left, any number of collections can follow one another, and they take the
epochs round. -/
theorem perform_replicate_collect {n : Nat} (he : h.epoch ≤ maxEpoch)
    (hn : h.next + n * h.blocks.size ≤ maxSlot) :
    (h.perform (.replicate n .collect)).epoch = (h.epoch + n) % (maxEpoch + 1) ∧
      (h.perform (.replicate n .collect)).collections = h.collections + n := by
  induction n generalizing h with
  | zero => exact ⟨(Nat.mod_eq_of_lt (Nat.lt_succ_of_le he)).symm, rfl⟩
  | succ n ih =>
    have hsize := h.listing_survivors.length_le
    have hmul := Nat.mul_le_mul_left n hsize
    rw [Nat.succ_mul] at hn
    obtain ⟨hc, -⟩ := collect_of_room (h := h) (by omega)
    have hblocks : h.moved.blocks.size = h.survivors.length := by simp [moved_eq]
    obtain ⟨hepoch, hcount⟩ := ih (h := h.moved) (h.epoch_moved ▸ nextEpoch_le he)
      (by rw [next_moved, hblocks]; omega)
    rw [perform_collect_succ hc, hepoch, hcount, collections_moved, epoch_moved,
      nextEpoch_eq_mod he, Nat.mod_add_mod]
    exact ⟨by rw [Nat.add_right_comm, Nat.add_assoc], by omega⟩

/-- A string in slot 8, which nothing holds. -/
def lettered : Heap := (Operation.allocString [97]).after (.new {})

/-- The word of the string is still stale when it is held by a root after the epochs have gone round
once, and also after the next collection. -/
theorem stale_after_round : ∃ os : List Operation, os.length = maxEpoch + 1 ∧
    (lettered.perform os).epoch = lettered.epoch ∧
    lettered.lookup ⟨8, 0⟩ = some (.string [97]) ∧
    (lettered.perform os).Stale (.ofRef ⟨8, 0⟩) ⟨8, 0⟩ ∧
    ((lettered.perform os).perform [.root (.ofRef ⟨8, 0⟩), .collect]).Stale
      (.ofRef ⟨8, 0⟩) ⟨8, 0⟩ := by
  obtain ⟨hnext, hblocks, hepoch, hcollections⟩ : lettered.next = 9 ∧ lettered.blocks.size = 9 ∧
    lettered.epoch = 0 ∧ lettered.collections = 0 := by decide +kernel
  have hl : lettered.lookup ⟨8, 0⟩ = some (.string [97]) := by decide +kernel
  have hw : (Word.ofRef ⟨8, 0⟩).ref? = some ⟨8, 0⟩ := by decide
  obtain ⟨n, hn⟩ : ∃ n, n = maxEpoch + 1 := ⟨_, rfl⟩
  have hmax : maxEpoch = 0x7FFF ∧ maxSlot = 0x7FFFFFFFFFFF := ⟨rfl, rfl⟩
  obtain ⟨hround, hcount⟩ := perform_replicate_collect (h := lettered) (n := n)
    (by omega) (by rw [hnext, hblocks]; omega)
  have hs := lettered.steps_perform (.replicate n .collect)
  have hlater := steps_perform [.root (.ofRef ⟨8, 0⟩), .collect]
    (lettered.perform (.replicate n .collect))
  have hmore := hlater.collections_le
  refine ⟨.replicate n .collect, by simpa using hn, ?_, hl, ?_, ?_⟩
  · rw [hround, hepoch, hn, Nat.zero_add, Nat.mod_self]
  · exact (stale_forever hw hl hs).2.1 (by omega)
  · exact (stale_forever hw hl (hs.trans hlater)).2.1 (by omega)

end Heap
end MovingHeap

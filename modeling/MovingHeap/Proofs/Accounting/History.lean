import Mathlib.Algebra.Order.Ring.Nat
import Mathlib.Data.List.Forall2
import MovingHeap.Proofs.Heap.Lifetime

/-!
Which blocks a heap has placed, before and since its last collection. Main statement: the words
counted since the collection are those of the blocks placed since, and these are the last blocks of
the heap; the words allocated are those of all blocks placed.
-/
namespace MovingHeap
namespace Heap

variable {h h' : Heap} {earlier recent earlier' recent' : List Block} {config : Config}

theorem SameSpace.forall₂ (hs : SameSpace h h') (hn : h'.next = h.next) :
    List.Forall₂ Block.Remains h.blocks.toList h'.blocks.toList := by
  have hsize : h'.blocks.size = h.blocks.size := by
    have hstart := hs.start
    rw [Heap.next, Heap.next] at hn
    omega
  refine List.forall₂_iff_get.2 ⟨by simp [hsize], fun i hi hi' => ?_⟩
  have hb : h.blockAt? (h.start + i) = some (h.blocks.toList.get ⟨i, hi⟩) := by
    simp [blockAt?_eq_some_iff]
  obtain ⟨c, hc, hbc⟩ := hs.blocks _ _ hb
  have hc' : h'.blockAt? (h.start + i) = some (h'.blocks.toList.get ⟨i, hi'⟩) := by
    simp [blockAt?_eq_some_iff, hs.start]
  rwa [Option.some.inj (hc'.symm.trans hc)]

/-- The counters of `h'` are those of `h`, and its blocks are of the same sizes. -/
structure SameWords (h h' : Heap) : Prop where
  config : h'.config = h.config
  sinceCollection : h'.sinceCollection = h.sinceCollection
  liveWords : h'.liveWords = h.liveWords
  allocated : h'.allocated = h.allocated
  blocks : List.Forall₂ Block.Remains h.blocks.toList h'.blocks.toList

theorem Quiet.sameWords (hq : Quiet h h') : SameWords h h' := by
  obtain ⟨hs, hn, hnext⟩ := hq
  have hblocks : List.Forall₂ Block.Remains h.blocks.toList h'.blocks.toList := by
    rcases hs.sameSpace_or_collect with hsame | hc
    · exact hsame.forall₂ hnext
    · obtain ⟨rfl, -⟩ := collect_eq_ok_iff.1 hc
      rw [collections_moved] at hn
      omega
  cases hs with
  | collect hc =>
    obtain ⟨rfl, -⟩ := collect_eq_ok_iff.1 hc
    rw [collections_moved] at hn
    omega
  | place b =>
    rw [next_place] at hnext
    omega
  | setField hw =>
    obtain ⟨s, b, -, -, -, rfl⟩ := setField_eq_ok_iff.1 hw
    exact ⟨rfl, rfl, rfl, rfl, hblocks⟩
  | roots | register | unregister | pending | count => exact ⟨rfl, rfl, rfl, rfl, hblocks⟩

/-- The blocks placed up to the last collection, and those placed since, oldest first. A new heap
has placed the blocks of the builtin exceptions. -/
inductive History (config : Config) : List Block → List Block → Heap → Prop
  | new : History config [] (Heap.new config).blocks.toList (.new config)
  | collect {earlier recent : List Block} {h h' : Heap} :
    History config earlier recent h → h.collect = .ok h' → History config (earlier ++ recent) [] h'
  | place {earlier recent : List Block} {h : Heap} (b : Block) :
    History config earlier recent h → h.next ≤ maxSlot →
      History config earlier (recent ++ [b]) (h.place b).2
  | quiet {earlier recent : List Block} {h h' : Heap} :
    History config earlier recent h → Quiet h h' → History config earlier recent h'

namespace History

theorem exists_of_step (hh : History config earlier recent h) (hs : Step h h') :
    ∃ earlier' recent', History config earlier' recent' h' := by
  obtain hc | ⟨b, hn, rfl⟩ | hq := hs.cases_quiet
  · exact ⟨_, _, hh.collect hc⟩
  · exact ⟨_, _, hh.place b hn⟩
  · exact ⟨_, _, hh.quiet hq⟩

theorem exists_of_steps (hh : History config earlier recent h) (hs : h.Steps h') :
    ∃ earlier' recent', History config earlier' recent' h' := by
  induction hs with
  | refl => exact ⟨_, _, hh⟩
  | tail _ hs ih =>
    obtain ⟨_, _, hh'⟩ := ih
    exact hh'.exists_of_step hs

end History

theorem Reachable.exists_history (hr : Reachable config h) :
    ∃ earlier recent, History config earlier recent h := History.new.exists_of_steps hr.steps

/-- How many words the blocks have, headers included. -/
def wordsIn (bs : List Block) : Nat := (bs.map Block.words).sum

theorem wordsIn_append (bs cs : List Block) : wordsIn (bs ++ cs) = wordsIn bs + wordsIn cs := by
  simp [wordsIn]

theorem wordsIn_eq_zero {bs : List Block} : wordsIn bs = 0 ↔ bs = [] := by
  constructor
  · intro hb
    cases bs with
    | nil => rfl
    | cons b bs => simp [wordsIn, Block.words] at hb
  · rintro rfl
    rfl

theorem map_words_of_forall₂ {bs cs : List Block} (hb : List.Forall₂ Block.Remains bs cs) :
    bs.map Block.words = cs.map Block.words := by
  induction hb with
  | nil => rfl
  | cons hbc _ ih => rw [List.map_cons, List.map_cons, ih, Block.words, Block.words, hbc.size]

theorem forall₂_remains_trans {bs cs ds : List Block} (hb : List.Forall₂ Block.Remains bs cs)
    (hc : List.Forall₂ Block.Remains cs ds) : List.Forall₂ Block.Remains bs ds := by
  induction hb generalizing ds with
  | nil => exact hc
  | cons hbc _ ih =>
    obtain ⟨d, ds, hcd, hrest, rfl⟩ := List.forall₂_cons_left_iff.1 hc
    exact .cons (hbc.trans hcd) (ih hrest)

/-- Two ends of one list are the same if they have as many words. -/
theorem eq_of_append_eq {front front' back back' : List Block}
    (ha : front ++ back = front' ++ back') (hw : wordsIn back = wordsIn back') : back = back' := by
  rcases List.append_eq_append_iff.1 ha with ⟨bs, -, rfl⟩ | ⟨bs, -, rfl⟩
  · rw [wordsIn_append] at hw
    rw [wordsIn_eq_zero.1 (by omega : wordsIn bs = 0), List.nil_append]
  · rw [wordsIn_append] at hw
    rw [wordsIn_eq_zero.1 (by omega : wordsIn bs = 0), List.nil_append]

/-- What the counters of `h` say, if `recent` has been placed since the last collection and
`earlier` before it. -/
structure Account (earlier recent : List Block) (h : Heap) : Prop where
  sinceCollection : h.sinceCollection = wordsIn recent
  allocated : h.allocated = wordsIn (earlier ++ recent)
  blocks : ∃ front back, h.blocks.toList = front ++ back ∧ List.Forall₂ Block.Remains recent back

namespace Account

theorem new (config : Config) : Account [] (Heap.new config).blocks.toList (.new config) := by
  have hnew : Account [] (Heap.new {}).blocks.toList (.new {}) :=
    ⟨by decide +kernel, by decide +kernel, [], _, rfl, List.forall₂_same.2 fun b _ => .refl b⟩
  exact ⟨hnew.sinceCollection, hnew.allocated, hnew.blocks⟩

theorem collect (ha : Account earlier recent h) (hc : h.collect = .ok h') :
    Account (earlier ++ recent) [] h' := by
  obtain ⟨rfl, -⟩ := collect_eq_ok_iff.1 hc
  refine ⟨by rw [moved_eq]; rfl, ?_, h.moved.blocks.toList, [], by simp, .nil⟩
  rw [List.append_nil, ← ha.allocated, moved_eq]
  rfl

theorem place (ha : Account earlier recent h) (b : Block) :
    Account earlier (recent ++ [b]) (h.place b).2 where
  sinceCollection := by
    rw [wordsIn_append, ← ha.sinceCollection]
    rfl
  allocated := by
    rw [← List.append_assoc, wordsIn_append, ← ha.allocated]
    rfl
  blocks := by
    obtain ⟨front, back, hb, hr⟩ := ha.blocks
    refine ⟨front, back ++ [b], ?_, List.rel_append hr (.cons (.refl b) .nil)⟩
    change (h.blocks.push b).toList = _
    rw [Array.toList_push, hb, List.append_assoc]

theorem quiet (ha : Account earlier recent h) (hq : Quiet h h') : Account earlier recent h' := by
  have hsame := hq.sameWords
  refine ⟨hsame.sinceCollection.trans ha.sinceCollection, hsame.allocated.trans ha.allocated, ?_⟩
  obtain ⟨front, back, hb, hr⟩ := ha.blocks
  have hblocks := hsame.blocks
  rw [hb] at hblocks
  have hback := (List.forall₂_drop_append _ _ _ hblocks.flip).flip
  exact ⟨_, _, (List.take_append_drop front.length _).symm, forall₂_remains_trans hr hback⟩

/-- What has been placed since the collection is determined by the heap, but for the contents. -/
theorem map_words_eq (ha : Account earlier recent h) (ha' : Account earlier' recent' h) :
    recent.map Block.words = recent'.map Block.words := by
  obtain ⟨front, back, hb, hr⟩ := ha.blocks
  obtain ⟨front', back', hb', hr'⟩ := ha'.blocks
  have hwords : wordsIn back = wordsIn back' := by
    rw [wordsIn, wordsIn, ← map_words_of_forall₂ hr, ← map_words_of_forall₂ hr']
    exact ha.sinceCollection.symm.trans ha'.sinceCollection
  obtain rfl := eq_of_append_eq (hb.symm.trans hb') hwords
  rw [map_words_of_forall₂ hr, map_words_of_forall₂ hr']

end Account

theorem History.account (hh : History config earlier recent h) : Account earlier recent h := by
  induction hh with
  | new => exact .new config
  | collect _ hc ih => exact ih.collect hc
  | place b _ _ ih => exact ih.place b
  | quiet _ hq ih => exact ih.quiet hq

end Heap
end MovingHeap

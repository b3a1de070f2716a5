import MovingHeap.Heap.Basic
import MovingHeap.Heap.Copying

/-!
Collection: every block that the roots reach moves to the next space, under the next epoch, and
the rest is dropped.
-/
namespace MovingHeap

/-- Epochs go round. -/
def nextEpoch (epoch : Nat) : Nat := if epoch = maxEpoch then 0 else epoch + 1

namespace Heap

/-- The copy that a collection of `h` starts with. -/
def copying (h : Heap) : Copying where
  source := h.blocks.map some
  forwarding := h.blocks.map fun _ => none
  sourceStart := h.start
  sourceEpoch := h.epoch
  targetStart := h.next
  targetEpoch := nextEpoch h.epoch

/-- Forwards the roots: the local ones, the registry, the builtin exceptions, the pending one. -/
def forwardRoots (h : Heap) : StateM Copying Heap := do
  let roots ← h.roots.mapM Copying.forward
  let registry ← h.registry.mapM Copying.forward
  let builtins ← h.builtins.mapM Copying.forward
  let pending ← h.pending.mapM Copying.forward
  return { h with roots, registry, builtins, pending }

/-- The heap after every live block has moved. -/
def moved (h : Heap) : Heap :=
  let (h', c) := h.forwardRoots.run h.copying
  let blocks := c.scan.target
  { h' with
    blocks
    start := h.next
    epoch := nextEpoch h.epoch
    sinceCollection := 0
    liveWords := wordsOf blocks
    collections := h.collections + 1 }

/-- Collects, unless the next space would begin or end beyond the slots that words can hold. -/
def collect (h : Heap) : Except Fault Heap :=
  if maxSlot < h.next then .error .slotsExhausted
  else
    let h' := h.moved
    if maxSlot + 1 < h'.next then .error .slotTooLarge else .ok h'

theorem collect_eq_ok_iff {h h' : Heap} :
    h.collect = .ok h' ↔ h' = h.moved ∧ h.next ≤ maxSlot ∧ h.moved.next ≤ maxSlot + 1 := by
  unfold collect
  split
  · simp; omega
  · simp only
    split
    · simp; omega
    · simp only [Except.ok.injEq]
      constructor
      · rintro rfl
        exact ⟨rfl, by omega, by omega⟩
      · rintro ⟨rfl, -⟩
        rfl

end Heap
end MovingHeap

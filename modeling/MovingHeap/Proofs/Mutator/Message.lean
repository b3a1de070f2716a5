import MovingHeap.Proofs.Collection.Capacity
import MovingHeap.Proofs.Heap.Names
import MovingHeap.Proofs.Mutator.Room

/-!
The exception that a raise with a message turns into. Main statement: it is a new record of the
builtin's identity and the message exactly if there is room for both beside what the roots reach,
and otherwise it is the exception for want of memory.
-/
namespace MovingHeap

namespace Heap

end Heap

theorem Tuning.Exceeded.mono {t : Tuning} {m n : Nat} (he : t.Exceeded m) (hle : m ≤ n) :
    t.Exceeded n := by
  obtain ⟨most, hmost, hlt⟩ := he
  exact ⟨most, hmost, Nat.lt_of_lt_of_le hlt hle⟩

namespace Mutator

variable {h h' : Heap} {b : Builtin} {message : Bytes} {exn text : Word} {r : Raise}

/-- A text is allocated beside what the roots reach, and if it is rooted, that is so much more. -/
theorem keeps_of_allocString (hc : h.Counted) (hr : allocString message h = .ok text h') :
    (∃ f φ, Heap.Keeps f φ h h') ∧ h.next ≤ h'.next ∧ h'.Counted ∧ h'.config = h.config ∧
      h'.block text = .ok (some (.string message)) ∧
      h'.allocated = h.allocated + (message.length / 8 + 2) ∧
      h'.reachedWords (h'.rootWords ++ [text]) =
        h.reachedWords h.rootWords + (message.length / 8 + 2) := by
  obtain ⟨f, k, hm, hn, ⟨rfl, rfl⟩, -⟩ := allocString_eq_ok hc hr
  obtain ⟨φ, hkeeps⟩ := hm.keeps hc.toSound
  have hk := hm.counted hc
  have hnext : h.next ≤ (k.place (.string message)).2.next := by
    have hle := hm.slots.1
    rw [Heap.next_place]
    omega
  refine ⟨⟨_, _, hkeeps.trans (.place _ hn)⟩, hnext, hk.place hn _, hm.config,
    hk.block_place hn _, ?_, ?_⟩
  · show k.allocated + (message.length / 8 + 2) = _
    rw [hm.allocated]
  · calc
      _ = k.reachedWords (k.rootWords ++ []) + (message.length / 8 + 2) :=
        Heap.reachedWords_place hk.toSound hn (.string message)
      _ = h.reachedWords h.rootWords + (message.length / 8 + 2) := by
        rw [List.append_nil, hm.reachedWords hc.toSound]

/-- While room is made beside a string that is held, the string is relocated. -/
theorem holding_text_eq_ok (hc : h.Counted) (htext : h.block text = .ok (some (.string message)))
    {words : Nat} {held : List Word} (hr : holding [text] (reserve words) h = .ok held h') :
    (∃ f φ text', Heap.Keeps f φ h h' ∧ held = [text'] ∧ h.next ≤ h'.next ∧
      h'.block text' = .ok (some (.string message)) ∧ h'.allocated = h.allocated) ∧
    ¬ h.config.tuning.Exceeded (h.reachedWords (h.rootWords ++ [text]) + words) := by
  obtain ⟨f, k, hroom, rfl, rfl, hfits⟩ := holding_reserve_eq_ok hc hr
  obtain ⟨φ, hk⟩ := hroom.keeps (hc.hold [text]).toSound
  have hroot : (h.hold [text]).Holds text := .inl (by simp [Heap.rootWords, Heap.hold])
  have hstring := hk.block_eq hroot (Heap.SameStore.block_eq ⟨rfl, rfl, rfl⟩ htext)
  exact ⟨⟨f, φ, f text, ((Heap.Keeps.hold h [text]).trans hk).truncateRoots, rfl, hroom.slots.1,
    Heap.SameStore.block_eq ⟨rfl, rfl, rfl⟩ hstring, hroom.allocated⟩, hfits⟩

end Mutator

namespace Heap

open Mutator (realize)

end Heap
end MovingHeap

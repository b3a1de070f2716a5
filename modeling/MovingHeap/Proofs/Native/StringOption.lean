import Mathlib.Data.List.TakeWhile
import MovingHeap.Proofs.Mutator.Message
import MovingHeap.Proofs.Mutator.Record
import MovingHeap.Proofs.Native.Strings

/-!
Options of strings. Main statement: a present option that is allocated for a string is copied as the
bytes that the string was allocated with, whatever was collected in between.
-/
namespace MovingHeap

theorem cString_append_zero (bs : Bytes) : cString (bs ++ [0]) = cString bs := by
  induction bs with
  | nil => rfl
  | cons b bs ih =>
    simp only [cString, List.cons_append, List.takeWhile_cons] at ih ⊢
    rw [ih]

theorem cString_eq_iff {bs : Bytes} : cString bs = bs ↔ 0 ∉ bs := by
  rw [cString, List.takeWhile_eq_self_iff]
  constructor
  · intro hall hmem
    simpa using hall 0 hmem
  · intro hmem b hb
    simpa using ne_of_mem_of_not_mem hb hmem

/-- The buffer is a copy of `bytes`. Readers of C strings see it up to the first zero byte, be it
among `bytes` or the one that ends them; and once it was given away it is as long as they see. -/
structure Buffer.Copies (b : Buffer) (bytes : Bytes) : Prop where
  terminated : b.terminated = bytes ++ [0]
  length : b.length = bytes.length
  visible : b.visible = cString b.terminated ∧ b.visible = cString bytes
  retaken : b.retaken.bytes = cString bytes
  retaken_eq_iff : b.retaken = b ↔ 0 ∉ bytes

theorem Buffer.mk_copies (place : Nat) (bytes : Bytes) : Copies { place, bytes } bytes where
  terminated := rfl
  length := rfl
  visible := ⟨(cString_append_zero bytes).symm, rfl⟩
  retaken := rfl
  retaken_eq_iff := by
    rw [← cString_eq_iff, retaken, mk.injEq]
    exact and_iff_right rfl

namespace Native

open Heap (payload_of_block payload_absent ne_absent_of_block)

variable {σ : Type} {h : Heap} {v w : Word} {bytes : Bytes} {t : NativeMemory × σ}

theorem ofStringOption_apply (hv : h.block v = .ok (some (.tuple [w])))
    (hw : h.block w = .ok (some (.string bytes)))
    (ht : t.1.grants t.1.requests (bytes.length + 1) = true) :
    ofStringOption h ⟨v⟩ t =
      .ok (some { place := t.1.regions.size, bytes }) (t.1.copied bytes, t.2) := by
  unfold ofStringOption
  rw [read_bind (payload_of_block hv (ne_absent_of_block hv))]
  simp only [Mutator.bind_apply, ofString_apply hw ht]
  rfl

theorem ofStringOption_absent (h : Heap) (t : NativeMemory × σ) :
    ofStringOption h ⟨.absent⟩ t = .ok none t := by
  unfold ofStringOption
  rw [read_bind payload_absent]
  rfl

end Native

namespace Heap

/-- `v` refers to a present option of a string with these bytes. -/
def Presents (h : Heap) (v : Word) (bytes : Bytes) : Prop :=
  ∃ w, h.block v = .ok (some (.tuple [w])) ∧ h.block w = .ok (some (.string bytes))

variable {h h₁ h₂ h' : Heap} {v w w' : Word} {bytes : Bytes} {config : Config}

theorem Presents.narrow (hp : h.Presents v bytes) :
    h.narrow (.option .string) v = .ok (.ok ⟨v⟩) := by
  obtain ⟨w, hv, hw⟩ := hp
  have hfits : h.Fits (.option .string) v := .inr ⟨w, hv, bytes, hw⟩
  exact hfits.narrow rfl

theorem presents_of_allocSome (hc : h.Counted) (hw : h.block w = .ok (some (.string bytes)))
    (hr : Mutator.allocSome w h = .ok v h') : h'.Presents v bytes := by
  obtain ⟨⟨f, φ, hrel, hnew⟩, -⟩ := Mutator.relocates_of_allocTuple hc hr
  exact ⟨f w, hnew.block, hrel.block_eq List.mem_cons_self hw⟩

/-- The string may have been looked for again since it was allocated. -/
theorem presents_of_alloc (hr : Reachable config h) (hs : Mutator.allocString bytes h = .ok w h₁)
    (hw : Recovers h₁ w h₂ w') (hv : Mutator.allocSome w' h₂ = .ok v h') : h'.Presents v bytes := by
  have hafter : (Operation.allocString bytes).after h = h₁ :=
    Operation.after_of_ok (Operation.run_of_word rfl hs)
  have hr₁ : Reachable config h₁ := hafter ▸ hr.after _
  obtain ⟨-, -, -, -, hstring, -⟩ := Mutator.keeps_of_allocString hr.counted hs
  have hlater := hw.lasting (lasting_string bytes) hstring hr₁.sound
  exact presents_of_allocSome (hw.reachable hr₁).counted hlater hv

end Heap
end MovingHeap

import MovingHeap.Native.Conversion
import MovingHeap.Proofs.Mutator.Stages

/-!
Assertions about work in native memory. Main statement: a conversion asks for memory, writes to the
place that was served, and reads the heap, and what these guarantee holds of every conversion.
-/
namespace MovingHeap
namespace Native

open Mutator (Triple)

/-- What the requests and the writes of conversions from `h` keep, and what holds where they stop.
Nothing is written but to a place that was served for it. -/
structure Stages (σ : Type) (h : Heap) where
  kept : NativeMemory × σ → Prop
  served : Nat → Prop
  stopped : Stop → NativeMemory × σ → Prop
  allocate : ∀ size, Triple kept (allocate h size) (fun place t => kept t ∧ served place) stopped
  write : ∀ place filling, served place → Triple kept (write place filling) (fun _ => kept) stopped
  fault : ∀ f t, kept t → stopped (.fault f) t

namespace Stages

variable {σ : Type} {h : Heap} {s : Shape} (S : Stages σ h)

theorem read {α : Type} (x : Except Fault α) :
    Triple S.kept (Native.read x) (fun _ => S.kept) S.stopped := by
  intro t ht
  unfold Native.read
  cases x with
  | ok => exact ht
  | error f => exact S.fault f t ht

/-- What follows a request may write to the place that was served. -/
theorem request {α : Type} {k : Nat → Native σ α} (size : Nat) (hk : ∀ place, S.served place →
    Triple S.kept (k place) (fun _ => S.kept) S.stopped) :
    Triple S.kept (Native.allocate h size >>= k) (fun _ => S.kept) S.stopped := by
  apply (S.allocate size).bind
  rintro place t ⟨ht, hplace⟩
  exact hk place hplace t ht

theorem copy (bytes : Bytes) : Triple S.kept (Native.copy h bytes) (fun _ => S.kept) S.stopped :=
  S.request _ fun place hplace => (S.write place _ hplace).bind fun _ _ ht => ht

theorem ofString (x : Handle .string) :
    Triple S.kept (Native.ofString h x) (fun _ => S.kept) S.stopped :=
  (S.read _).bind fun bytes => S.copy bytes

theorem ofStringOption (x : Handle (.option .string)) :
    Triple S.kept (Native.ofStringOption h x) (fun _ => S.kept) S.stopped := by
  apply (S.read _).bind
  intro payload
  cases payload with
  | none => exact fun _ ht => ht
  | some y => exact (S.ofString y).bind fun _ _ ht => ht

theorem mapArray (x : Handle (.array s)) {f : Handle s → Native σ Buffer}
    (hf : ∀ y, Triple S.kept (f y) (fun _ => S.kept) S.stopped) :
    Triple S.kept (Native.mapArray h x f) (fun _ => S.kept) S.stopped := by
  apply (S.read _).bind
  intro length
  split
  · exact fun _ ht => ht
  · have hitems := Triple.mapM (fun i => (S.read (x.element h i)).bind hf) (List.range length)
    exact S.request _ fun place hplace => hitems.bind fun items =>
      (S.write place _ hplace).bind fun _ _ ht => ht

theorem ofStrings (x : Handle (.array .string)) :
    Triple S.kept (Native.ofStrings h x) (fun _ => S.kept) S.stopped := S.mapArray x S.ofString

end Stages
end Native
end MovingHeap

import MovingHeap.Proofs.Shape.Readers

/-!
The regions of native memory. Main statements: a request that is served leaves the regions that
were there as they were, and a copy holds its bytes and the terminator in a region of its own, for
which as many bytes were asked.
-/
namespace MovingHeap

theorem Region.fill_of_fits {r : Region} {filling : Filling} (hf : filling.size ≤ r.size) :
    (r.fill filling).size = r.size ∧ (r.fill filling).filling = filling := by
  unfold fill
  rw [dif_pos hf]
  exact ⟨rfl, rfl⟩

namespace NativeMemory

/-- Every region of `m` is there in `m'`, filled as it was. -/
def Retains (m m' : NativeMemory) : Prop :=
  ∀ (place : Nat) r, m.regions[place]? = some r → m'.regions[place]? = some r

/-- There is a region of this size at `place`, filled with `filling`. -/
def Filled (m : NativeMemory) (place size : Nat) (filling : Filling) : Prop :=
  ∃ r, m.regions[place]? = some r ∧ r.size = size ∧ r.filling = filling

/-- The buffer has a region for its bytes and the terminator, and there they are. -/
def Holds (m : NativeMemory) (b : Buffer) : Prop :=
  m.Filled b.place (b.length + 1) (.text b.terminated)

/-- `m'` is `m` after `n` more requests, all of them served. -/
structure Grows (n : Nat) (m m' : NativeMemory) : Prop where
  retains : m.Retains m'
  allocations : m'.allocations = m.allocations + n
  requests : m'.requests = m.requests + n
  refuses : m'.refuses = m.refuses

/-- The next requests are served if they are for so many bytes each. -/
def GrantsAll (m : NativeMemory) (sizes : List Nat) : Prop :=
  ∀ i size, sizes[i]? = some size → m.grants (m.requests + i) size = true

/-- `m` after a request for the bytes and their terminator was served and they were written. -/
def copied (m : NativeMemory) (bytes : Bytes) : NativeMemory :=
  (m.serve (bytes.length + 1)).write m.regions.size (.text (bytes ++ [0]))

variable {m m' m'' : NativeMemory} {place size n k : Nat} {sizes : List Nat}
  {filling filling' : Filling} {b : Buffer} {bytes : Bytes}

namespace Retains

theorem refl (m : NativeMemory) : m.Retains m := fun _ _ hr => hr

theorem trans (hm : m.Retains m') (hm' : m'.Retains m'') : m.Retains m'' :=
  fun place r hr => hm' place r (hm place r hr)

theorem size_le (hm : m.Retains m') : m.regions.size ≤ m'.regions.size := by
  apply Nat.le_of_not_lt
  intro hlt
  have hlast := hm _ _ (Array.getElem?_eq_getElem hlt)
  simp at hlast

theorem serve (hm : m.Retains m') (size : Nat) : m.Retains (m'.serve size) := by
  intro place r hr
  have hold := hm place r hr
  have hlt := (Array.getElem?_eq_some_iff.1 hold).1
  show (m'.regions.push _)[place]? = some r
  rw [Array.getElem?_push_lt hlt]
  exact (Array.getElem?_eq_some_iff.1 hold).2 ▸ rfl

/-- A region that was not there before may be filled. -/
theorem write (hm : m.Retains m') (hp : m.regions.size ≤ place) (filling : Filling) :
    m.Retains (m'.write place filling) := by
  intro p r hr
  have hlt := (Array.getElem?_eq_some_iff.1 hr).1
  have hne : place ≠ p := by omega
  show (m'.regions.modify place _)[p]? = some r
  rw [Array.getElem?_modify, if_neg hne]
  exact hm p r hr

end Retains

namespace Filled

theorem covers (hf : m.Filled place size filling) : filling.size ≤ size := by
  obtain ⟨r, -, rfl, rfl⟩ := hf
  exact r.fits

theorem of_retains (hf : m.Filled place size filling) (hm : m.Retains m') :
    m'.Filled place size filling := by
  obtain ⟨r, hr, hrest⟩ := hf
  exact ⟨r, hm place r hr, hrest⟩

theorem serve (m : NativeMemory) (size : Nat) :
    (m.serve size).Filled m.regions.size size (.text []) :=
  ⟨{ size }, Array.getElem?_push_size, rfl, rfl⟩

theorem write (hf : m.Filled place size filling) (hsize : filling'.size ≤ size) :
    (m.write place filling').Filled place size filling' := by
  obtain ⟨r, hr, rfl, -⟩ := hf
  refine ⟨r.fill filling', ?_, Region.fill_of_fits hsize⟩
  show (m.regions.modify place _)[place]? = _
  rw [Array.getElem?_modify, if_pos rfl, hr, Option.map_some]

theorem write_of_ne (hf : m.Filled place size filling) {other : Nat} (hne : other ≠ place)
    (filling' : Filling) : (m.write other filling').Filled place size filling := by
  obtain ⟨r, hr, hrest⟩ := hf
  refine ⟨r, ?_, hrest⟩
  show (m.regions.modify other _)[place]? = some r
  rw [Array.getElem?_modify, if_neg hne, hr]

end Filled

theorem allocations_write (m : NativeMemory) (place : Nat) (filling : Filling) :
    (m.write place filling).allocations = m.allocations := Array.size_modify

namespace Grows

theorem refl (m : NativeMemory) : m.Grows 0 m := ⟨.refl m, rfl, rfl, rfl⟩

theorem trans (hm : m.Grows n m') (hm' : m'.Grows k m'') : m.Grows (n + k) m'' where
  retains := hm.retains.trans hm'.retains
  allocations := by rw [hm'.allocations, hm.allocations, Nat.add_assoc]
  requests := by rw [hm'.requests, hm.requests, Nat.add_assoc]
  refuses := hm'.refuses.trans hm.refuses

theorem serve (m : NativeMemory) (size : Nat) : m.Grows 1 (m.serve size) :=
  ⟨(Retains.refl m).serve size, Array.size_push _, rfl, rfl⟩

theorem write (hm : m.Grows n m') (hp : m.regions.size ≤ place) (filling : Filling) :
    m.Grows n (m'.write place filling) :=
  ⟨hm.retains.write hp filling, (allocations_write m' place filling).trans hm.allocations,
    hm.requests, hm.refuses⟩

theorem copied (m : NativeMemory) (bytes : Bytes) : m.Grows 1 (m.copied bytes) :=
  (serve m _).write (Nat.le_refl _) _

end Grows

theorem holds_copied (m : NativeMemory) (bytes : Bytes) :
    (m.copied bytes).Holds { place := m.regions.size, bytes } := by
  apply (Filled.serve m (bytes.length + 1)).write
  have hlen : (bytes ++ [0]).length = bytes.length + 1 := List.length_append
  exact Nat.le_of_eq hlen

/-- Unless a memory is said to refuse them, requests that are not huge are served. -/
theorem grants_new (number : Nat) (hsize : size ≤ 0x800000000000) :
    ({} : NativeMemory).grants number size = true := by
  apply Bool.and_eq_true_iff.2 ⟨decide_eq_true ?_, ?_⟩
  · show size ≤ 0x7FFFFFFFFFFFFFFF
    omega
  · show (!decide (0x800000000000 < size)) = true
    rw [decide_eq_false (Nat.not_lt.2 hsize), Bool.not_false]

namespace GrantsAll

theorem head (hg : m.GrantsAll (size :: sizes)) : m.grants m.requests size = true :=
  hg 0 size rfl

theorem tail (hg : m.GrantsAll (size :: sizes)) (hm : m.Grows 1 m') : m'.GrantsAll sizes := by
  intro i k hi
  have hnext := hg (i + 1) k hi
  unfold grants at hnext ⊢
  rwa [hm.refuses, hm.requests, Nat.add_assoc, Nat.add_comm 1 i]

end GrantsAll
end NativeMemory

namespace Native

variable {σ : Type} {t : NativeMemory × σ} {size : Nat} {bytes : Bytes}

theorem allocate_of_grants (h : Heap) (hsize : 1 ≤ size)
    (hg : t.1.grants t.1.requests size = true) :
    allocate h size t = .ok t.1.regions.size (t.1.serve size, t.2) := by
  unfold allocate
  rw [Nat.max_eq_left hsize, if_pos hg]

theorem allocate_of_refuses (h : Heap) (hsize : 1 ≤ size)
    (hg : t.1.grants t.1.requests size = false) :
    allocate h size t = .error (.raise h.outOfMemory) (t.1.refuse, t.2) := by
  unfold allocate
  rw [Nat.max_eq_left hsize, hg]
  exact if_neg Bool.false_ne_true

theorem copy_of_grants (h : Heap) (hg : t.1.grants t.1.requests (bytes.length + 1) = true) :
    copy h bytes t = .ok { place := t.1.regions.size, bytes } (t.1.copied bytes, t.2) := by
  have hserved := allocate_of_grants (t := t) h (Nat.succ_pos bytes.length) hg
  rw [copy, Mutator.bind_apply, hserved]
  rfl

end Native
end MovingHeap

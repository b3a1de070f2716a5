import MovingHeap.Proofs.Mutator.Record
import MovingHeap.Proofs.Process.Conversion
import MovingHeap.Proofs.Word.Encoding

/-!
Options of integers. Main statement: the number in a present option is read with the 63 bits that an
immediate keeps and stored with its low 32, and no number is taken for the absent option.
-/
namespace MovingHeap

namespace Handle

variable {h : Heap} {v : Word} {n : Int}

theorem int?_of_block (hv : h.block v = .ok (some (.tuple [.ofInt n]))) :
    int? h ⟨v⟩ = .ok (some (Int.bmod n 0x8000000000000000)) := by
  rw [int?, Heap.payload_of_block hv (Heap.ne_absent_of_block hv)]
  exact congrArg (Except.ok ∘ some) (Word.payload_ofInt n)

theorem int?_absent (h : Heap) : int? h ⟨.absent⟩ = .ok none := by
  rw [int?, Heap.payload_absent]
  rfl

theorem storeInt_of_block (hv : h.block v = .ok (some (.tuple [.ofInt n]))) (out : Int) :
    storeInt h ⟨v⟩ out = .ok (true, narrowInt (Int.bmod n 0x8000000000000000)) := by
  rw [storeInt, int?_of_block hv]
  rfl

theorem storeInt_absent (h : Heap) (out : Int) : storeInt h ⟨.absent⟩ out = .ok (false, out) := by
  rw [storeInt, int?_absent]
  rfl

end Handle

/-- The low 32 bits are among the 63 that are kept. -/
theorem isSigned_narrowInt (n : Int) :
    IsSigned 0x100000000 n (narrowInt (Int.bmod n 0x8000000000000000)) := by
  have hkept : IsSigned 0x8000000000000000 n _ := isSigned_bmod (by decide) n
  have hlow : IsSigned 0x100000000 (Int.bmod n 0x8000000000000000) _ := isSigned_bmod (by decide) _
  refine ⟨hlow.low, hlow.high, hlow.congruent.trans ?_⟩
  have hcongruent := hkept.congruent
  omega

theorem Entry.intOption_apply {p : Process} {w : Word} {out n : Int} {found : Bool}
    (hn : p.heap.narrow (.option .int) w = .ok (.ok ⟨w⟩))
    (hs : Handle.storeInt p.heap ⟨w⟩ out = .ok (found, n)) :
    intOption w (some out) p = .ok (found, some n) p := by
  have hstoring : storing (some out) ⟨w⟩ p = .ok (found, n) p := by
    simp only [storing, Call.managed, Mutator.read, hs]
  have hbody : (Call.narrow (.option .int) w >>= storing (some out)) p = .ok (found, n) p := by
    rw [Mutator.bind_apply, Call.narrow_apply, hn]
    exact hstoring
  have hpark : Call.park (Call.narrow (.option .int) w >>= storing (some out)) p =
      .ok (some (found, n)) p := by
    rw [Call.park_apply, Call.attempt_apply, hbody]
  rw [intOption_eq, Mutator.bind_apply, hpark]
  rfl

namespace Heap

variable {config : Config} {h h' : Heap} {n : Int} {v : Word}

theorem block_of_allocSome_ofInt (hc : h.Counted)
    (hr : Mutator.allocSome (.ofInt n) h = .ok v h') :
    h'.block v = .ok (some (.tuple [.ofInt n])) := by
  obtain ⟨⟨f, φ, hrel, hnew⟩, -⟩ := Mutator.relocates_of_allocTuple hc hr
  have hfixed : f (.ofInt n) = .ofInt n :=
    hrel.unresolved _ (slot?_of_ref?_eq_none (Word.ref?_ofInt n))
  have hblock := hnew.block
  rwa [List.map_singleton, hfixed] at hblock

/-- A present option of any integer is accepted as one. Its number is read as the signed one of 63
bits, and stored as the one of 32, that is congruent to it; so it is stored as it is if it fits. The
absent option has no number, and leaves the place for it alone. The entry point does what the store
does with every word that is accepted, and to the process it does nothing. -/
theorem intOption_congruent (hr : Reachable config h)
    (ha : Mutator.allocSome (.ofInt n) h = .ok v h') :
    h'.narrow (.option .int) v = .ok (.ok ⟨v⟩) ∧
    (∃ m, Handle.int? h' ⟨v⟩ = .ok (some m) ∧ IsSigned 0x8000000000000000 n m ∧
      ∀ m', IsSigned 0x8000000000000000 n m' → m' = m) ∧
    (∀ out, ∃ k, Handle.storeInt h' ⟨v⟩ out = .ok (true, k) ∧ IsSigned 0x100000000 n k ∧
      (∀ k', IsSigned 0x100000000 n k' → k' = k) ∧
      (-0x80000000 ≤ n → n < 0x80000000 → k = n)) ∧
    (∀ (g : Heap) (out : Int), g.narrow (.option .int) .absent = .ok (.ok ⟨.absent⟩) ∧
      Handle.int? g ⟨.absent⟩ = .ok none ∧ Handle.storeInt g ⟨.absent⟩ out = .ok (false, out)) ∧
    ∀ (p : Process) (w : Word) (x : Handle (.option .int)) (out : Int),
      p.heap.narrow (.option .int) w = .ok (.ok x) →
        ∃ found k, Handle.storeInt p.heap x out = .ok (found, k) ∧
          Entry.intOption w (some out) p = .ok (found, some k) p := by
  have hblock := block_of_allocSome_ofInt hr.counted ha
  refine ⟨?_, ?_, fun out => ?_, fun g out => ?_, fun p w x out hn => ?_⟩
  · have hfits : h'.Fits (.option .int) v := .inr ⟨_, hblock, Word.isImmediate_ofInt n⟩
    exact hfits.narrow rfl
  · exact ⟨_, Handle.int?_of_block hblock, isSigned_bmod (by decide) n, fun _ hm => hm.eq_bmod⟩
  · have hstored := isSigned_narrowInt n
    have hunique : ∀ k', IsSigned 0x100000000 n k' →
        k' = narrowInt (Int.bmod n 0x8000000000000000) :=
      fun k' hk => hk.eq_bmod.trans hstored.eq_bmod.symm
    refine ⟨_, Handle.storeInt_of_block hblock out, hstored, hunique, fun hlo hhi => ?_⟩
    exact (hunique n ⟨by omega, by omega, rfl⟩).symm
  · have hfits : g.Fits (.option .int) .absent := .inl rfl
    exact ⟨hfits.narrow rfl, Handle.int?_absent g, Handle.storeInt_absent g out⟩
  · obtain ⟨rfl, -, hfits⟩ := narrow_eq_ok_iff.1 hn
    obtain ⟨⟨found, k⟩, hs⟩ := hfits.storeInt out
    exact ⟨found, k, hs, Entry.intOption_apply hn hs⟩

/-- The word of the smallest integer of 64 bits is that of the absent option. In an option it is the
number zero. -/
theorem intOption_congruent_smallest : Word.ofInt (-0x8000000000000000) = .absent ∧
    ∃ v h', Mutator.allocSome (.ofInt (-0x8000000000000000)) (.new {}) = .ok v h' ∧
      h'.narrow (.option .int) v = .ok (.ok ⟨v⟩) ∧ Handle.int? h' ⟨v⟩ = .ok (some 0) ∧
      Handle.storeInt h' ⟨v⟩ 7 = .ok (true, 0) ∧
      Entry.intOption v (some 7) { heap := h' } = .ok (true, some 0) { heap := h' } := by
  have hrun : Mutator.succeeds (Mutator.allocSome (.ofInt (-0x8000000000000000))) (.new {}) =
      true := by decide +kernel
  obtain ⟨v, h', ha⟩ := Mutator.succeeds_iff.1 hrun
  obtain ⟨hn, ⟨m, hm, -, hunique⟩, hstores, -, hentry⟩ := intOption_congruent .new ha
  obtain ⟨k, hk, -, hleast, -⟩ := hstores 7
  obtain ⟨found, j, hj, hcalled⟩ := hentry { heap := h' } v ⟨v⟩ 7 hn
  obtain rfl : 0 = m := hunique 0 ⟨by decide, by decide, by decide⟩
  obtain rfl : 0 = k := hleast 0 ⟨by decide, by decide, by decide⟩
  obtain ⟨rfl, rfl⟩ := Prod.mk.inj (Except.ok.inj (hk.symm.trans hj))
  exact ⟨by decide, v, h', ha, hn, hm, hk, hcalled⟩

end Heap
end MovingHeap

import Mathlib.Algebra.Ring.Int.Defs
import MovingHeap.Proofs.Native.Memory

/-!
Converting the elements of an array by a callback that may carry a state and may stop. Main
statement: the callback is called on the elements in order, and no further once it has stopped; how
it stopped is then the outcome, and otherwise its results are, with a pointer to each in a region
that was asked for before the calls.
-/
namespace MovingHeap
namespace Native

variable {σ α β : Type}

/-- Requests served between `t` and `t'`. -/
def spent (t t' : NativeMemory × σ) : Int := t'.1.allocations - t.1.allocations

/-- `t` after a request was served, for an array of `n` pointers. -/
def prepared (n : Nat) (t : NativeMemory × σ) : NativeMemory × σ :=
  (t.1.serve (arraySize n), t.2)

/-- The array of the buffers, with its pointers in the region that was served after `t`. -/
def gathered (t : NativeMemory × σ) (bs : List Buffer) : BufferArray :=
  { place := t.1.regions.size, items := bs }

/-- `t'` after pointers to the buffers were written to the region that was served after `t`. -/
def pointed (t : NativeMemory × σ) (bs : List Buffer) (t' : NativeMemory × σ) : NativeMemory × σ :=
  (t'.1.write t.1.regions.size (.pointers (bs.map Buffer.place)), t'.2)

/-- `f` is called on each of `xs` in order, and comes back every time. The calls begin with `t` and
leave `t'`; `bs` are their results, and `costs` what each of them spends. -/
inductive Calls (f : α → Native σ β) :
    List α → NativeMemory × σ → List β → List Int → NativeMemory × σ → Prop
  | nil (t : NativeMemory × σ) : Calls f [] t [] [] t
  | cons {x : α} {xs : List α} {t t₁ t' : NativeMemory × σ} {b : β} {bs : List β}
      {costs : List Int} :
    f x t = .ok b t₁ → Calls f xs t₁ bs costs t' →
      Calls f (x :: xs) t (b :: bs) (spent t t₁ :: costs) t'

namespace Calls

variable {f : α → Native σ β} {xs : List α} {t t' : NativeMemory × σ} {bs : List β}
  {costs : List Int}

theorem length_eq (hc : Calls f xs t bs costs t') : bs.length = xs.length := by
  induction hc with
  | nil => rfl
  | cons _ _ ih => rw [List.length_cons, List.length_cons, ih]

theorem spent_eq (hc : Calls f xs t bs costs t') : spent t t' = costs.sum := by
  induction hc with
  | nil => simp [spent]
  | cons _ _ ih =>
    rw [List.sum_cons, ← ih]
    unfold spent
    omega

end Calls

/-- The calls all come back, or one of them stops after some that have come back. -/
theorem mapM_cases (f : α → Native σ β) (xs : List α) (t : NativeMemory × σ) :
    (∃ bs costs t', Calls f xs t bs costs t' ∧ xs.mapM f t = .ok bs t') ∨
      ∃ front x back bs costs t₁ e t', xs = front ++ x :: back ∧ Calls f front t bs costs t₁ ∧
        f x t₁ = .error e t' ∧ xs.mapM f t = .error e t' := by
  induction xs generalizing t with
  | nil => exact .inl ⟨[], [], t, .nil t, rfl⟩
  | cons x xs ih =>
    rw [List.mapM_cons, Mutator.bind_apply]
    cases hx : f x t with
    | error e t' => exact .inr ⟨[], x, xs, [], [], t, e, t', rfl, .nil t, hx, rfl⟩
    | ok b t₁ =>
      simp only [Mutator.bind_apply]
      rcases ih t₁ with ⟨bs, costs, t', hc, hr⟩ |
        ⟨front, y, back, bs, costs, t₂, e, t', rfl, hc, hy, hr⟩
      · refine .inl ⟨b :: bs, _, t', .cons hx hc, ?_⟩
        rw [hr]
        rfl
      · refine .inr ⟨x :: front, y, back, b :: bs, _, t₂, e, t', rfl, .cons hx hc, hy, ?_⟩
        rw [hr]

section Array

variable {h : Heap} {s : Shape} {x : Handle (.array s)} {ys : List (Handle s)}

theorem mapM_range'_element (f : Handle s → Native σ β) (start : Nat)
    (hys : ∀ i (hi : i < ys.length), x.element h (start + i) = .ok ys[i]) :
    ((List.range' start ys.length).mapM fun i => do f (← read (x.element h i))) = ys.mapM f := by
  induction ys generalizing start with
  | nil => rfl
  | cons y ys ih =>
    have hfirst : x.element h start = .ok y := hys 0 (by simp)
    have hrest := ih (start + 1) fun i hi => by
      rw [Nat.add_assoc, Nat.add_comm 1 i]
      exact hys (i + 1) (by simpa using hi)
    rw [List.length_cons, List.range'_succ, List.mapM_cons, List.mapM_cons, hrest,
      read_bind hfirst]

theorem one_le_arraySize {n : Nat} (hn : n ≠ 0) : 1 ≤ arraySize n := by
  unfold arraySize pointerSize
  omega

/-- A request that is served covers the pointers. -/
theorem covers_of_grants {n : Nat} {m : NativeMemory} {number : Nat}
    (hg : m.grants number (arraySize n) = true) : n * pointerSize ≤ arraySize n := by
  unfold NativeMemory.grants NativeMemory.largest at hg
  obtain ⟨hlargest, -⟩ := Bool.and_eq_true_iff.1 hg
  have hle := of_decide_eq_true hlargest
  unfold arraySize at hle ⊢
  omega

/-- Where the elements of an array are known, its conversion maps them, with one request before. -/
theorem mapArray_apply (hb : h.block x.word = .ok (some (.tuple (ys.map Handle.word))))
    (f : Handle s → Native σ Buffer) (t : NativeMemory × σ) :
    mapArray h x f t =
      if ys = [] then .ok none t
      else if t.1.grants t.1.requests (arraySize ys.length) = false then
        .error (.raise h.outOfMemory) (t.1.refuse, t.2)
      else match ys.mapM f (prepared ys.length t) with
        | .ok bs t' => .ok (some (gathered t bs)) (pointed t bs t')
        | .error e t' => .error e t' := by
  have hlength : x.length h = .ok ys.length := by
    have hl := Heap.length_of_block (s := s) hb
    rwa [List.length_map] at hl
  have helement : ∀ i (hi : i < ys.length), x.element h (0 + i) = .ok ys[i] := by
    intro i hi
    have he := Heap.element_of_block (s := s) hb (i := i) (by simpa using hi)
    rw [List.getElem_map] at he
    rwa [Nat.zero_add]
  unfold mapArray
  rw [read_bind hlength]
  by_cases hys : ys = []
  · subst hys
    rfl
  · have hn : ys.length ≠ 0 := fun hl => hys (List.length_eq_zero_iff.1 hl)
    have hsize := one_le_arraySize hn
    rw [if_neg hn, if_neg hys, Mutator.bind_apply, List.range_eq_range',
      mapM_range'_element f 0 helement]
    cases hg : t.1.grants t.1.requests (arraySize ys.length) with
    | false => rw [if_pos rfl, allocate_of_refuses h hsize hg]
    | true =>
      have hserved : allocate h (arraySize ys.length) t =
          .ok t.1.regions.size (prepared ys.length t) := allocate_of_grants h hsize hg
      rw [if_neg Bool.true_eq_false.mp, hserved]
      simp only [Mutator.bind_apply]
      cases ys.mapM f (prepared ys.length t) <;> rfl

/-- The pointers are there if the calls left the region for them alone. -/
theorem filled_pointed {t t' : NativeMemory × σ} {n : Nat} {bs : List Buffer}
    (hlen : bs.length = n) (hcovers : n * pointerSize ≤ arraySize n)
    (hretains : (prepared n t).1.Retains t'.1) :
    (pointed t bs t').1.Filled t.1.regions.size (arraySize n)
      (.pointers (bs.map Buffer.place)) := by
  apply ((NativeMemory.Filled.serve t.1 (arraySize n)).of_retains hretains).write
  show (bs.map Buffer.place).length * pointerSize ≤ arraySize n
  rwa [List.length_map, hlen]

/-- The callback is called on the elements of an accepted array, in order and each at most once. An
empty array takes no call and no memory. Otherwise, if the request for the array itself is refused,
there is no call, and the outcome is the raise for want of memory. Else either every call comes
back, and the outcome is the array of the results, or one of them stops; it is then the last, and
how it stopped is the outcome. What is requested is what the calls request, and the array: as many
bytes as the pointers take. The pointers to the results are there, if the calls have left the
regions alone that were served before them. -/
theorem mapArray_in_order (hx : h.Accepts x) (f : Handle s → Native σ Buffer) :
    ∃ ys, x.length h = .ok ys.length ∧ x.elements h = .ok ys ∧ ∀ t,
      ys = [] ∧ mapArray h x f t = .ok none t ∨
      ys ≠ [] ∧ t.1.grants t.1.requests (arraySize ys.length) = false ∧
        mapArray h x f t = .error (.raise h.outOfMemory) (t.1.refuse, t.2) ∨
      ys ≠ [] ∧ t.1.grants t.1.requests (arraySize ys.length) = true ∧
        ys.length * pointerSize ≤ arraySize ys.length ∧
        ((∃ bs costs t', Calls f ys (prepared ys.length t) bs costs t' ∧
            mapArray h x f t = .ok (some (gathered t bs)) (pointed t bs t') ∧
            bs.length = ys.length ∧
            (∀ i b, bs[i]? = some b → (gathered t bs).item? i = some (cString b.bytes)) ∧
            spent t (pointed t bs t') = 1 + costs.sum ∧
            ((prepared ys.length t).1.Retains t'.1 →
              (pointed t bs t').1.Filled (gathered t bs).place (arraySize ys.length)
                (.pointers (bs.map Buffer.place)))) ∨
          ∃ front y back bs costs t₁ e t', ys = front ++ y :: back ∧
            Calls f front (prepared ys.length t) bs costs t₁ ∧ f y t₁ = .error e t' ∧
            mapArray h x f t = .error e t' ∧ spent t t' = 1 + costs.sum + spent t₁ t') := by
  obtain ⟨-, fields, hb, -⟩ := Heap.accepts_iff.1 hx
  have hlength := Heap.length_of_block (s := s) hb
  have helements := Heap.elements_of_block (s := s) hb
  rw [← Handle.map_word_map_mk (s := s) fields] at hb
  refine ⟨fields.map Handle.mk, by rwa [List.length_map], helements, fun t => ?_⟩
  generalize fields.map (Handle.mk : Word → Handle s) = ys at hb
  have happly := mapArray_apply hb f t
  by_cases hys : ys = []
  · exact .inl ⟨hys, by rw [happly, if_pos hys]⟩
  rw [if_neg hys] at happly
  cases hg : t.1.grants t.1.requests (arraySize ys.length) with
  | false => exact .inr (.inl ⟨hys, rfl, by rw [happly, if_pos hg]⟩)
  | true =>
    rw [if_neg (Bool.not_eq_false _ ▸ hg)] at happly
    have hcovers := covers_of_grants hg
    have hprepared : spent t (prepared ys.length t) = 1 := by
      have hone := (NativeMemory.Grows.serve t.1 (arraySize ys.length)).allocations
      show ((t.1.serve (arraySize ys.length)).allocations : Int) - t.1.allocations = 1
      omega
    have hspent : ∀ t', spent t t' = spent t (prepared ys.length t) +
        spent (prepared ys.length t) t' := by
      intro t'
      unfold spent
      omega
    refine .inr (.inr ⟨hys, rfl, hcovers, ?_⟩)
    rcases mapM_cases f ys (prepared ys.length t) with ⟨bs, costs, t', hc, hr⟩ |
      ⟨front, y, back, bs, costs, t₁, e, t', hsplit, hc, hy, hr⟩
    · have hpointed : spent t (pointed t bs t') = spent t t' := by
        unfold spent pointed
        rw [NativeMemory.allocations_write]
      refine .inl ⟨bs, costs, t', hc, by rw [happly, hr], hc.length_eq, fun i b hi => ?_, ?_,
        filled_pointed hc.length_eq hcovers⟩
      · simp [gathered, BufferArray.item?, hi, Buffer.visible]
      · rw [hpointed, hspent, hprepared, hc.spent_eq]
    · refine .inr ⟨front, y, back, bs, costs, t₁, e, t', hsplit, hc, hy, by rw [happly, hr], ?_⟩
      rw [← hc.spent_eq, ← hprepared]
      unfold spent
      omega

end Array

/-- An array of 3, 1 and 2. -/
def numbered : Heap := (Operation.allocTuple [.ofInt 3, .ofInt 1, .ofInt 2]).after (.new {})

/-- Takes note of the number, and copies a byte unless the number is 1. -/
def noting (h : Heap) (y : Handle .int) : Native (List Int) Buffer := do
  modify fun t => (t.1, t.2 ++ [y.value])
  if y.value = 1 then throw (.raise (.failure [98])) else copy h [97]

/-- The third number is not noted. -/
theorem mapArray_in_order_stopped :
    numbered.Accepts (⟨.ofRef ⟨8, 0⟩⟩ : Handle (.array .int)) ∧
    ∃ front y back bs costs t₁ e t',
      [⟨.ofInt 3⟩, ⟨.ofInt 1⟩, ⟨.ofInt 2⟩] = front ++ y :: back ∧
      Calls (noting numbered) front (prepared 3 ({}, [])) bs costs t₁ ∧
      noting numbered y t₁ = .error e t' ∧
      mapArray numbered ⟨.ofRef ⟨8, 0⟩⟩ (noting numbered) ({}, []) = .error e t' ∧
      e = .raise (.failure [98]) ∧ t'.2 = [3, 1] ∧ spent ({}, []) t' = 2 := by
  have haccepts : numbered.Accepts (⟨.ofRef ⟨8, 0⟩⟩ : Handle (.array .int)) := rfl
  have hstopped : (match mapArray numbered ⟨.ofRef ⟨8, 0⟩⟩ (noting numbered) ({}, []) with
    | .ok _ _ => false
    | .error e t' => e == .raise (.failure [98]) && t'.1.allocations == 2 && t'.2 == [3, 1]) =
      true := by decide +kernel
  obtain ⟨ys, -, hys, hcases⟩ := mapArray_in_order haccepts (noting numbered)
  obtain rfl : [⟨.ofInt 3⟩, ⟨.ofInt 1⟩, ⟨.ofInt 2⟩] = ys := Except.ok.inj hys
  rcases hcases ({}, []) with ⟨hnil, -⟩ | ⟨-, -, hr⟩ | ⟨-, -, -, ⟨bs, costs, t', -, hr, -⟩ |
    ⟨front, y, back, bs, costs, t₁, e, t', hsplit, hc, hy, hr, -⟩⟩
  · cases hnil
  · simp [hr] at hstopped
  · simp [hr] at hstopped
  · simp only [hr, Bool.and_eq_true, beq_iff_eq] at hstopped
    obtain ⟨⟨rfl, htwo⟩, hnoted⟩ := hstopped
    have hspent : spent ({}, []) t' = 2 := by
      unfold spent
      rw [htwo]
      rfl
    exact ⟨haccepts, front, y, back, bs, costs, t₁, _, _, hsplit, hc, hy, hr, rfl, hnoted, hspent⟩

end Native
end MovingHeap

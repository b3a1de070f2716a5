import MovingHeap.Heap.Exception
import MovingHeap.Proofs.Schedule.Matched
import MovingHeap.Proofs.Shape.Check

/-!
What can be read of words that are the same is the same in matching heaps.
-/
namespace MovingHeap
namespace Heap
namespace Matched

variable {l : Link} {h k : Heap} {v w : Word}

theorem tag (hm : Matched l h k) (hs : l.Same v w) : h.tag v = k.tag w := by
  refine ((hm.block hs).map fun b c hbc => ?_).eq
  cases hbc with
  | none => rfl
  | some hbc => exact congrArg some hbc.tag

theorem size (hm : Matched l h k) (hs : l.Same v w) : h.size v = k.size w := by
  refine ((hm.block hs).map fun b c hbc => ?_).eq
  cases hbc with
  | none => rfl
  | some hbc => exact hbc.size

theorem bytes (hm : Matched l h k) (hs : l.Same v w) : h.bytes v = k.bytes w := by
  refine ((hm.block hs).map fun b c hbc => ?_).eq
  cases hbc with
  | none => rfl
  | some hbc => exact hbc.bytes

theorem rel_item {vs ws : List Word} (hs : List.Forall₂ l.Same vs ws) (i : Nat) :
    Except.Rel l.Same (item vs i) (item ws i) := by
  have hlen := hs.length_eq
  unfold item
  by_cases hi : i < vs.length
  · have hj : i < ws.length := hlen ▸ hi
    rw [List.getElem?_eq_getElem hi, List.getElem?_eq_getElem hj]
    exact .ok (hs.get hi hj)
  · rw [List.getElem?_eq_none (by omega), List.getElem?_eq_none (by omega), hlen]
    exact .error _

theorem field (hm : Matched l h k) (hs : l.Same v w) (i : Nat) :
    Except.Rel l.Same (h.field v i) (k.field w i) := by
  unfold Heap.field
  rcases hm.lookup hs with ⟨rfl, hv⟩ | ⟨p, q, b, c, hp, hq, hb, hc, hbc⟩
  · rw [hv]
    exact .error _
  · simp only [hp, hq, resolve_eq_ok_iff.2 hb, resolve_eq_ok_iff.2 hc]
    exact rel_item hbc.fields i

theorem outline (hm : Matched l h k) (hs : l.Same v w) : h.outline v = k.outline w := by
  unfold Heap.outline
  rcases hm.lookup hs with ⟨rfl, hv⟩ | ⟨p, q, b, c, hp, hq, hb, hc, hbc⟩
  · rw [hv]
  · have htag := hbc.tag
    have hlen := hbc.fields.length_eq
    rw [hp, hq]
    simp only [hb, hc]
    cases b <;> cases c <;> simp_all [Block.tag, Block.fields]

theorem isImmediate (hm : Matched l h k) (hs : l.Same v w) : v.isImmediate = w.isImmediate := by
  rcases hm.lookup hs with ⟨rfl, -⟩ | ⟨p, q, b, c, hp, hq, -⟩
  · rfl
  · have hv : v.isImmediate = false := by
      cases hi : v.isImmediate <;> simp_all [Word.ref?]
    have hw : w.isImmediate = false := by
      cases hi : w.isImmediate <;> simp_all [Word.ref?]
    rw [hv, hw]

theorem isCurrent (hm : Matched l h k) (hs : l.Same v w) :
    h.isCurrent v = true ∧ k.isCurrent w = true := by
  unfold Heap.isCurrent
  rcases hm.lookup hs with ⟨rfl, hv⟩ | ⟨p, q, b, c, hp, hq, hb, hc, -⟩
  · simp [hv]
  · simp [hp, hq, hb, hc]

theorem allM_eq {p q : Word → Except Fault Bool} {vs ws : List Word}
    (hs : List.Forall₂ l.Same vs ws) (hpq : ∀ v w, l.Same v w → p v = q w) :
    vs.allM p = ws.allM q := by
  induction hs with
  | nil => rfl
  | cons hs _ ih => rw [List.allM, List.allM, hpq _ _ hs, ih]

theorem hasShape (hm : Matched l h k) (s : Shape) (hs : l.Same v w) :
    h.hasShape s v = k.hasShape s w := by
  induction s generalizing v w with
  | any => rfl
  | int => exact congrArg Except.ok (hm.isImmediate hs)
  | string => rw [Heap.hasShape, Heap.hasShape, hm.tag hs]
  | option s ih =>
    have habsent := hm.eq_iff_eq hs (Link.Same.ofInt 0)
    by_cases hv : v = .absent
    · rw [hv, show w = .absent from habsent.1 hv, hasShape_absent, hasShape_absent]
    · rw [hasShape_option hv, hasShape_option (mt habsent.2 hv)]
      have hb := hm.block hs
      generalize h.block v = x at hb ⊢
      generalize k.block w = y at hb ⊢
      cases hb with
      | error f => rfl
      | ok hb =>
        cases hb with
        | none => rfl
        | @some b c hbc =>
          have htag := hbc.tag
          have hfields := hbc.fields
          cases b <;> cases c <;> simp only [Block.tag, reduceCtorEq] at htag
          case object.object | string.string => rfl
          case tuple.tuple fs gs =>
            cases hfields with
            | nil => rfl
            | cons hxy hrest =>
              cases hrest with
              | nil => exact ih hxy
              | cons => rfl
  | array s ih =>
    rw [hasShape_array, hasShape_array]
    have hb := hm.block hs
    generalize h.block v = x at hb ⊢
    generalize k.block w = y at hb ⊢
    cases hb with
    | error f => rfl
    | ok hb =>
      cases hb with
      | none => rfl
      | @some b c hbc =>
        have htag := hbc.tag
        have hfields := hbc.fields
        cases b <;> cases c <;> simp only [Block.tag, reduceCtorEq] at htag
        case object.object | string.string => rfl
        case tuple.tuple fs gs => exact allM_eq hfields fun _ _ hs => ih hs

/-- A check refuses both words with the same report, or accepts them. -/
theorem narrow (hm : Matched l h k) (s : Shape) (hs : l.Same v w) :
    Except.Rel (Except.Rel fun x y => l.Same x.word y.word) (h.narrow s v) (k.narrow s w) := by
  obtain ⟨hv, hw⟩ := hm.isCurrent hs
  rw [narrow_eq, narrow_eq, if_pos hv, if_pos hw, hm.hasShape s hs, hm.outline hs]
  split
  · exact .ok (.ok hs)
  · exact .ok (.error _)
  · exact .error _

theorem isObject (hm : Matched l h k) (hs : l.Same v w) : h.isObject v = k.isObject w := by
  rw [Heap.isObject, Heap.isObject, hm.tag hs]

theorem identity? (hm : Matched l h k) (hs : l.Same v w) :
    Except.Rel (Option.Rel l.Same) (h.identity? v) (k.identity? w) := by
  unfold Heap.identity?
  apply (hm.block hs).bind
  intro b c hbc
  cases hbc with
  | none => exact .ok .none
  | @some b c hbc =>
    have htag := hbc.tag
    have hfields := hbc.fields
    cases b <;> cases c <;> simp only [Block.tag, reduceCtorEq] at htag
    case object.object => exact .ok (.some hs)
    case string.string => exact .ok .none
    case tuple.tuple fs gs =>
      cases hfields with
      | nil => exact .ok .none
      | cons hxy _ =>
        simp only [hm.isObject hxy]
        cases k.isObject _ with
        | error f => exact .error f
        | ok found =>
          cases found
          · exact .ok .none
          · exact .ok (.some hxy)

theorem exceptionName (hm : Matched l h k) (hs : l.Same v w) :
    h.exceptionName v = k.exceptionName w := by
  unfold Heap.exceptionName
  refine ((hm.identity? hs).bind fun x y hxy => ?_).eq
  cases hxy with
  | none => exact .ok rfl
  | some hxy =>
    apply (hm.field hxy 0).bind
    intro name name' hn
    rw [hm.bytes hn]
    cases k.bytes name' with
    | error f => exact .error f
    | ok bytes => exact .ok rfl

theorem exceptionArgs (hm : Matched l h k) (hs : l.Same v w) :
    Except.Rel (List.Forall₂ l.Same) (h.exceptionArgs v) (k.exceptionArgs w) := by
  unfold Heap.exceptionArgs
  apply (hm.identity? hs).bind
  intro x y hxy
  cases hxy with
  | none => exact .ok .nil
  | some hxy =>
    refine (hm.block hs).bind fun b c hbc => .ok ?_
    simp only [hm.eq_iff_eq hxy hs]
    split
    · exact .nil
    · cases hbc with
      | none => exact .nil
      | some hbc => exact List.forall₂_drop 1 hbc.fields

end Matched
end Heap
end MovingHeap

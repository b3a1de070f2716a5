import MovingHeap.Proofs.Heap.Slots

/-!
The order in which a collection copies: breadth first from the roots. Main statement: the slots in
that order are those that the roots reach, each once.
-/
namespace MovingHeap
namespace Heap

variable {h : Heap} {order : List Nat}

/-- `order` with the slot of `w` at its end, unless it has that slot or `w` resolves to none. -/
def visit (h : Heap) (order : List Nat) (w : Word) : List Nat :=
  match h.slot? w with
  | some s => if s ∈ order then order else order ++ [s]
  | none => order

def visitAll (h : Heap) (order : List Nat) (ws : List Word) : List Nat := ws.foldl h.visit order

def fieldsAt (h : Heap) (s : Nat) : List Word := (h.blockAt? s).elim [] Block.fields

/-- Visits the fields of the blocks in `order` from position `k` on, at most `n` blocks of it. -/
def visitFrom (h : Heap) : Nat → Nat → List Nat → List Nat
  | 0, _, order => order
  | n + 1, k, order =>
    match order[k]? with
    | some s => h.visitFrom n (k + 1) (h.visitAll order (h.fieldsAt s))
    | none => order

/-- The slots whose blocks a collection keeps, in the order of copying. -/
def survivors (h : Heap) : List Nat := h.visitFrom h.blocks.size 0 (h.visitAll [] h.rootWords)

theorem fieldsAt_of_blockAt? {s : Nat} {b : Block} (hb : h.blockAt? s = some b) :
    h.fieldsAt s = b.fields := by simp [fieldsAt, hb]

theorem visit_of_slot? {w : Word} {s : Nat} (hw : h.slot? w = some s) :
    h.visit order w = if s ∈ order then order else order ++ [s] := by simp [visit, hw]

theorem visit_of_slot?_eq_none {w : Word} (hw : h.slot? w = none) : h.visit order w = order := by
  simp [visit, hw]

theorem prefix_visit (h : Heap) (order : List Nat) (w : Word) : order <+: h.visit order w := by
  unfold visit
  split
  · split
    · exact List.prefix_rfl
    · exact List.prefix_append _ _
  · exact List.prefix_rfl

theorem mem_visit {w : Word} {s : Nat} :
    s ∈ h.visit order w ↔ s ∈ order ∨ h.slot? w = some s := by
  cases hw : h.slot? w with
  | none => simp [visit_of_slot?_eq_none hw]
  | some t =>
    rw [visit_of_slot? hw, Option.some.injEq]
    split
    next ht =>
      constructor
      · exact .inl
      · rintro (hs | rfl)
        · exact hs
        · exact ht
    next => simp [eq_comm]

theorem prefix_visitAll (h : Heap) (order : List Nat) (ws : List Word) :
    order <+: h.visitAll order ws := by
  induction ws generalizing order with
  | nil => exact List.prefix_rfl
  | cons w ws ih => exact (h.prefix_visit order w).trans (ih _)

theorem mem_visitAll {ws : List Word} {s : Nat} :
    s ∈ h.visitAll order ws ↔ s ∈ order ∨ ∃ w ∈ ws, h.slot? w = some s := by
  induction ws generalizing order with
  | nil => simp [visitAll]
  | cons w ws ih =>
    change s ∈ h.visitAll (h.visit order w) ws ↔ _
    rw [ih, mem_visit]
    simp [or_assoc]

theorem prefix_visitFrom (h : Heap) (n k : Nat) (order : List Nat) :
    order <+: h.visitFrom n k order := by
  induction n generalizing k order with
  | zero => exact List.prefix_rfl
  | succ n ih =>
    unfold visitFrom
    split
    · exact (h.prefix_visitAll order _).trans (ih _ _)
    · exact List.prefix_rfl

/-- A list of slots in use, each once. -/
structure Listing (h : Heap) (order : List Nat) : Prop where
  nodup : order.Nodup
  bounds : ∀ s ∈ order, h.start ≤ s ∧ s < h.next

namespace Listing

theorem nil (h : Heap) : h.Listing [] := ⟨List.nodup_nil, by simp⟩

theorem length_le (ho : h.Listing order) : order.length ≤ h.blocks.size := by
  have hsub : order ⊆ List.range' h.start h.blocks.size := by
    intro s hs
    have hb := ho.bounds s hs
    rw [List.mem_range'_1]
    exact hb
  simpa using ho.nodup.length_le_of_subset hsub

theorem exists_block (ho : h.Listing order) {j s : Nat} (hs : order[j]? = some s) :
    ∃ b, h.blockAt? s = some b := by
  obtain ⟨hlo, hhi⟩ := ho.bounds s (List.mem_of_getElem? hs)
  exact exists_blockAt? hlo hhi

theorem visit (ho : h.Listing order) (w : Word) : h.Listing (h.visit order w) := by
  constructor
  · unfold Heap.visit
    split
    · split
      · exact ho.nodup
      next hs => exact List.nodup_append.2 ⟨ho.nodup, by simp, by grind⟩
    · exact ho.nodup
  · intro s hs
    rcases mem_visit.1 hs with hs | hs
    · exact ho.bounds s hs
    · exact bounds_of_slot? hs

theorem visitAll (ho : h.Listing order) (ws : List Word) : h.Listing (h.visitAll order ws) := by
  induction ws generalizing order with
  | nil => exact ho
  | cons w ws ih => exact ih (ho.visit w)

theorem visitFrom (ho : h.Listing order) (n k : Nat) : h.Listing (h.visitFrom n k order) := by
  induction n generalizing k order with
  | zero => exact ho
  | succ n ih =>
    unfold Heap.visitFrom
    split
    · exact ih (ho.visitAll _) _
    · exact ho

end Listing

theorem listing_survivors (h : Heap) : h.Listing h.survivors :=
  ((Listing.nil h).visitAll _).visitFrom _ _

theorem getElem?_of_extends {order order' : List Nat} (hp : order <+: order') {j s : Nat}
    (hs : order[j]? = some s) : order'[j]? = some s := by
  obtain ⟨rest, rfl⟩ := hp
  rw [List.getElem?_append_left (List.getElem?_eq_some_iff.1 hs).1, hs]

/-- The blocks before position `k` of `order` have all their fields in `order`. -/
def ScannedTo (h : Heap) (order : List Nat) (k : Nat) : Prop :=
  ∀ j < k, ∀ s, order[j]? = some s → ∀ w ∈ h.fieldsAt s, ∀ t, h.slot? w = some t → t ∈ order

namespace ScannedTo

variable {k : Nat}

theorem visitAll (hk : h.ScannedTo order k) {s : Nat} (hs : order[k]? = some s) :
    h.ScannedTo (h.visitAll order (h.fieldsAt s)) (k + 1) := by
  have hp := h.prefix_visitAll order (h.fieldsAt s)
  have hlt : k < order.length := (List.getElem?_eq_some_iff.1 hs).1
  intro j hj u hu w hw t ht
  have hu' : order[j]? = some u := by
    rw [List.getElem?_eq_getElem (by omega)]
    rw [getElem?_of_extends hp (List.getElem?_eq_getElem (by omega))] at hu
    exact hu
  by_cases hjk : j = k
  · subst hjk
    obtain rfl : s = u := Option.some.inj (hs.symm.trans hu')
    exact mem_visitAll.2 (.inr ⟨w, hw, ht⟩)
  · exact hp.subset (hk j (by omega) u hu' w hw t ht)

theorem visitFrom (hk : h.ScannedTo order k) (ho : h.Listing order) {n : Nat}
    (hn : h.blocks.size ≤ n + k) :
    h.ScannedTo (h.visitFrom n k order) (h.visitFrom n k order).length := by
  induction n generalizing k order with
  | zero =>
    have hlen := ho.length_le
    intro j hj
    change j < order.length at hj
    exact hk j (by omega)
  | succ n ih =>
    unfold Heap.visitFrom
    split
    next s hs => exact ih (hk.visitAll hs) (ho.visitAll _) (by omega)
    next hs =>
      have hlen := List.getElem?_eq_none_iff.1 hs
      exact fun j hj => hk j (by omega)

end ScannedTo

theorem scannedTo_survivors (h : Heap) : h.ScannedTo h.survivors h.survivors.length :=
  ScannedTo.visitFrom (fun j hj => absurd hj (Nat.not_lt_zero j))
    ((Listing.nil h).visitAll _) (Nat.le_refl _)

theorem reaches_of_mem_visitFrom {ws : List Word} {n k : Nat} (ho : ∀ s ∈ order, h.Reaches ws s) :
    ∀ s ∈ h.visitFrom n k order, h.Reaches ws s := by
  induction n generalizing k order with
  | zero => exact ho
  | succ n ih =>
    unfold visitFrom
    split
    next s hs =>
      apply ih
      intro t ht
      rcases mem_visitAll.1 ht with ht | ⟨w, hw, ht⟩
      · exact ho t ht
      · cases hb : h.blockAt? s with
        | none => simp [fieldsAt, hb] at hw
        | some b =>
          exact .field (ho s (List.mem_of_getElem? hs)) hb (fieldsAt_of_blockAt? hb ▸ hw) ht
    next => exact ho

/-- A collection keeps what the roots reach. -/
theorem mem_survivors_iff {s : Nat} : s ∈ h.survivors ↔ h.Reaches h.rootWords s := by
  constructor
  · apply reaches_of_mem_visitFrom
    intro t ht
    obtain ⟨w, hw, ht⟩ : ∃ w ∈ h.rootWords, h.slot? w = some t := by simpa using mem_visitAll.1 ht
    exact .word hw ht
  · intro hs
    induction hs with
    | word hw hs =>
      exact (h.prefix_visitFrom _ _ _).subset (mem_visitAll.2 (.inr ⟨_, hw, hs⟩))
    | @field s t b w _ hb hw ht ih =>
      obtain ⟨j, hj, he⟩ := List.getElem_of_mem ih
      refine h.scannedTo_survivors j hj s ?_ w (fieldsAt_of_blockAt? hb ▸ hw) t ht
      rw [List.getElem?_eq_getElem hj, he]

end Heap
end MovingHeap

import MovingHeap.Proofs.Collection.Moved

/-!
A collection call by call. Between two calls it is determined by the copy, by the roots that are
left and by the field that the scan has come to.
-/
namespace MovingHeap

namespace Block

variable {f g : Word → Word} {b : Block} {n : Nat} {w : Word}

/-- The block with its first `n` fields changed by `f`. -/
def mapFirst (n : Nat) (f : Word → Word) (b : Block) : Block :=
  b.withFields ((b.fields.take n).map f ++ b.fields.drop n)

@[simp]
theorem mapFirst_zero (f : Word → Word) (b : Block) : b.mapFirst 0 f = b := by simp [mapFirst]

theorem mapFirst_of_length_le (hn : b.fields.length ≤ n) : b.mapFirst n f = b.mapFields f := by
  simp [mapFirst, mapFields, List.take_of_length_le hn, List.drop_eq_nil_of_le hn]

theorem mapFirst_congr (hfg : ∀ w ∈ b.fields.take n, f w = g w) :
    b.mapFirst n f = b.mapFirst n g := by
  rw [mapFirst, mapFirst, List.map_congr_left hfg]

theorem fields_mapFirst (n : Nat) (f : Word → Word) (b : Block) :
    (b.mapFirst n f).fields = (b.fields.take n).map f ++ b.fields.drop n := by
  apply fields_withFields
  rw [List.length_append, List.length_map, ← List.length_append, List.take_append_drop]

/-- The fields after the first `n` are as they were. -/
theorem getElem?_fields_mapFirst (n : Nat) (f : Word → Word) (b : Block) :
    (b.mapFirst n f).fields[n]? = b.fields[n]? := by
  have hle : ((b.fields.take n).map f).length ≤ n := by
    rw [List.length_map]
    exact List.length_take_le _ _
  rw [fields_mapFirst, List.getElem?_append_right hle, List.getElem?_drop, List.length_map,
    List.length_take]
  by_cases hn : n < b.fields.length
  · rw [show n + (n - min n b.fields.length) = n by omega]
  · rw [List.getElem?_eq_none (by omega), List.getElem?_eq_none (by omega)]

theorem set_mapFirst (hw : b.fields[n]? = some w) :
    (b.mapFirst n f).withFields ((b.mapFirst n f).fields.set n (f w)) = b.mapFirst (n + 1) f := by
  obtain ⟨hn, rfl⟩ := List.getElem?_eq_some_iff.1 hw
  have hlen : ((b.fields.take n).map f).length = n := by simp; omega
  have hset : (b.mapFirst n f).fields.set n (f b.fields[n]) =
      (b.fields.take (n + 1)).map f ++ b.fields.drop (n + 1) := by
    rw [fields_mapFirst, List.set_append_right _ _ (by omega), hlen, Nat.sub_self,
      List.drop_eq_getElem_cons hn, List.set_cons_zero, List.take_succ_eq_append_getElem hn,
      List.map_append, List.append_assoc]
    rfl
  rw [hset]
  cases b <;> rfl

end Block

namespace Copying

variable {c : Copying} {f g : Word → Word} {i k : Nat} {w : Word}

/-- The source position whose block is copied when `w` is forwarded. -/
def taken? (c : Copying) (w : Word) : Option Nat :=
  (c.position? w).filter fun i => c.forwarding[i]?.join.isNone && c.source[i]?.join.isSome

/-- Field `i` of the target block at `k` becomes `v`. -/
def putField (k i : Nat) (v : Word) (c : Copying) : Copying :=
  { c with target := c.target.modify k fun b => b.withFields (b.fields.set i v) }

/-- The first `i` fields of the target block at `k` are changed by `f`. -/
def rewrite (k i : Nat) (f : Word → Word) (c : Copying) : Copying :=
  { c with target := c.target.modify k (·.mapFirst i f) }

/-- What `rewrite` makes of the target is determined place by place. -/
theorem rewrite_eq {target : Array Block}
    (hself : target[k]? = c.target[k]?.map (·.mapFirst i f))
    (hne : ∀ j, k ≠ j → target[j]? = c.target[j]?) : c.rewrite k i f = { c with target } := by
  have htarget : c.target.modify k (·.mapFirst i f) = target := by
    apply Array.ext_getElem?
    intro j
    rw [Array.getElem?_modify]
    split
    next hj => exact hj ▸ hself.symm
    next hj => exact (hne j hj).symm
  rw [rewrite, htarget]

theorem rewrite_congr (hfg : ∀ b, c.target[k]? = some b → b.mapFirst i f = b.mapFirst i g) :
    c.rewrite k i f = c.rewrite k i g := by
  apply rewrite_eq
  · rw [Array.getElem?_modify, if_pos rfl]
    exact Option.map_congr fun b hb => (hfg b hb).symm
  · intro j hj
    rw [Array.getElem?_modify, if_neg hj]

@[simp]
theorem rewrite_zero (k : Nat) (f : Word → Word) (c : Copying) : c.rewrite k 0 f = c :=
  rewrite_eq (by simp) fun _ _ => rfl

theorem putField_rewrite {b : Block} (hb : c.target[k]? = some b) (hw : b.fields[i]? = some w) :
    (c.rewrite k i f).putField k i (f w) = c.rewrite k (i + 1) f := by
  symm
  apply rewrite_eq (c := c)
  · rw [rewrite, Array.getElem?_modify, if_pos rfl, Array.getElem?_modify, if_pos rfl, hb,
      Option.map_some, Option.map_some, Option.map_some, Block.set_mapFirst hw]
  · intro j hj
    rw [rewrite, Array.getElem?_modify, if_neg hj, Array.getElem?_modify, if_neg hj]

theorem rewrite_of_length_le {b : Block} (hb : c.target[k]? = some b)
    (hlen : b.fields.length ≤ i) :
    c.rewrite k i f = { c with target := c.target.setIfInBounds k (b.mapFields f) } := by
  apply rewrite_eq
  · rw [Array.getElem?_setIfInBounds_self_of_lt (Array.getElem?_eq_some_iff.1 hb).1, hb,
      Option.map_some, Block.mapFirst_of_length_le hlen]
  · exact fun j hj => Array.getElem?_setIfInBounds_ne hj

/-- Forwarding does not look at what the target blocks hold. -/
theorem forward_rewrite (hk : k < c.target.size) (w : Word) :
    forward w (c.rewrite k i f) = ((forward w c).1, (forward w c).2.rewrite k i f) := by
  have hpush : ∀ b, (c.target.modify k (·.mapFirst i f)).push b =
      (c.target.push b).modify k (·.mapFirst i f) := by
    intro b
    apply Array.ext_getElem?
    intro j
    rw [Array.getElem?_push, Array.getElem?_modify, Array.getElem?_modify, Array.getElem?_push,
      Array.size_modify]
    by_cases hj : k = j
    · rw [if_neg (by omega), if_pos hj, if_pos hj, if_neg (by omega)]
    · rw [if_neg hj, if_neg hj]
  have hpos : (c.rewrite k i f).position? w = c.position? w := rfl
  simp only [forward, hpos]
  cases c.position? w with
  | none => rfl
  | some j =>
    simp only [rewrite]
    cases c.forwarding[j]?.join with
    | some slot => rfl
    | none =>
      cases c.source[j]?.join with
      | none => rfl
      | some b => simp only [hpush, Array.size_modify, targetWord]

end Copying

/-- A collection between two calls of `Copying.forward`. -/
structure Progress where
  copy : Copying
  /-- The roots that are still to be forwarded; the target is scanned after them. -/
  roots : List Word
  /-- How many target blocks have been scanned. -/
  scanned : Nat := 0
  /-- How many fields of the target block after these have been forwarded. -/
  fields : Nat := 0

namespace Progress

/-- The word that is forwarded next, if there is one before the scan leaves its block. -/
def word? (p : Progress) : Option Word :=
  match p.roots with
  | w :: _ => some w
  | [] => p.copy.target[p.scanned]?.bind fun b => b.fields[p.fields]?

/-- What the next call copies: the source position of a block, or nothing. -/
def taken (p : Progress) : List Nat := (p.word?.bind p.copy.taken?).toList

/-- One call, with what is done with its result; or the step of the scan from a block to the next.
After the last block there is none. -/
def next? (p : Progress) : Option Progress :=
  match p.roots with
  | w :: roots => some { p with copy := (Copying.forward w p.copy).2, roots }
  | [] =>
    p.copy.target[p.scanned]?.map fun b =>
      match b.fields[p.fields]? with
      | some w =>
        { p with
          copy := (Copying.forward w p.copy).2.putField p.scanned p.fields
            (Copying.forward w p.copy).1
          fields := p.fields + 1 }
      | none => { p with scanned := p.scanned + 1, fields := 0 }

variable {p : Progress} {b : Block} {w : Word}

theorem word?_of_root {roots : List Word} (hr : p.roots = w :: roots) : p.word? = some w := by
  simp [word?, hr]

theorem word?_of_scanned (hr : p.roots = []) (hb : p.copy.target[p.scanned]? = some b) :
    p.word? = b.fields[p.fields]? := by
  simp [word?, hr, hb]

theorem next?_of_root {roots : List Word} (hr : p.roots = w :: roots) :
    p.next? = some { p with copy := (Copying.forward w p.copy).2, roots } := by
  simp [next?, hr]

theorem next?_of_field (hr : p.roots = []) (hb : p.copy.target[p.scanned]? = some b)
    (hw : b.fields[p.fields]? = some w) :
    p.next? = some { p with
      copy := (Copying.forward w p.copy).2.putField p.scanned p.fields
        (Copying.forward w p.copy).1
      fields := p.fields + 1 } := by
  simp [next?, hr, hb, hw]

theorem next?_of_block (hr : p.roots = []) (hb : p.copy.target[p.scanned]? = some b)
    (hw : b.fields[p.fields]? = none) :
    p.next? = some { p with scanned := p.scanned + 1, fields := 0 } := by
  simp [next?, hr, hb, hw]

theorem next?_eq_none_iff :
    p.next? = none ↔ p.roots = [] ∧ p.copy.target[p.scanned]? = none := by
  cases hr : p.roots <;> simp [next?, hr]

end Progress

namespace Heap

/-- A collection of `h` has come to `p`, and has copied the blocks at the source positions `taken`,
in this order. -/
inductive Collecting (h : Heap) : List Nat → Progress → Prop
  | start : Collecting h [] { copy := h.copying, roots := h.rootWords }
  | next {taken : List Nat} {p q : Progress} :
    Collecting h taken p → p.next? = some q → Collecting h (taken ++ p.taken) q

end Heap
end MovingHeap

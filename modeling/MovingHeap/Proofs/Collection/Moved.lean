import MovingHeap.Proofs.Collection.Copying

/-!
The heap after a collection. Main statement: the collector changes every word in a root or in a kept
block in one and the same way, and keeps the surviving blocks in the order of copying.
-/
namespace MovingHeap
namespace Copying

variable {α β : Type}

/-- `m` forwards the words `ws` in order, and puts what they become into its result. -/
structure Forwards (m : StateM Copying α) (ws : List Word) (build : (Word → Word) → α) : Prop where
  run : ∀ {h : Heap} {order : List Nat} {k : Nat} {c : Copying}, h.Follows order k c →
    ∃ c', m c = (build (h.relocate (h.visitAll order ws)), c') ∧
        h.Follows (h.visitAll order ws) k c'
  congr : ∀ {f g : Word → Word}, (∀ w ∈ ws, f w = g w) → build f = build g

namespace Forwards

theorem pure (a : α) : Forwards (Pure.pure a) [] fun _ => a :=
  ⟨fun hc => ⟨_, rfl, hc⟩, fun _ => rfl⟩

theorem forward (w : Word) : Forwards (Copying.forward w) [w] fun f => f w :=
  ⟨fun hc => hc.forward w, fun hw => hw w (by simp)⟩

theorem bind {m : StateM Copying α} {k : α → StateM Copying β} {ws ws' : List Word}
    {build : (Word → Word) → α} {build' : α → (Word → Word) → β} (hm : Forwards m ws build)
    (hk : ∀ a, Forwards (k a) ws' (build' a)) :
    Forwards (m >>= k) (ws ++ ws') fun f => build' (build f) f := by
  constructor
  · intro h order n c hc
    obtain ⟨c₁, hm₁, hc₁⟩ := hm.run hc
    obtain ⟨c₂, hk₂, hc₂⟩ := (hk (build (h.relocate (h.visitAll order ws)))).run hc₁
    have hall : h.visitAll order (ws ++ ws') = h.visitAll (h.visitAll order ws) ws' := by
      simp [Heap.visitAll]
    -- what follows does not change where the words `ws` go, since their slots are listed already
    have hsame : build (h.relocate (h.visitAll order ws)) =
        build (h.relocate (h.visitAll order (ws ++ ws'))) := by
      apply hm.congr
      intro w hw
      rw [hall]
      refine (Heap.relocate_of_extends (h.prefix_visitAll _ _) ?_).symm
      intro s hs
      exact Heap.mem_visitAll.2 (.inr ⟨w, hw, hs⟩)
    refine ⟨c₂, ?_, hall ▸ hc₂⟩
    rw [← hsame, hall, ← hk₂]
    simp only [Bind.bind, StateT.bind, hm₁]
  · intro f g hfg
    rw [hm.congr fun w hw => hfg w (List.mem_append_left _ hw)]
    exact (hk _).congr fun w hw => hfg w (List.mem_append_right _ hw)

theorem list (ws : List Word) : Forwards (ws.mapM Copying.forward) ws fun f => ws.map f := by
  induction ws with
  | nil => exact pure []
  | cons w ws ih =>
    rw [List.mapM_cons]
    have h := (forward w).bind fun v => ih.bind fun vs => pure (v :: vs)
    simpa using h

theorem registry (r : Registry) :
    Forwards (r.mapM Copying.forward) r.words fun f => r.map f := by
  have hes : ∀ es : List (Bytes × Word),
      Forwards (es.mapM fun e => do return (e.1, ← Copying.forward e.2)) (es.map Prod.snd)
        fun f => es.map fun e => (e.1, f e.2) := by
    intro es
    induction es with
    | nil => exact pure []
    | cons e es ih =>
      rw [List.mapM_cons]
      have h := ((forward e.2).bind fun v => pure (e.1, v)).bind fun e' =>
        ih.bind fun es' => pure (e' :: es')
      simpa using h
  have h := (hes r.entries).bind fun es => pure (Registry.mk es)
  rw [List.append_nil] at h
  exact h

theorem identities (ids : Identities) :
    Forwards (ids.mapM Copying.forward) ids.words fun f => ids.map f :=
  (forward ids.outOfMemory).bind fun outOfMemory =>
    (forward ids.failure).bind fun failure =>
      (forward ids.invalidArgument).bind fun invalidArgument =>
        (forward ids.notFound).bind fun notFound =>
          pure (Identities.mk outOfMemory failure invalidArgument notFound)

theorem option (o : Option Word) :
    Forwards (o.mapM Copying.forward) o.toList fun f => o.map f := by
  cases o with
  | none => exact pure none
  | some w => exact (forward w).bind fun v => pure (some v)

theorem roots (h : Heap) : Forwards h.forwardRoots h.rootWords fun f => h.mapRoots f := by
  have hall := (list h.roots).bind fun roots => (registry h.registry).bind fun registry =>
    (identities h.builtins).bind fun builtins => (option h.pending).bind fun pending =>
      pure { h with roots, registry, builtins, pending }
  rw [List.append_nil] at hall
  exact hall

end Forwards
end Copying

namespace Heap
namespace Follows

variable {h : Heap} {order : List Nat} {k : Nat} {c : Copying}

/-- The block at position `k` gets its fields, which have all been visited. -/
theorem rewritten (hc : h.Follows order k c) {s : Nat} {b : Block} (hs : order[k]? = some s)
    (hb : h.blockAt? s = some b) (hw : ∀ w ∈ b.fields, ∀ t, h.slot? w = some t → t ∈ order) :
    h.Follows order (k + 1)
      { c with target := c.target.setIfInBounds k (b.mapFields (h.relocate order)) } := by
  have hk : k < order.length := (List.getElem?_eq_some_iff.1 hs).1
  refine
    { hc with
      targetSize := by simpa using hc.targetSize
      scanned_le := hk
      scanned := ?_
      target := ?_ }
  · intro j hj t ht w hwt u hu
    by_cases hjk : j = k
    · subst hjk
      obtain rfl : s = t := Option.some.inj (hs.symm.trans ht)
      exact hw w (fieldsAt_of_blockAt? hb ▸ hwt) u hu
    · exact hc.scanned j (by omega) t ht w hwt u hu
  · intro j t ht
    by_cases hjk : j = k
    · subst hjk
      obtain rfl : s = t := Option.some.inj (hs.symm.trans ht)
      rw [hb, Option.map_some, if_pos (by omega)]
      exact Array.getElem?_setIfInBounds_self_of_lt (by rw [hc.targetSize]; exact hk)
    · have hlt : j < k + 1 ↔ j < k := by omega
      simp only [hlt]
      rw [Array.getElem?_setIfInBounds_ne (Ne.symm hjk)]
      exact hc.target j t ht

theorem scanBlock (hc : h.Follows order k c) {s : Nat} (hs : order[k]? = some s) :
    h.Follows (h.visitAll order (h.fieldsAt s)) (k + 1) (c.scanBlock k) := by
  obtain ⟨b, hb⟩ := hc.listing.exists_block hs
  obtain ⟨c₁, hrun, hc₁⟩ := (Copying.Forwards.list b.fields).run hc
  have hs₁ := getElem?_of_extends (h.prefix_visitAll order b.fields) hs
  have hnext := hc₁.rewritten hs₁ hb fun w hw t ht => mem_visitAll.2 (.inr ⟨w, hw, ht⟩)
  rw [fieldsAt_of_blockAt? hb]
  simp only [Copying.scanBlock, hc.target_next hs hb, StateT.run, hrun]
  exact hnext

theorem scanFrom (hc : h.Follows order k c) {n : Nat} (hn : h.blocks.size ≤ n + k) :
    h.Follows (h.visitFrom n k order) (h.visitFrom n k order).length (c.scanFrom n k) := by
  have hlen := hc.listing.length_le
  have hk := hc.scanned_le
  induction n generalizing k order c with
  | zero =>
    obtain rfl : k = order.length := by omega
    exact hc
  | succ n ih =>
    unfold Copying.scanFrom visitFrom
    rw [hc.targetSize]
    by_cases hlt : k < order.length
    · rw [if_pos hlt, List.getElem?_eq_getElem hlt]
      have hc' := hc.scanBlock (List.getElem?_eq_getElem hlt)
      exact ih hc' (by omega) hc'.listing.length_le hc'.scanned_le
    · obtain rfl : k = order.length := by omega
      rw [if_neg hlt, List.getElem?_eq_none (Nat.le_refl _)]
      exact hc

end Follows

/-- What a collection of `h` makes of the word `w`. -/
def carry (h : Heap) (w : Word) : Word := h.relocate h.survivors w

/-- What a collection of `h` makes of the block in slot `s`. -/
def keptBlock (h : Heap) (s : Nat) : Block := ((h.blockAt? s).getD (.tuple [])).mapFields h.carry

variable {h : Heap}

theorem keptBlock_of_blockAt? {s : Nat} {b : Block} (hb : h.blockAt? s = some b) :
    h.keptBlock s = b.mapFields h.carry := by simp [keptBlock, hb]

theorem follows_forwardRoots (h : Heap) :
    h.Follows (h.visitAll [] h.rootWords) 0 (h.forwardRoots.run h.copying).2 := by
  obtain ⟨c, hrun, hc⟩ := (Copying.Forwards.roots h).run (Follows.start h)
  rw [StateT.run, hrun]
  exact hc

/-- The copy that a collection ends with. -/
theorem follows_scan (h : Heap) :
    h.Follows h.survivors h.survivors.length (h.forwardRoots.run h.copying).2.scan := by
  rw [Copying.scan, h.follows_forwardRoots.sourceSize]
  exact h.follows_forwardRoots.scanFrom (Nat.le_refl _)

theorem Follows.target_eq {c : Copying} (hc : h.Follows h.survivors h.survivors.length c) :
    c.target = (h.survivors.map h.keptBlock).toArray := by
  apply Array.ext_getElem?
  intro j
  have hlist : (h.survivors.map h.keptBlock).toArray[j]? = h.survivors[j]?.map h.keptBlock := by
    simp
  rw [hlist]
  cases hs : h.survivors[j]? with
  | none =>
    have hj := List.getElem?_eq_none_iff.1 hs
    exact Array.getElem?_eq_none (hc.targetSize ▸ hj)
  | some s =>
    obtain ⟨b, hb⟩ := h.listing_survivors.exists_block hs
    rw [hc.target j s hs, hb, Option.map_some, if_pos (List.getElem?_eq_some_iff.1 hs).1,
      Option.map_some, keptBlock_of_blockAt? hb]
    rfl

/-- A collection changes every root and every field by `carry`, and keeps the survivors. -/
theorem moved_eq (h : Heap) : h.moved =
    { h.mapRoots h.carry with
      blocks := (h.survivors.map h.keptBlock).toArray
      start := h.next
      epoch := nextEpoch h.epoch
      sinceCollection := 0
      liveWords := wordsOf (h.survivors.map h.keptBlock).toArray
      collections := h.collections + 1 } := by
  have hroots := Copying.Forwards.roots h
  obtain ⟨c, hrun, -⟩ := hroots.run (Follows.start h)
  have hcarry : ∀ w ∈ h.rootWords, h.relocate (h.visitAll [] h.rootWords) w = h.carry w := by
    intro w hw
    refine (relocate_of_extends (h.prefix_visitFrom _ _ _) ?_).symm
    intro s hs
    exact mem_visitAll.2 (.inr ⟨w, hw, hs⟩)
  have htarget := h.follows_scan.target_eq
  have hheap := hroots.congr hcarry
  simp only [StateT.run, hrun] at htarget
  unfold moved
  simp only [StateT.run, hrun, htarget]
  rw [hheap]

/-- Where a collection puts the block of slot `s`. -/
def newSlot (h : Heap) (s : Nat) : Nat := h.next + h.survivors.idxOf s

theorem start_moved (h : Heap) : h.moved.start = h.next := by rw [moved_eq]

theorem epoch_moved (h : Heap) : h.moved.epoch = nextEpoch h.epoch := by rw [moved_eq]

theorem roots_moved (h : Heap) : h.moved.roots = h.roots.map h.carry := by rw [moved_eq]; rfl

theorem registry_moved (h : Heap) :
    h.moved.registry.entries = h.registry.entries.map fun e => (e.1, h.carry e.2) := by
  rw [moved_eq]; rfl

theorem builtin_moved (h : Heap) (b : Builtin) : h.moved.builtin b = h.carry (h.builtin b) := by
  rw [moved_eq]
  cases b <;> rfl

theorem pending_moved (h : Heap) : h.moved.pending = h.pending.map h.carry := by rw [moved_eq]; rfl

theorem config_moved (h : Heap) : h.moved.config = h.config := by rw [moved_eq]; rfl

theorem identities_moved (h : Heap) : h.moved.identities = h.identities := by rw [moved_eq]; rfl

theorem allocated_moved (h : Heap) : h.moved.allocated = h.allocated := by rw [moved_eq]; rfl

theorem next_moved (h : Heap) : h.moved.next = h.next + h.survivors.length := by
  rw [moved_eq]
  simp [next]

/-- With as many slots left as there are blocks, a collection succeeds. -/
theorem collect_of_room (hn : h.next + h.blocks.size ≤ maxSlot) :
    h.collect = .ok h.moved ∧ h.moved.next ≤ maxSlot := by
  have hlen := h.listing_survivors.length_le
  have hmoved := h.next_moved
  exact ⟨collect_eq_ok_iff.2 ⟨rfl, by omega, by omega⟩, by omega⟩

theorem rootWords_mapRoots (f : Word → Word) (h : Heap) :
    (h.mapRoots f).rootWords = h.rootWords.map f := by
  simp [rootWords, mapRoots, Registry.words, Registry.map, Identities.words, Identities.map,
    Option.toList_map]

theorem rootWords_moved (h : Heap) : h.moved.rootWords = h.rootWords.map h.carry := by
  rw [moved_eq]
  exact rootWords_mapRoots h.carry h

theorem carry_of_slot? {w : Word} {s : Nat} (hw : h.slot? w = some s) (hs : s ∈ h.survivors) :
    h.carry w = .ofRef ⟨h.newSlot s, nextEpoch h.epoch⟩ := relocate_of_mem hw hs

theorem carry_of_slot?_eq_none {w : Word} (hw : h.slot? w = none) : h.carry w = w :=
  relocate_of_slot?_eq_none hw

theorem mem_survivors_of_rootWord {w : Word} {s : Nat} (hw : w ∈ h.rootWords)
    (hs : h.slot? w = some s) : s ∈ h.survivors := mem_survivors_iff.2 (.word hw hs)

theorem mem_survivors_of_field {s t : Nat} {b : Block} {w : Word} (hs : s ∈ h.survivors)
    (hb : h.blockAt? s = some b) (hw : w ∈ b.fields) (ht : h.slot? w = some t) :
    t ∈ h.survivors := mem_survivors_iff.2 (.field (mem_survivors_iff.1 hs) hb hw ht)

theorem exists_block_of_mem_survivors {s : Nat} (hs : s ∈ h.survivors) :
    ∃ b, h.blockAt? s = some b := (mem_survivors_iff.1 hs).exists_block

theorem blockAt?_moved (h : Heap) (j : Nat) :
    h.moved.blockAt? (h.next + j) = h.survivors[j]?.map h.keptBlock := by
  have hs := h.start_moved
  rw [blockAt?_of_le (by omega), hs, Nat.add_sub_cancel_left, moved_eq]
  simp

theorem blockAt?_moved_newSlot {s : Nat} {b : Block} (hs : s ∈ h.survivors)
    (hb : h.blockAt? s = some b) : h.moved.blockAt? (h.newSlot s) = some (b.mapFields h.carry) := by
  have hidx := List.idxOf_lt_length_of_mem hs
  rw [newSlot, blockAt?_moved, List.getElem?_eq_getElem hidx, List.getElem_idxOf, Option.map_some,
    keptBlock_of_blockAt? hb]

/-- Every block after a collection is what became of a survivor. -/
theorem exists_of_blockAt?_moved {t : Nat} {c : Block} (hc : h.moved.blockAt? t = some c) :
    ∃ s ∈ h.survivors, ∃ b, h.blockAt? s = some b ∧ t = h.newSlot s ∧ c = b.mapFields h.carry := by
  have hlo := (bounds_of_blockAt? hc).1
  rw [start_moved] at hlo
  obtain ⟨j, rfl⟩ := Nat.exists_eq_add_of_le hlo
  rw [blockAt?_moved] at hc
  obtain ⟨s, hs, rfl⟩ := Option.map_eq_some_iff.1 hc
  obtain ⟨hj, rfl⟩ := List.getElem?_eq_some_iff.1 hs
  obtain ⟨b, hb⟩ := exists_block_of_mem_survivors (List.getElem_mem hj)
  refine ⟨_, List.getElem_mem hj, b, hb, ?_, keptBlock_of_blockAt? hb⟩
  rw [newSlot, h.listing_survivors.nodup.idxOf_getElem]

end Heap
end MovingHeap

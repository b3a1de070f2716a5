import MovingHeap.Proofs.Schedule.Overflow
import MovingHeap.Proofs.Schedule.Request

/-!
Requests made of two heaps in use that match. Main statement: both uses make the same of a request,
and match again, unless the schedule of one of them stops it.
-/
namespace MovingHeap

namespace Heap

variable {l : Link} {h k : Heap} {vs ws : List Word}

theorem idxOf_eq_idxOf {R : Nat → Nat → Prop} (hr : Relator.BiUnique R) {ss ts : List Nat}
    (hst : List.Forall₂ R ss ts) {s t : Nat} (h₀ : R s t) : ss.idxOf s = ts.idxOf t := by
  induction hst with
  | nil => rfl
  | @cons s' t' _ _ h₁ _ ih =>
    rw [List.idxOf_cons, List.idxOf_cons, ih]
    by_cases hs : s' = s
    · subst hs
      obtain rfl := hr.2 h₁ h₀
      simp
    · have ht : t' ≠ t := by
        rintro rfl
        exact hs (hr.1 h₁ h₀)
      simp [beq_eq_false_iff_ne.2 hs, beq_eq_false_iff_ne.2 ht]

namespace Matched

theorem itemOf (hm : Matched l h k) {order order' : List Nat}
    (ho : List.Forall₂ l.slots order order') {v w : Word} (hs : l.Same v w) :
    h.itemOf order v = k.itemOf order' w := by
  unfold Heap.itemOf
  have hr := hm.slot?_rel hs
  cases hs with
  | immediate hv => rw [slot?_of_ref?_eq_none hv, slot?_of_ref?_eq_none hv]
  | block hst =>
    rw [hm.slot?_left hst, hm.slot?_right hst]
    exact congrArg Item.block (idxOf_eq_idxOf hm.unique ho hst)

theorem items (hm : Matched l h k) {order order' : List Nat}
    (ho : List.Forall₂ l.slots order order') (hs : List.Forall₂ l.Same vs ws) :
    vs.map (h.itemOf order) = ws.map (k.itemOf order') :=
  map_eq_map_of_forall₂ hs fun _ _ => hm.itemOf ho

theorem nodeAt (hm : Matched l h k) {order order' : List Nat}
    (ho : List.Forall₂ l.slots order order') {s t : Nat} (hst : l.slots s t) :
    h.nodeAt order s = k.nodeAt order' t := by
  obtain ⟨b, c, hb, hc, hbc⟩ := hm.blocks s t hst
  simp only [Heap.nodeAt, hb, hc, hbc.tag, hbc.bytes, hm.items ho hbc.fields, Option.map_some]

/-- Matching heaps give the same picture. -/
theorem picture (hm : Matched l h k) (hs : List.Forall₂ l.Same vs ws) :
    h.picture vs = k.picture ws := by
  have ho := (hm.withRoots (List.rel_append hm.roots hs)).survivors
  unfold Heap.picture
  generalize ({ h with roots := h.roots ++ vs } : Heap).survivors = order at ho
  generalize ({ k with roots := k.roots ++ ws } : Heap).survivors = order' at ho
  have hnodes : order.filterMap (h.nodeAt order) = order'.filterMap (k.nodeAt order') := by
    have hmap := map_eq_map_of_forall₂ ho fun _ _ => hm.nodeAt ho
    simpa using congrArg (List.filterMap id) hmap
  have hregistry : (h.registry.entries.map fun e => (e.1, h.itemOf order e.2)) =
      k.registry.entries.map fun e => (e.1, k.itemOf order' e.2) :=
    map_eq_map_of_forall₂ hm.registry fun _ _ hef => Prod.ext hef.1 (hm.itemOf ho hef.2)
  have hpending : h.pending.map (h.itemOf order) = k.pending.map (k.itemOf order') := by
    have hp := hm.pending
    revert hp
    cases h.pending <;> cases k.pending <;> intro hp <;> cases hp
    · rw [Option.map_none, Option.map_none]
    · exact congrArg some (hm.itemOf ho ‹_›)
  simp only [hnodes, hregistry, hpending, hm.items ho hm.roots, hm.items ho hm.builtinWords,
    hm.items ho hs]

end Matched

theorem Alike.picture (ha : Alike h k vs ws) : h.picture vs = k.picture ws := by
  obtain ⟨l, hm, hs⟩ := ha
  exact hm.picture hs

theorem Alike.length_eq (ha : Alike h k vs ws) : vs.length = ws.length := by
  obtain ⟨l, -, hs⟩ := ha
  exact hs.length_eq

theorem Alike.roots_length_eq (ha : Alike h k vs ws) : h.roots.length = k.roots.length := by
  obtain ⟨l, hm, -⟩ := ha
  exact hm.roots.length_eq

end Heap

def Observation.isScheduled : Observation → Bool
  | answer .. => false
  | fault f => f.isScheduled

theorem Observation.exists_fault {o : Observation} (ho : o.isScheduled = true) :
    ∃ f, o = .fault f ∧ f.isScheduled = true := by
  cases o with
  | answer => simp [isScheduled] at ho
  | fault f => exact ⟨f, rfl, ho⟩

namespace Usage

/-- Two uses by one client of matching heaps. -/
def Alike (s t : Usage) : Prop := s.heap.Alike t.heap s.held t.held ∧ s.frames = t.frames

/-- The same observation and uses that are alike again, unless the schedule stops one of them. -/
def Abreast (x y : Observation × Option Usage) : Prop :=
  x.1.isScheduled = true ∨ y.1.isScheduled = true ∨ x.1 = y.1 ∧ Option.Rel Alike x.2 y.2

variable {s t : Usage}

theorem Alike.perform (ha : s.Alike t) (r : Request) : Abreast (s.perform r) (t.perform r) := by
  obtain ⟨hheap, hframes⟩ := ha
  have hkept := Request.length_kept_eq hheap.length_eq r
  have hroots := hheap.roots_length_eq
  unfold Abreast Usage.perform
  rw [← hframes]
  rcases Request.agrees s.frames r _ _ hheap with ⟨f, h, hr, hf⟩ | ⟨f, k, hr, hf⟩ | hr
  · exact .inl (by rw [hr]; exact hf)
  · exact .inr (.inl (by rw [hr]; exact hf))
  · generalize r.run s.held s.frames s.heap = x at hr
    generalize r.run t.held s.frames t.heap = y at hr
    refine .inr (.inr ?_)
    cases hr with
    | @ok a b h k hab =>
      obtain ⟨hfact, hab⟩ := hab
      have hlen : a.2.length = b.2.length := by
        have hall := hab.length_eq
        simp only [List.length_append] at hall
        omega
      have hnext : r.framesAfter s.heap s.frames = r.framesAfter t.heap s.frames := by
        cases r <;> simp only [Request.framesAfter, hroots]
      refine ⟨?_, .some ⟨hab, hnext⟩⟩
      simp only [hfact, hlen, hab.picture]
    | raise hf ha =>
      refine ⟨?_, .some ⟨ha, rfl⟩⟩
      simp only [hf, ha.length_eq, ha.picture]
    | fault f h k => exact ⟨rfl, .none⟩

end Usage

namespace Heap

variable {h k : Heap}

theorem Alike.collectTimes (ha : Alike h k [] []) {n : Nat} {h' : Heap}
    (hr : h.collectTimes n = .ok h') : Alike h' k [] [] := by
  induction n generalizing h with
  | zero =>
    obtain rfl := Except.ok.inj hr
    exact ha
  | succ n ih =>
    obtain ⟨h₁, hc, hr⟩ := Except.bind_eq_ok_iff.1 hr
    exact ih (ha.collect_left hc) hr

theorem isExhaustion_of_collectTimes {n : Nat} {f : Fault} (hr : h.collectTimes n = .error f) :
    f.isExhaustion = true := by
  induction n generalizing h with
  | zero => simp [collectTimes] at hr
  | succ n ih =>
    rcases Except.bind_eq_error_iff.1 hr with hc | ⟨h₁, -, hr⟩
    · exact isExhaustion_of_collect hc
    · exact ih hr

end Heap

namespace Usage

variable {s t : Usage}

/-- Collections between requests end for want of slots, or leave uses alike. -/
theorem Alike.collect (ha : s.Alike t) (n : Nat) :
    (∃ f, s.collect n = .error f ∧ f.isExhaustion = true) ∨
      ∃ s', s.collect n = .ok s' ∧ s'.Alike t := by
  unfold Usage.collect
  by_cases hs : s.held = []
  · rw [if_pos hs]
    have hempty := ha.1
    rw [hs] at hempty
    have ht : t.held = [] := List.length_eq_zero_iff.1 hempty.length_eq.symm
    rw [ht] at hempty
    cases hr : s.heap.collectTimes n with
    | error f => exact .inl ⟨f, rfl, Heap.isExhaustion_of_collectTimes hr⟩
    | ok h => exact .inr ⟨_, rfl, by rw [hs, ht]; exact hempty.collectTimes hr, ha.2⟩
  · rw [if_neg hs]
    exact .inr ⟨s, rfl, ha⟩

theorem Alike.symm (ha : s.Alike t) : t.Alike s := ⟨ha.1.symm, ha.2.symm⟩

theorem Alike.advance (ha : s.Alike t) (m n : Nat) (r : Request) :
    Abreast (s.advance m r) (t.advance n r) := by
  unfold Usage.advance
  rcases ha.collect m with ⟨f, hs, hf⟩ | ⟨s', hs, ha'⟩
  · exact .inl (by rw [hs]; exact Fault.isScheduled_of_isExhaustion hf)
  rcases ha'.symm.collect n with ⟨f, ht, hf⟩ | ⟨t', ht, ha''⟩
  · exact .inr (.inl (by rw [ht]; exact Fault.isScheduled_of_isExhaustion hf))
  rw [hs, ht]
  exact ha''.symm.perform r

/-- Whether a sum overflows when the heap collects `n` times and the request is then made. -/
def Overflows (n : Nat) (r : Request) (s : Usage) : Prop :=
  ∃ t, s.collect n = .ok t ∧ r.Overflows t.heap

theorem perform_eq_fault_iff (r : Request) (f : Fault) :
    (s.perform r).1 = .fault f ↔ Mutator.Faults (r.run s.held s.frames) s.heap f := by
  unfold perform Mutator.Faults
  split <;> simp_all

theorem perform_eq_none_of_fault {r : Request} {f : Fault} (hf : (s.perform r).1 = .fault f) :
    (s.perform r).2 = none := by
  obtain ⟨h', hr⟩ := (perform_eq_fault_iff r f).1 hf
  simp only [perform, hr]

/-- A fault ends the use. -/
theorem advance_eq_none_of_fault {n : Nat} {r : Request} {f : Fault}
    (hf : (s.advance n r).1 = .fault f) : (s.advance n r).2 = none := by
  unfold advance at hf ⊢
  cases hs : s.collect n with
  | error f' => rfl
  | ok t =>
    rw [hs] at hf
    exact perform_eq_none_of_fault hf

/-- Uses that are alike make the same of a request unless the schedule stops just one of them. -/
theorem Alike.advance_eq (ha : s.Alike t) {m n : Nat} {r : Request}
    (hf : ∀ f, f.isScheduled = true →
      ((s.advance m r).1 = .fault f ↔ (t.advance n r).1 = .fault f)) :
    (s.advance m r).1 = (t.advance n r).1 ∧
      Option.Rel Alike (s.advance m r).2 (t.advance n r).2 := by
  have hboth : ∀ f, (s.advance m r).1 = .fault f → (t.advance n r).1 = .fault f →
      (s.advance m r).1 = (t.advance n r).1 ∧
        Option.Rel Alike (s.advance m r).2 (t.advance n r).2 := by
    intro f hs ht
    rw [advance_eq_none_of_fault hs, advance_eq_none_of_fault ht, hs, ht]
    exact ⟨rfl, .none⟩
  rcases ha.advance m n r with hs | ht | hst
  · obtain ⟨f, hs, hsched⟩ := Observation.exists_fault hs
    exact hboth f hs ((hf f hsched).1 hs)
  · obtain ⟨f, ht, hsched⟩ := Observation.exists_fault ht
    exact hboth f ((hf f hsched).2 ht) ht
  · exact hst

theorem advance_eq_overflow_iff (ha : s.Alike s) (n : Nat) (r : Request) :
    (s.advance n r).1 = .fault .sizeOverflow ↔ s.Overflows n r := by
  unfold advance Overflows
  rcases ha.collect n with ⟨f, hs, hf⟩ | ⟨t, hs, ht⟩
  · have hne : f ≠ .sizeOverflow := Fault.isOther_of_isExhaustion hf
    simp [hs, hne]
  · obtain ⟨l, hm, -⟩ := ht.1
    simp [hs, perform_eq_fault_iff, Request.faults_run_iff hm.countedLeft]

end Usage
end MovingHeap

import MovingHeap.Proofs.Process.Trusted
import MovingHeap.Proofs.Schedule.Usage

/-!
When a heap collects cannot be observed. Main statement: two runs of a client, under settings that
differ only in when to collect, and with any further collections in either, give the same
observations as long as slots last, except where the size of a new block overflows a sum in one run
and not in the other.
-/
namespace MovingHeap

/-- The same settings but for the pace of collections. -/
def Config.paced (config : Config) (minorWords : Nat) (stress : Bool) : Config :=
  { config with tuning := { config.tuning with minorWords, stress } }

namespace Heap

variable {h k : Heap}

/-- Each slot in use, with itself. -/
def selfLink (h : Heap) : Link := ⟨fun s t => s = t ∧ h.start ≤ s ∧ s < h.next, h.epoch, h.epoch⟩

/-- A heap matches itself if every word in it is just as it was given out. -/
theorem Counted.matched_self (hc : h.Counted) (hroots : ∀ w ∈ h.rootWords, h.selfLink.Same w w)
    (hfields : ∀ s b, h.blockAt? s = some b → ∀ w ∈ b.fields, h.selfLink.Same w w) :
    Matched h.selfLink h h where
  left := rfl
  right := rfl
  countedLeft := hc
  countedRight := hc
  unique := by
    constructor
    · rintro s t u ⟨rfl, -⟩ ⟨rfl, -⟩
      rfl
    · rintro s t u ⟨rfl, -⟩ ⟨rfl, -⟩
      rfl
  blocks := by
    rintro s t ⟨rfl, hs, hn⟩
    obtain ⟨b, hb⟩ := exists_blockAt? hs hn
    exact ⟨b, b, hb, hb, rfl, rfl, List.forall₂_same.2 (hfields s b hb)⟩
  roots := List.forall₂_same.2 fun w hw => hroots w (List.mem_append_left _ hw)
  registry := List.forall₂_same.2 fun e he => ⟨rfl, hroots e.2 (mem_rootWords_of_entry he)⟩
  builtins := fun b => hroots _ (h.builtin_mem_rootWords b)
  pending := by
    cases hp : h.pending with
    | none => exact .none
    | some w => exact .some (hroots w (mem_rootWords_of_pending hp))
  identities := rfl
  maxWords := rfl
  messageLimit := rfl

theorem Matched.paced {l : Link} (hm : Matched l h k) (minorWords : Nat) (stress : Bool) :
    Matched l h { k with config := k.config.paced minorWords stress } :=
  { hm with
    toPaired := hm.toPaired.congr ⟨rfl, rfl, rfl⟩ rfl ⟨rfl, rfl, rfl⟩ rfl }

theorem new_matched (config : Config) :
    Matched (new config).selfLink (new config) (new config) := by
  have hroots : ∀ w ∈ (new {}).rootWords, w.ref? = none ∨ ∃ s, s < 8 ∧ w = .ofRef ⟨s, 0⟩ := by
    decide +kernel
  have hfields : ∀ b ∈ (new {}).blocks.toList, ∀ w ∈ b.fields,
      w.ref? = none ∨ ∃ s, s < 8 ∧ w = .ofRef ⟨s, 0⟩ := by decide +kernel
  have hsame : ∀ w, (w.ref? = none ∨ ∃ s, s < 8 ∧ w = .ofRef ⟨s, 0⟩) →
      (new config).selfLink.Same w w := by
    rintro w (hw | ⟨s, hs, rfl⟩)
    · exact .immediate hw
    · exact .block (l := (new config).selfLink) ⟨rfl, Nat.zero_le s, hs⟩
  apply (new_counted config).matched_self (fun w hw => hsame w (hroots w (mem_rootWords_new hw)))
  intro s b hb w hw
  have hmem := List.mem_of_getElem? (Array.getElem?_toList ▸ (blockAt?_eq_some_iff.1 hb).2)
  exact hsame w (hfields b hmem w hw)

theorem new_alike (config : Config) (minorWords : Nat) (stress : Bool) :
    Alike (new config) (new (config.paced minorWords stress)) [] [] :=
  ⟨_, (new_matched config).paced minorWords stress, .nil⟩

end Heap

namespace Strategy

variable {c : Strategy} {e e' : Nat → Nat} {s t : Usage} {m n : Nat} {f : Fault}

theorem run_succ_of_none (hs : (c.run e s n).2 = none) : c.run e s (n + 1) = c.run e s n := by
  have hr : c.run e s n = ((c.run e s n).1, none) := Prod.ext rfl hs
  rw [run, hr]

theorem run_succ_of_some (hs : (c.run e s n).2 = some t) :
    c.run e s (n + 1) = ((c.run e s n).1 ++ [(t.advance (e n) (c (c.run e s n).1)).1],
      (t.advance (e n) (c (c.run e s n).1)).2) := by
  have hr : c.run e s n = ((c.run e s n).1, some t) := Prod.ext rfl hs
  rw [run, hr]

/-- The use has ended once a fault was seen. -/
theorem eq_none_of_fault_mem (hf : .fault f ∈ (c.run e s n).1) : (c.run e s n).2 = none := by
  induction n with
  | zero => simp [run] at hf
  | succ n ih =>
    cases hs : (c.run e s n).2 with
    | none =>
      rw [run_succ_of_none hs]
      exact hs
    | some t =>
      rw [run_succ_of_some hs] at hf ⊢
      rcases List.mem_append.1 hf with hf | hf
      · simp [ih hf] at hs
      · exact Usage.advance_eq_none_of_fault (List.mem_singleton.1 hf).symm

/-- A fault that is seen after the heap was still in use comes last. -/
theorem eq_fault_of_mem {o : Observation} (hs : (c.run e s n).2 = some t)
    (hf : .fault f ∈ (c.run e s n).1 ++ [o]) : o = .fault f := by
  rcases List.mem_append.1 hf with hf | hf
  · simp [eq_none_of_fault_mem hf] at hs
  · exact (List.mem_singleton.1 hf).symm

theorem length_run_le (c : Strategy) (e : Nat → Nat) (s : Usage) (n : Nat) :
    (c.run e s n).1.length ≤ n := by
  induction n with
  | zero => exact Nat.le_refl 0
  | succ n ih =>
    cases hs : (c.run e s n).2 with
    | none =>
      rw [run_succ_of_none hs]
      omega
    | some t =>
      rw [run_succ_of_some hs, List.length_append, List.length_singleton]
      omega

theorem length_run_of_some (hs : (c.run e s n).2 = some t) : (c.run e s n).1.length = n := by
  induction n generalizing t with
  | zero => rfl
  | succ n ih =>
    cases hn : (c.run e s n).2 with
    | none =>
      rw [run_succ_of_none hn, hn] at hs
      cases hs
    | some t' => rw [run_succ_of_some hn, List.length_append, List.length_singleton, ih hn]

/-- A longer run begins as the shorter one. -/
theorem take_run (hmn : m ≤ n) : (c.run e s n).1.take m = (c.run e s m).1 := by
  induction n, hmn using Nat.le_induction with
  | base => exact List.take_of_length_le (length_run_le c e s m)
  | succ n hmn ih =>
    cases hs : (c.run e s n).2 with
    | none => rw [run_succ_of_none hs, ih]
    | some t =>
      have hlen := length_run_of_some hs
      rw [run_succ_of_some hs, List.take_append_of_le_length (by omega), ih]

/-- Whether a sum overflows in one of the first `n` requests. -/
def Overflows (c : Strategy) (e : Nat → Nat) (s : Usage) (n : Nat) : Prop :=
  ∃ m < n, ∃ t, (c.run e s m).2 = some t ∧ t.Overflows (e m) (c (c.run e s m).1)

/-- Runs give the same observations as long as the faults that the schedule brings about come at the
same requests. -/
theorem run_alike (ha : s.Alike t) (hf : ∀ m ≤ n, ∀ f, f.isScheduled = true →
      (.fault f ∈ (c.run e s m).1 ↔ .fault f ∈ (c.run e' t m).1)) :
    (c.run e s n).1 = (c.run e' t n).1 ∧
      Option.Rel Usage.Alike (c.run e s n).2 (c.run e' t n).2 := by
  induction n with
  | zero => exact ⟨rfl, .some ha⟩
  | succ n ih =>
    obtain ⟨hseen, hleft⟩ := ih fun m hm => hf m (by omega)
    cases hs : (c.run e s n).2 with
    | none =>
      cases ht : (c.run e' t n).2 with
      | none =>
        rw [run_succ_of_none hs, run_succ_of_none ht, hs, ht]
        exact ⟨hseen, .none⟩
      | some t' =>
        rw [hs, ht] at hleft
        cases hleft
    | some s' =>
      cases ht : (c.run e' t n).2 with
      | none =>
        rw [hs, ht] at hleft
        cases hleft
      | some t' =>
        rw [hs, ht] at hleft
        -- neither run has seen a fault yet, so one seen after `n + 1` requests is its last
        have hlast := hf (n + 1) (Nat.le_refl _)
        rw [run_succ_of_some hs, run_succ_of_some ht] at hlast ⊢
        have hstep : ∀ f, f.isScheduled = true →
            ((s'.advance (e n) (c (c.run e s n).1)).1 = .fault f ↔
              (t'.advance (e' n) (c (c.run e' t n).1)).1 = .fault f) := by
          intro f hf
          constructor
          · intro ho
            exact eq_fault_of_mem ht ((hlast f hf).1 (by simp [ho]))
          · intro ho
            exact eq_fault_of_mem hs ((hlast f hf).2 (by simp [ho]))
        rw [← hseen] at hstep ⊢
        obtain ⟨ho, hrel⟩ := (Option.rel_some_some.1 hleft).advance_eq hstep
        exact ⟨congrArg (fun o => _ ++ [o]) ho, hrel⟩

theorem overflow_mem_run_iff (ha : s.Alike s) :
    .fault .sizeOverflow ∈ (c.run e s n).1 ↔ c.Overflows e s n := by
  induction n with
  | zero => simp [run, Overflows]
  | succ n ih =>
    have hsplit : c.Overflows e s (n + 1) ↔ c.Overflows e s n ∨
        ∃ t, (c.run e s n).2 = some t ∧ t.Overflows (e n) (c (c.run e s n).1) := by
      simp only [Overflows, Nat.lt_succ_iff_lt_or_eq, or_and_right, exists_or, exists_eq_left]
    rw [hsplit, ← ih]
    cases hs : (c.run e s n).2 with
    | none => simp [run_succ_of_none hs]
    | some t =>
      have hself : Option.Rel Usage.Alike (c.run e s n).2 (c.run e s n).2 :=
        (run_alike ha fun _ _ _ _ => Iff.rfl).2
      rw [hs] at hself
      simp [run_succ_of_some hs, ← Usage.advance_eq_overflow_iff (Option.rel_some_some.1 hself),
        eq_comm]

/-- Runs that start alike give the same observations exactly if sums overflow and slots run out at
the same requests. -/
theorem run_eq_iff (ha : s.Alike t) (hs : s.Alike s) (ht : t.Alike t) :
    (c.run e s n).1 = (c.run e' t n).1 ↔ ∀ m ≤ n, (c.Overflows e s m ↔ c.Overflows e' t m) ∧
      ∀ f, f.isExhaustion = true → (.fault f ∈ (c.run e s m).1 ↔ .fault f ∈ (c.run e' t m).1) := by
  constructor
  · intro heq m hm
    have hshort : (c.run e s m).1 = (c.run e' t m).1 := by
      rw [← take_run hm, heq, take_run hm]
    rw [← overflow_mem_run_iff hs, ← overflow_mem_run_iff ht, hshort]
    exact ⟨Iff.rfl, fun _ _ => Iff.rfl⟩
  · intro hstop
    refine (run_alike ha fun m hm f hf => ?_).1
    by_cases ho : f = .sizeOverflow
    · subst ho
      rw [overflow_mem_run_iff hs, overflow_mem_run_iff ht]
      exact (hstop m hm).1
    · exact (hstop m hm).2 f (by cases f <;> simp_all [Fault.isScheduled, Fault.isExhaustion])

/-- The pace of collections, and any further collections, go unobserved as long as slots last,
unless the size of a blank block overflows a sum of one run at an earlier request than it does in
the other. -/
theorem observe_eq_iff (c : Strategy) (config : Config) (minorWords : Nat) (stress : Bool)
    (extra extra' : Nat → Nat) (n : Nat) :
    c.observe config extra n = c.observe (config.paced minorWords stress) extra' n ↔
      ∀ m ≤ n, (c.Overflows extra { heap := .new config } m ↔
          c.Overflows extra' { heap := .new (config.paced minorWords stress) } m) ∧
        ∀ f, f.isExhaustion = true → (.fault f ∈ c.observe config extra m ↔
          .fault f ∈ c.observe (config.paced minorWords stress) extra' m) :=
  run_eq_iff ⟨Heap.new_alike config minorWords stress, rfl⟩ ⟨⟨_, Heap.new_matched _, .nil⟩, rfl⟩
    ⟨⟨_, Heap.new_matched _, .nil⟩, rfl⟩

/-- Forgets a block of 50 fields and then asks for more fields than can be added up. -/
def greedy : Strategy := fun seen =>
  [.allocFields .tuple 50, .forget, .allocFields .tuple 18446744073709551560].getD seen.length
    .forget

/-- A sum overflows where, after a collection, the limit would have refused the block. -/
theorem observe_greedy_ne :
    greedy.observe { tuning := { maxWords := some 1000 } } (fun _ => 0) 3 ≠
      greedy.observe (Config.paced { tuning := { maxWords := some 1000 } } 262144 true)
        (fun _ => 0) 3 := by decide +kernel

end Strategy
end MovingHeap

import MovingHeap.Proofs.Schedule.Agreement
import MovingHeap.Proofs.Schedule.Reading

/-!
Allocations agree. Whether memory is wanting is decided by what the roots reach, and not by what is
there: a heap that seems full collects first.
-/
namespace MovingHeap

theorem Fault.isScheduled_of_isExhaustion {f : Fault} (hf : f.isExhaustion = true) :
    f.isScheduled = true := by
  cases f <;> first | rfl | exact hf

namespace Heap

variable {h k h' : Heap} {vs ws : List Word}

/-- Whether `words` more words would be beyond the limit if nothing unreachable were left. -/
def overcommits (h : Heap) (words : Nat) : Bool :=
  h.config.tuning.maxWords.any fun most => most < h.rootedWords + words

theorem exceedsLimit_of_collect (hr : h.collect = .ok h') (words : Nat) :
    h'.exceedsLimit words = h.overcommits words := by
  obtain ⟨rfl, -⟩ := collect_eq_ok_iff.1 hr
  rw [exceedsLimit, overcommits, config_moved, liveWords_moved]

theorem overcommits_eq_false (hc : h.Counted) {words : Nat} (he : h.exceedsLimit words = false) :
    h.overcommits words = false := by
  have hle := h.rootedWords_le
  rw [← hc.live] at hle
  unfold exceedsLimit at he
  unfold overcommits
  cases hmax : h.config.tuning.maxWords with
  | none => rfl
  | some most =>
    simp only [hmax, Option.any_some, decide_eq_false_iff_not] at he ⊢
    omega

theorem Alike.overcommits_eq (ha : Alike h k vs ws) (words : Nat) :
    h.overcommits words = k.overcommits words := by
  obtain ⟨l, hm, -⟩ := ha
  rw [overcommits, overcommits, hm.maxWords, hm.rootedWords_eq]

theorem Alike.outOfMemory (ha : Alike h k vs ws) :
    h.outOfMemory.form = k.outOfMemory.form ∧
      Alike h k h.outOfMemory.words k.outOfMemory.words := by
  obtain ⟨l, hm, -⟩ := ha
  exact ⟨hm.outOfMemory.1, l, hm, hm.outOfMemory.2⟩

end Heap

namespace Mutator

/-- Making room leaves the heap, or collects it, and then a limit is exceeded exactly if what the
roots reach is too much. -/
theorem makeRoom_cases {h : Heap} (hc : h.Counted) (words : Nat) :
    IsScheduled (makeRoom words h) ∨ ∃ h', makeRoom words h = .ok () h' ∧
      (h' = h ∨ h.collect = .ok h') ∧ h'.exceedsLimit words = h.overcommits words := by
  unfold makeRoom update
  by_cases hcond : (h.isOverBudget words || h.exceedsLimit words) = true
  · simp only [if_pos hcond]
    cases hr : h.collect with
    | error f =>
      have hf := Fault.isScheduled_of_isExhaustion (Heap.isExhaustion_of_collect hr)
      exact .inl ⟨f, h, rfl, hf⟩
    | ok h' => exact .inr ⟨h', rfl, .inr rfl, Heap.exceedsLimit_of_collect hr words⟩
  · simp only [if_neg hcond]
    have he : h.exceedsLimit words = false := by
      cases he : h.exceedsLimit words <;> simp_all
    exact .inr ⟨h, rfl, .inl rfl, by rw [he, Heap.overcommits_eq_false hc he]⟩

namespace Agrees

open Heap (Alike)

variable {vs ws : List Word}

theorem makeRoom (words : Nat) :
    Agrees (Alike · · vs ws) (Mutator.makeRoom words) (Mutator.makeRoom words) fun _ _ h k =>
      Alike h k [] [] ∧ h.exceedsLimit words = k.exceedsLimit words := by
  rintro h k ha
  have hover := ha.overcommits_eq words
  obtain ⟨l, hm, -⟩ := ha.forget
  rcases makeRoom_cases hm.countedLeft words with hs | ⟨h', hh, hleft, he⟩
  · exact .inl hs
  rcases makeRoom_cases hm.countedRight words with hs | ⟨k', hk, hright, ke⟩
  · exact .inr (.inl hs)
  refine .inr (.inr ?_)
  rw [hh, hk]
  refine .ok ⟨?_, by rw [he, ke, hover]⟩
  have ha' : Alike h' k [] [] := by
    rcases hleft with rfl | hr
    · exact ha.forget
    · exact ha.collect_left hr
  rcases hright with rfl | hr
  · exact ha'
  · exact ha'.collect_right hr

theorem checkLimit (words : Nat) :
    Agrees (fun h k => Alike h k [] [] ∧ h.exceedsLimit words = k.exceedsLimit words)
      (Mutator.checkLimit words) (Mutator.checkLimit words) fun _ _ h k => Alike h k [] [] := by
  rintro h k ⟨ha, he⟩
  refine .inr (.inr ?_)
  unfold Mutator.checkLimit
  rw [he]
  by_cases hk : k.exceedsLimit words = true
  · rw [if_pos hk, if_pos hk]
    exact .raise ha.outOfMemory.1 ha.outOfMemory.2
  · rw [if_neg hk, if_neg hk]
    exact .ok ha

theorem reserve (words : Nat) :
    Agrees (Alike · · vs ws) (Mutator.reserve words) (Mutator.reserve words) fun _ _ h k =>
      Alike h k [] [] := (makeRoom words).bind fun _ _ => checkLimit words

theorem push {b c : Block} :
    Agrees (fun h k => ∃ l, Heap.Matched l h k ∧ l.SameBlock b c) (Mutator.push b) (Mutator.push c)
      fun v w h k => Alike h k [v] [w] := by
  rintro h k ⟨l, hm, hbc⟩
  unfold Mutator.push
  by_cases hn : maxSlot < h.next
  · exact .inl ⟨.slotsExhausted, h, by rw [if_pos hn], rfl⟩
  by_cases kn : maxSlot < k.next
  · exact .inr (.inl ⟨.slotsExhausted, k, by rw [if_pos kn], rfl⟩)
  rw [if_neg hn, if_neg kn]
  have hm' := hm.place hbc (Nat.not_lt.1 hn) (Nat.not_lt.1 kn)
  exact .inr (.inr (.ok ⟨_, hm', .cons (hm.same_place b c) .nil⟩))

variable {α β : Type} {P : Heap → Heap → Prop}

/-- Held words come back as they have moved. -/
theorem holding (words : Nat) :
    Agrees (Alike · · vs ws) (Mutator.holding vs (Mutator.reserve words))
      (Mutator.holding ws (Mutator.reserve words)) fun as bs h k => Alike h k as bs := by
  rintro h k ⟨l, hm, hs⟩
  have hlen := hm.roots.length_eq
  have hheld : Alike { h with roots := h.roots ++ vs } { k with roots := k.roots ++ ws } [] [] :=
    ⟨l, hm.withRoots (List.rel_append hm.roots hs), .nil⟩
  have hr := reserve words _ _ hheld
  unfold Mutator.holding
  rcases hr with ⟨f, h', hr, hf⟩ | ⟨f, k', hr, hf⟩ | hr
  · exact .inl ⟨f, _, by rw [hr], hf⟩
  · exact .inr (.inl ⟨f, _, by rw [hr], hf⟩)
  · generalize Mutator.reserve words { h with roots := h.roots ++ vs } = x at hr ⊢
    generalize Mutator.reserve words { k with roots := k.roots ++ ws } = y at hr ⊢
    refine .inr (.inr ?_)
    rw [hlen]
    cases hr with
    | ok ha =>
      obtain ⟨l', hm', -⟩ := ha
      refine .ok ⟨l', hm'.withRoots ?_, List.forall₂_drop _ hm'.roots⟩
      exact List.forall₂_take _ hm'.roots
    | raise hf ha => exact .raise hf (ha.truncateRoots _)
    | fault f h k => exact .fault f _ _

theorem frame {m : Mutator α} {n : Mutator β} {R : α → β → Heap → Heap → Prop}
    (hm : Agrees (Alike · · vs ws) m n R)
    (hr : ∀ a b h k i, R a b h k → R a b (h.truncateRoots i) (k.truncateRoots i)) :
    Agrees (Alike · · vs ws) (Mutator.frame m) (Mutator.frame n) R := by
  rintro h k ha
  have hlen : h.roots.length = k.roots.length := by
    obtain ⟨l, hm, -⟩ := ha
    exact hm.roots.length_eq
  unfold Mutator.frame
  rcases hm h k ha with ⟨f, h', hx, hf⟩ | ⟨f, k', hx, hf⟩ | hx
  · exact .inl ⟨f, _, by rw [hx], hf⟩
  · exact .inr (.inl ⟨f, _, by rw [hx], hf⟩)
  · generalize m h = x at hx ⊢
    generalize n k = y at hx ⊢
    refine .inr (.inr ?_)
    rw [hlen]
    cases hx with
    | ok h₁ => exact .ok (hr _ _ _ _ _ h₁)
    | raise hf ha => exact .raise hf (ha.truncateRoots _)
    | fault f h k => exact .fault f _ _

theorem allocString (bytes : Bytes) :
    Agrees (Alike · · vs ws) (Mutator.allocString bytes) (Mutator.allocString bytes) fun v w h k =>
      Alike h k [v] [w] := by
  refine (reserve _).bind fun _ _ => push.strengthen ?_
  rintro h k ⟨l, hm, -⟩
  exact ⟨l, hm, rfl, rfl, .nil⟩

theorem allocTuple (hlen : vs.length = ws.length) :
    Agrees (Alike · · vs ws) (Mutator.allocTuple vs) (Mutator.allocTuple ws) fun v w h k =>
      Alike h k [v] [w] := by
  unfold Mutator.allocTuple
  rw [hlen]
  refine (holding _).bind fun as bs => push.strengthen ?_
  rintro h k ⟨l, hm, hs⟩
  exact ⟨l, hm, rfl, rfl, hs⟩

theorem allocSome {v w : Word} :
    Agrees (Alike · · [v] [w]) (Mutator.allocSome v) (Mutator.allocSome w) fun v w h k =>
      Alike h k [v] [w] := by
  have hlen : [v].length = [w].length := rfl
  exact allocTuple hlen

theorem root {v w : Word} :
    Agrees (Alike · · (v :: vs) (w :: ws)) (Mutator.root v) (Mutator.root w) fun r q h k =>
      r = q ∧ Alike h k vs ws := by
  rintro h k ⟨l, hm, hs⟩
  obtain ⟨hvw, hs⟩ := List.forall₂_cons.1 hs
  refine .inr (.inr (.ok ⟨congrArg Root.mk hm.roots.length_eq, l, ?_, hs⟩))
  exact hm.withRoots (List.rel_append hm.roots (.cons hvw .nil))

theorem readRoot (l : Link) (r : Root) :
    Agrees (Heap.Matched l) (Mutator.read (·.rootValue r)) (Mutator.read (·.rootValue r))
      fun v w h k => Heap.Matched l h k ∧ l.Same v w := by
  apply read
  intro h k hm
  have hx := hm.rootValue r
  generalize h.rootValue r = x at hx
  generalize k.rootValue r = y at hx
  cases hx with
  | error e => exact .error e
  | ok hvw => exact .ok ⟨hm, hvw⟩

theorem readRoots (l : Link) (rs : List Root) :
    Agrees (Heap.Matched l) (rs.mapM fun r => Mutator.read (·.rootValue r))
      (rs.mapM fun r => Mutator.read (·.rootValue r)) fun vs ws h k =>
        Heap.Matched l h k ∧ List.Forall₂ l.Same vs ws := by
  induction rs with
  | nil => exact pure fun _ _ hm => ⟨hm, .nil⟩
  | cons r rs ih =>
    rw [List.mapM_cons]
    refine (readRoot l r).bind fun v w => given fun hvw => ih.bind fun vs ws => pure ?_
    exact fun h k hs => ⟨hs.1, .cons hvw hs.2⟩

/-- A computation that agrees with itself, for each item of a list. -/
theorem mapM {f : α → Mutator β} (hf : ∀ a, Agrees (Alike · · [] []) (f a) (f a) fun b c h k =>
    b = c ∧ Alike h k [] []) (as : List α) :
    Agrees (Alike · · [] []) (as.mapM f) (as.mapM f) fun bs cs h k =>
      bs = cs ∧ Alike h k [] [] := by
  induction as with
  | nil => exact pure fun _ _ ha => ⟨rfl, ha⟩
  | cons a as ih =>
    rw [List.mapM_cons]
    apply (hf a).bind
    intro b c
    refine (given (P := (Alike · · [] [])) fun hbc => ih.bind fun bs cs => ?_).strengthen
      fun h k hp => ⟨hp.2, hp.1⟩
    exact pure fun h k hp => ⟨by rw [hbc, hp.1], hp.2⟩

theorem allocStringArray (items : List Bytes) :
    Agrees (Alike · · vs ws) (Mutator.allocStringArray items) (Mutator.allocStringArray items)
      fun v w h k => Alike h k [v] [w] := by
  refine frame ?_ fun _ _ _ _ i ha => ha.truncateRoots i
  have hroots := mapM (fun bytes => (allocString bytes).bind fun v w => root) items
  refine (hroots.bind fun rs qs => ?_).strengthen fun h k ha => ha.forget
  refine (given (P := (Alike · · [] [])) fun hrs => ?_).strengthen fun h k hp => ⟨hp.2, hp.1⟩
  subst hrs
  refine (anyLink fun l => ((readRoots l rs).strengthen fun h k hp => hp.1).bind fun us xs => ?_)
  refine (given fun hs => ?_)
  exact (allocTuple hs.length_eq).strengthen fun h k hm => ⟨l, hm, hs⟩

theorem allocIdentity (name : String) :
    Agrees (Alike · · vs ws) (Mutator.allocIdentity name) (Mutator.allocIdentity name)
      fun v w h k => Alike h k [v] [w] := by
  refine (allocString _).bind fun text text' => (holding 3).bind fun held held' => ?_
  apply get_bind
  intro h₀ k₀ ha
  have hpush : Agrees (fun h k => h = h₀ ∧ k = k₀)
      (Mutator.push (.object (held ++ [.ofInt h₀.nextIdentity])))
      (Mutator.push (.object (held' ++ [.ofInt k₀.nextIdentity])))
      fun v w h k => Alike h k [v] [w] := by
    refine push.strengthen ?_
    rintro h k ⟨rfl, rfl⟩
    obtain ⟨l, hm, hs⟩ := ha
    refine ⟨l, hm, rfl, rfl, List.rel_append hs (.cons ?_ .nil)⟩
    rw [Heap.nextIdentity, Heap.nextIdentity, hm.identities]
    exact .ofInt _
  apply hpush.bind
  intro v w
  rintro h k ⟨l, hm, hs⟩
  exact .inr (.inr (.ok ⟨l, hm.count, hs⟩))

theorem noteRaise (traced : Bool) {v w : Word} :
    Agrees (Alike · · [v] [w]) (Mutator.noteRaise traced v) (Mutator.noteRaise traced w)
      fun _ _ h k => Alike h k [v] [w] := by
  rintro h k ⟨l, hm, hs⟩
  obtain ⟨hvw, -⟩ := List.forall₂_cons.1 hs
  have ha : Alike h k [v] [w] := ⟨l, hm, hs⟩
  rw [noteRaise_apply, noteRaise_apply, hm.exceptionName hvw]
  split
  · cases k.exceptionName w with
    | ok => exact .inr (.inr (.ok ha))
    | error f => exact .inr (.inr (.fault f h k))
  · exact .inr (.inr (.ok ha))

theorem raiseTwo {traced : Bool} {a b c a' b' c' : Word} {R : α → β → Heap → Heap → Prop} :
    Agrees (Alike · · [a, b, c] [a', b', c']) (Mutator.raiseTwo traced a b c)
      (Mutator.raiseTwo traced a' b' c') R := by
  have hlen : [a, b, c].length = [a', b', c'].length := rfl
  refine (allocTuple hlen).bind fun v w => (noteRaise traced).bind fun _ _ => ?_
  exact raise (r := .record v) (q := .record w) fun _ _ ha => ⟨rfl, ha⟩

theorem allocMessage (which : Builtin) (message : Bytes) :
    Agrees (Alike · · vs ws) (Mutator.allocMessage which message)
      (Mutator.allocMessage which message) fun v w h k => Alike h k [v] [w] := by
  refine (allocString _).bind fun text text' => (holding 3).bind fun held held' => ?_
  refine get_bind fun h₀ k₀ ha => push.strengthen ?_
  rintro h k ⟨rfl, rfl⟩
  obtain ⟨l, hm, hs⟩ := ha
  exact ⟨l, hm, rfl, rfl, .cons (hm.builtins which) hs⟩

theorem orOutOfMemory {m n : Mutator Word} (hm : Agrees P m n fun v w h k => Alike h k [v] [w]) :
    Agrees P (Mutator.orOutOfMemory m) (Mutator.orOutOfMemory n) fun v w h k =>
      Alike h k [v] [w] := by
  intro h k hp
  rw [orOutOfMemory_apply, orOutOfMemory_apply]
  rcases hm h k hp with ⟨f, h', hr, hf⟩ | ⟨f, k', hr, hf⟩ | hr
  · exact .inl ⟨f, h', by rw [hr], hf⟩
  · exact .inr (.inl ⟨f, k', by rw [hr], hf⟩)
  · generalize m h = x at hr ⊢
    generalize n k = y at hr ⊢
    refine .inr (.inr ?_)
    cases hr with
    | ok ha => exact .ok ha
    | fault f h k => exact .fault f h k
    | @raise r q h k hf ha =>
      have hbuiltin : Alike h k [h.builtin .outOfMemory] [k.builtin .outOfMemory] := by
        obtain ⟨l, hm, -⟩ := ha
        exact ⟨l, hm, .cons (hm.builtins _) .nil⟩
      cases r <;> cases q <;> simp only [Raise.form, reduceCtorEq] at hf
      · exact .ok ha
      · exact .ok ha
      · exact .ok hbuiltin
      · exact .ok hbuiltin

theorem realize {r q : Raise} (hf : r.form = q.form) :
    Agrees (Alike · · r.words q.words) (Mutator.realize r) (Mutator.realize q) fun v w h k =>
      Alike h k [v] [w] := by
  cases r <;> cases q <;> simp only [Raise.form, reduceCtorEq] at hf
  · exact pure fun _ _ ha => ha
  · exact pure fun _ _ ha => ha
  · obtain rfl := Raise.failure.inj hf
    exact orOutOfMemory (allocMessage _ _)
  · obtain rfl := Raise.invalidArgument.inj hf
    exact orOutOfMemory (allocMessage _ _)

/-- A blank block is refused alike, unless its size overflows a sum in one of the runs. -/
theorem allocFields (tag : Tag) (size : Nat) :
    Agrees (Alike · · vs ws) (Mutator.allocFields tag size) (Mutator.allocFields tag size)
      fun v w h k => Alike h k [v] [w] := by
  have hsum : ∀ h : Heap, checkLimitSum (size + 1) h = .ok () h ∨
      ∃ f, checkLimitSum (size + 1) h = .error (.fault f) h ∧ f.isScheduled = true := by
    intro h
    unfold checkLimitSum
    split
    · exact .inr ⟨.sizeOverflow, rfl, rfl⟩
    · exact .inl rfl
  have hbudget : ∀ h : Heap, checkBudgetSum (size + 1) h = .ok () h ∨
      ∃ f, checkBudgetSum (size + 1) h = .error (.fault f) h ∧ f.isScheduled = true := by
    intro h
    unfold checkBudgetSum
    split
    · exact .inr ⟨.sizeOverflow, rfl, rfl⟩
    · split
      · exact .inl rfl
      · exact hsum h
  refine (refuse _ _).bind fun _ _ => (test hbudget).bind fun _ _ => (makeRoom _).bind fun _ _ =>
    (test hsum).bind fun _ _ => (checkLimit _).bind fun _ _ => (refuse _ _).bind fun _ _ => ?_
  refine push.strengthen fun h k ⟨l, hm, _⟩ => ⟨l, hm, rfl, rfl, ?_⟩
  have hunit : ∀ w ∈ (blank tag size).fields, l.Same w w := by
    intro w hw
    rw [eq_unit_of_mem_blank hw]
    exact .ofInt 0
  exact List.forall₂_same.2 hunit

end Agrees
end Mutator
end MovingHeap

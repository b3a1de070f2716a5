import MovingHeap.Proofs.Mutator.Exhaustion
import MovingHeap.Proofs.Schedule.Change

/-!
Computations that agree: run on matching heaps, each with its own settings, they end alike and leave
matching heaps behind. Only faults that depend on when a heap collects are left open.
-/
namespace MovingHeap

/-- Whether a fault depends on when the heap has collected: slots run out, or the words to be added
up are too many. -/
def Fault.isScheduled : Fault → Bool
  | sizeOverflow => true
  | f => f.isExhaustion

namespace Heap

/-- Two heaps that match, along a link under which the words `vs` and `ws` are the same. -/
def Alike (h k : Heap) (vs ws : List Word) : Prop := ∃ l, Matched l h k ∧ List.Forall₂ l.Same vs ws

namespace Alike

variable {h k : Heap} {vs ws : List Word}

theorem symm (ha : Alike h k vs ws) : Alike k h ws vs := by
  obtain ⟨l, hm, hs⟩ := ha
  exact ⟨l.symm, hm.symm, Link.forall₂_symm hs⟩

theorem forget (ha : Alike h k vs ws) : Alike h k [] [] := by
  obtain ⟨l, hm, -⟩ := ha
  exact ⟨l, hm, .nil⟩

theorem collect_left (ha : Alike h k vs ws) {h' : Heap} (hr : h.collect = .ok h') :
    Alike h' k [] [] := by
  obtain ⟨l, hm, -⟩ := ha
  exact ⟨_, hm.collect_left hr, .nil⟩

theorem collect_right (ha : Alike h k vs ws) {k' : Heap} (hr : k.collect = .ok k') :
    Alike h k' [] [] := (ha.symm.collect_left hr).symm

theorem truncateRoots (ha : Alike h k vs ws) (n : Nat) :
    Alike (h.truncateRoots n) (k.truncateRoots n) vs ws := by
  obtain ⟨l, hm, hs⟩ := ha
  exact ⟨l, hm.withRoots (List.forall₂_take n hm.roots), hs⟩

end Alike
end Heap

namespace Mutator

variable {α β γ δ : Type}

/-- A run that ends in a fault which depends on when the heap has collected. -/
def IsScheduled (x : EStateM.Result Stop Heap α) : Prop :=
  ∃ f h, x = .error (.fault f) h ∧ f.isScheduled = true

/-- Two runs end alike: with results that satisfy `R`, with the same raise, or with the same fault.
-/
inductive Correspond (R : α → β → Heap → Heap → Prop) :
    EStateM.Result Stop Heap α → EStateM.Result Stop Heap β → Prop
  | ok {a : α} {b : β} {h k : Heap} : R a b h k → Correspond R (.ok a h) (.ok b k)
  | raise {r q : Raise} {h k : Heap} : r.form = q.form → h.Alike k r.words q.words →
    Correspond R (.error (.raise r) h) (.error (.raise q) k)
  | fault (f : Fault) (h k : Heap) : Correspond R (.error (.fault f) h) (.error (.fault f) k)

/-- From heaps with `P`, the two computations end alike, unless the schedule of one stops it. -/
def Agrees (P : Heap → Heap → Prop) (m : Mutator α) (n : Mutator β)
    (R : α → β → Heap → Heap → Prop) : Prop :=
  ∀ h k : Heap, P h k → IsScheduled (m h) ∨ IsScheduled (n k) ∨ Correspond R (m h) (n k)

namespace Agrees

variable {P P' : Heap → Heap → Prop} {m : Mutator α} {n : Mutator β}
  {R R' : α → β → Heap → Heap → Prop} {T : γ → δ → Heap → Heap → Prop}

theorem pure {a : α} {b : β} (hp : ∀ h k, P h k → R a b h k) :
    Agrees P (Pure.pure a) (Pure.pure b) R := fun h k h₀ => .inr (.inr (.ok (hp h k h₀)))

theorem bind {f : α → Mutator γ} {g : β → Mutator δ} (hm : Agrees P m n R)
    (hk : ∀ a b, Agrees (R a b) (f a) (g b) T) : Agrees P (m >>= f) (n >>= g) T := by
  intro h k hp
  rw [bind_apply, bind_apply]
  rcases hm h k hp with ⟨c, h', hr, hc⟩ | ⟨c, k', hr, hc⟩ | hr
  · exact .inl ⟨c, h', by rw [hr], hc⟩
  · exact .inr (.inl ⟨c, k', by rw [hr], hc⟩)
  · generalize m h = x at hr ⊢
    generalize n k = y at hr ⊢
    cases hr with
    | ok hr => exact hk _ _ _ _ hr
    | raise hf ha => exact .inr (.inr (.raise hf ha))
    | fault f h k => exact .inr (.inr (.fault f h k))

theorem weaken (hm : Agrees P m n R) (hp : ∀ h k, P' h k → P h k)
    (hr : ∀ a b h k, R a b h k → R' a b h k) : Agrees P' m n R' := by
  intro h k h₀
  rcases hm h k (hp h k h₀) with hs | hs | hc
  · exact .inl hs
  · exact .inr (.inl hs)
  · refine .inr (.inr ?_)
    generalize m h = x at hc
    generalize n k = y at hc
    cases hc with
    | ok h₁ => exact .ok (hr _ _ _ _ h₁)
    | raise hf ha => exact .raise hf ha
    | fault f h k => exact .fault f h k

theorem strengthen (hm : Agrees P m n R) (hp : ∀ h k, P' h k → P h k) : Agrees P' m n R :=
  hm.weaken hp fun _ _ _ _ hr => hr

theorem anyLink {P : Link → Heap → Heap → Prop} (hm : ∀ l, Agrees (P l) m n R) :
    Agrees (fun h k => ∃ l, P l h k) m n R := fun h k ⟨l, hp⟩ => hm l h k hp

/-- What holds whatever the heaps are may be taken as given. -/
theorem given {p : Prop} (hm : p → Agrees P m n R) : Agrees (fun h k => P h k ∧ p) m n R :=
  fun h k hp => hm hp.2 h k hp.1

theorem get_bind {f : Heap → Mutator α} {g : Heap → Mutator β}
    (hm : ∀ h k, P h k → Agrees (fun h' k' => h' = h ∧ k' = k) (f h) (g k) R) :
    Agrees P (get >>= f) (get >>= g) R := fun h k hp => hm h k hp h k ⟨rfl, rfl⟩

theorem raise {r q : Raise} (hp : ∀ h k, P h k → r.form = q.form ∧ h.Alike k r.words q.words) :
    Agrees P (Mutator.raise r : Mutator α) (Mutator.raise q : Mutator β) R :=
  fun h k h₀ => .inr (.inr (.raise (hp h k h₀).1 (hp h k h₀).2))

theorem read {f : Heap → Except Fault α} {g : Heap → Except Fault β}
    (hr : ∀ h k, P h k → Except.Rel (R · · h k) (f h) (g k)) :
    Agrees P (Mutator.read f) (Mutator.read g) R := by
  intro h k hp
  have hx := hr h k hp
  refine .inr (.inr ?_)
  unfold Mutator.read
  generalize f h = x at hx
  generalize g k = y at hx
  cases hx with
  | error e => exact .fault e h k
  | ok hab => exact .ok hab

theorem update {f g : Heap → Except Fault Heap} {Q : Heap → Heap → Prop}
    (hr : ∀ h k, P h k → Except.Rel Q (f h) (g k)) :
    Agrees P (Mutator.update f) (Mutator.update g) fun _ _ => Q := by
  intro h k hp
  have hx := hr h k hp
  refine .inr (.inr ?_)
  unfold Mutator.update
  generalize f h = x at hx
  generalize g k = y at hx
  cases hx with
  | error e => exact .fault e h k
  | ok hq => exact .ok hq

/-- A test that passes or stops with a fault that the schedule brings about. -/
theorem test {m : Mutator Unit}
    (ht : ∀ h, m h = .ok () h ∨ ∃ f, m h = .error (.fault f) h ∧ f.isScheduled = true) :
    Agrees P m m fun _ _ => P := by
  intro h k hp
  rcases ht h with hh | ⟨f, hh, hf⟩
  · rcases ht k with hk | ⟨f, hk, hf⟩
    · rw [hh, hk]
      exact .inr (.inr (.ok hp))
    · exact .inr (.inl ⟨f, k, hk, hf⟩)
  · exact .inl ⟨f, h, hh, hf⟩

theorem refuse (c : Prop) [Decidable c] (f : Fault) :
    Agrees P (Mutator.refuse c f) (Mutator.refuse c f) fun _ _ => P := by
  intro h k hp
  refine .inr (.inr ?_)
  unfold Mutator.refuse
  split
  · exact .fault f h k
  · exact .ok hp

end Agrees
end Mutator
end MovingHeap

import MovingHeap.Proofs.Schedule.Allocation
import MovingHeap.Proofs.Schedule.Strategy

/-!
Requests made of matching heaps for the same held words. Main statement: they agree, and what is
held afterwards is the same again.
-/
namespace MovingHeap

theorem Argument.same {l : Link} {vs ws : List Word} (hs : List.Forall₂ l.Same vs ws)
    (x : Argument) : l.Same (x.word vs) (x.word ws) := by
  cases x with
  | int n => exact .ofInt n
  | held i =>
    have hlen := hs.length_eq
    simp only [word]
    by_cases hi : i < vs.length
    · have hj : i < ws.length := hlen ▸ hi
      rw [List.getElem?_eq_getElem hi, List.getElem?_eq_getElem hj]
      exact hs.get hi hj
    · rw [List.getElem?_eq_none (by omega), List.getElem?_eq_none (by omega)]
      exact .ofInt 0

namespace Request

open Heap (Alike Matched)
open Mutator (Agrees)

variable {vs ws : List Word} {m n : Mutator (Fact × List Word)} {f g : Mutator Word}

/-- The same facts, and words that are held as the same along with those that are kept. -/
def SameAnswer (vs ws : List Word) (a b : Fact × List Word) (h k : Heap) : Prop :=
  a.1 = b.1 ∧ Alike h k (vs ++ a.2) (ws ++ b.2)

/-- An allocation forgets what was held. -/
theorem fresh {P : Heap → Heap → Prop} (hm : Agrees P f g fun v w h k => Alike h k [v] [w]) :
    Agrees P (do return (Fact.none, [← f])) (do return (Fact.none, [← g])) (SameAnswer [] []) :=
  hm.bind fun _ _ => Agrees.pure fun _ _ ha => ⟨rfl, ha⟩

/-- A request that does not allocate keeps the link, and so what was held. -/
theorem steady (hm : ∀ l, List.Forall₂ l.Same vs ws → Agrees (Matched l) m n fun a b h k =>
      a.1 = b.1 ∧ Matched l h k ∧ List.Forall₂ l.Same a.2 b.2) :
    Agrees (Alike · · vs ws) m n (SameAnswer vs ws) := by
  refine Agrees.anyLink fun l => Agrees.given fun hs => (hm l hs).weaken (fun _ _ hm => hm) ?_
  exact fun a b h k hr => ⟨hr.1, l, hr.2.1, List.rel_append hs hr.2.2⟩

theorem agrees_update {F G : Heap → Except Fault Heap} (hr : ∀ l, List.Forall₂ l.Same vs ws →
      ∀ h k, Matched l h k → Except.Rel (Matched l) (F h) (G k)) :
    Agrees (Alike · · vs ws) (do Mutator.update F; return (Fact.none, []))
      (do Mutator.update G; return (Fact.none, [])) (SameAnswer vs ws) :=
  steady fun l hs => (Agrees.update (hr l hs)).bind fun _ _ =>
    Agrees.pure fun _ _ hm => ⟨rfl, hm, .nil⟩

theorem agrees_modify {F G : Heap → Heap} (hr : ∀ l, List.Forall₂ l.Same vs ws →
      ∀ h k, Matched l h k → Matched l (F h) (G k)) :
    Agrees (Alike · · vs ws) (do modify F; return (Fact.none, []))
      (do modify G; return (Fact.none, [])) (SameAnswer vs ws) :=
  steady fun l hs h k hm => .inr (.inr (.ok ⟨rfl, hr l hs h k hm, .nil⟩))

theorem agrees_read {F G : Heap → Except Fault (Fact × List Word)}
    (hr : ∀ l, List.Forall₂ l.Same vs ws → ∀ h k, Matched l h k →
      Except.Rel (fun a b => a.1 = b.1 ∧ List.Forall₂ l.Same a.2 b.2) (F h) (G k)) :
    Agrees (Alike · · vs ws) (Mutator.read F) (Mutator.read G) (SameAnswer vs ws) := by
  refine steady fun l hs => Agrees.read fun h k hm => ?_
  have hx := hr l hs h k hm
  generalize F h = x at hx
  generalize G k = y at hx
  cases hx with
  | error e => exact .error e
  | ok hab => exact .ok ⟨hab.1, hm, hab.2⟩

/-- Reads one word. -/
theorem agrees_readWord {F G : Heap → Except Fault Word} (hr : ∀ l, List.Forall₂ l.Same vs ws →
      ∀ h k, Matched l h k → Except.Rel l.Same (F h) (G k)) :
    Agrees (Alike · · vs ws) (Mutator.read fun h => do return (Fact.none, [← F h]))
      (Mutator.read fun h => do return (Fact.none, [← G h])) (SameAnswer vs ws) :=
  agrees_read fun l hs h k hm => (hr l hs h k hm).bind fun _ _ hvw => .ok ⟨rfl, .cons hvw .nil⟩

/-- Reads what is no word. -/
theorem agrees_readFact {α : Type} {F G : Heap → Except Fault α} (fact : α → Fact)
    (hr : ∀ l, List.Forall₂ l.Same vs ws → ∀ h k, Matched l h k → F h = G k) :
    Agrees (Alike · · vs ws) (Mutator.read fun h => do return (fact (← F h), []))
      (Mutator.read fun h => do return (fact (← G h), [])) (SameAnswer vs ws) := by
  apply agrees_read
  intro l hs h k hm
  rw [hr l hs h k hm]
  cases G k with
  | error e => exact .error e
  | ok a => exact .ok ⟨rfl, .nil⟩

theorem rel_toList {R : Word → Word → Prop} {o p : Option Word} (hr : Option.Rel R o p) :
    List.Forall₂ R o.toList p.toList := by
  cases hr with
  | none => exact .nil
  | some hvw => exact .cons hvw .nil

theorem same_map {l : Link} (hs : List.Forall₂ l.Same vs ws) (xs : List Argument) :
    List.Forall₂ l.Same (xs.map (·.word vs)) (xs.map (·.word ws)) := by
  rw [List.forall₂_map_left_iff, List.forall₂_map_right_iff]
  exact List.forall₂_same.2 fun x _ => x.same hs

/-- Heaps that match for the held words match for the arguments taken from them. -/
theorem alike_arguments {h k : Heap} (ha : Alike h k vs ws) (xs : List Argument) :
    Alike h k (xs.map (·.word vs)) (xs.map (·.word ws)) := by
  obtain ⟨l, hm, hs⟩ := ha
  exact ⟨l, hm, same_map hs xs⟩

theorem agrees_allocating (frames : List Nat) {r : Request} (hr : r.allocates = true) :
    Agrees (Alike · · vs ws) (r.run vs frames) (r.run ws frames) (SameAnswer [] []) := by
  cases r with
  | allocFields t n => exact fresh (.allocFields t n)
  | allocString bs => exact fresh (.allocString bs)
  | allocTuple xs =>
    exact fresh ((Agrees.allocTuple (by simp)).strengthen fun h k ha => alike_arguments ha xs)
  | allocSome x =>
    exact fresh (Agrees.allocSome.strengthen fun h k ha => alike_arguments ha [x])
  | allocStringArray items => exact fresh (.allocStringArray items)
  | allocIdentity name => exact fresh (.allocIdentity name)
  | raiseTwo traced identity first second =>
    exact Agrees.raiseTwo.strengthen fun h k ha => alike_arguments ha [identity, first, second]
  | realize e x =>
    refine fresh ((Agrees.realize ?_).strengthen fun h k ha => ?_)
    · cases e <;> rfl
    · cases e with
      | record | constant => exact alike_arguments ha [x]
      | failure | invalidArgument => exact ha.forget
  | _ => simp [allocates] at hr

theorem agrees_root (x : Argument) :
    Agrees (Alike · · vs ws) (do return (Fact.root (← Mutator.root (x.word vs)), []))
      (do return (Fact.root (← Mutator.root (x.word ws)), [])) (SameAnswer vs ws) := by
  have hroot : Agrees (Alike · · vs ws) (Mutator.root (x.word vs)) (Mutator.root (x.word ws))
      fun r q h k => r = q ∧ Alike h k vs ws :=
    Agrees.root.strengthen fun h k ⟨l, hm, hs⟩ => ⟨l, hm, .cons (x.same hs) hs⟩
  refine hroot.bind fun r q => Agrees.pure fun h k hr => ⟨congrArg Fact.root hr.1, ?_⟩
  simpa using hr.2

/-- Replaces what is registered, and gives back what was registered under the name. -/
theorem agrees_named? (name : Bytes) {F G : Heap → Heap} (hr : ∀ l, List.Forall₂ l.Same vs ws →
      ∀ h k, Matched l h k → Matched l (F h) (G k)) :
    Agrees (Alike · · vs ws)
      (do let old := (← get).named? name; modify F; return (Fact.none, old.toList))
      (do let old := (← get).named? name; modify G; return (Fact.none, old.toList))
      (SameAnswer vs ws) :=
  steady fun l hs h k hm =>
    .inr (.inr (.ok ⟨rfl, hr l hs h k hm, rel_toList (hm.named? name)⟩))

theorem agrees_steady (frames : List Nat) {r : Request} (hr : r.allocates = false)
    (hf : r ≠ .forget) :
    Agrees (Alike · · vs ws) (r.run vs frames) (r.run ws frames) (SameAnswer vs ws) := by
  cases r with
  | allocFields | allocString | allocTuple | allocSome | allocStringArray | allocIdentity | raiseTwo
  | realize => simp [allocates] at hr
  | forget => exact absurd rfl hf
  | raiseOutOfMemory =>
    exact agrees_read fun l hs h k hm =>
      .ok ⟨congrArg Fact.raise hm.outOfMemory.1, hm.outOfMemory.2⟩
  | field x i => exact agrees_readWord fun l hs h k hm => hm.field (x.same hs) i
  | setField x i y => exact agrees_update fun l hs h k hm => hm.setField (x.same hs) (y.same hs) i
  | tag x => exact agrees_readFact Fact.tag fun l hs h k hm => hm.tag (x.same hs)
  | size x => exact agrees_readFact Fact.size fun l hs h k hm => hm.size (x.same hs)
  | bytes x => exact agrees_readFact Fact.bytes fun l hs h k hm => hm.bytes (x.same hs)
  | narrow s x =>
    refine agrees_read fun l hs h k hm => (hm.narrow s (x.same hs)).bind fun a b hab => ?_
    cases hab with
    | error e => exact .ok ⟨rfl, .nil⟩
    | ok hxy => exact .ok ⟨rfl, .cons hxy .nil⟩
  | exceptionName x =>
    exact agrees_readFact Fact.name fun l hs h k hm => hm.exceptionName (x.same hs)
  | exceptionArgs x =>
    exact agrees_read fun l hs h k hm =>
      (hm.exceptionArgs (x.same hs)).bind fun _ _ hab => .ok ⟨rfl, hab⟩
  | root x => exact agrees_root x
  | rootValue r => exact agrees_readWord fun l hs h k hm => hm.rootValue r
  | setRoot r x => exact agrees_update fun l hs h k hm => hm.setRoot r (x.same hs)
  | openFrame => exact Agrees.pure fun h k ha => ⟨rfl, by simpa using ha⟩
  | closeFrame =>
    apply agrees_modify
    intro l hs h k hm
    rw [hm.roots.length_eq]
    exact hm.withRoots (List.forall₂_take _ hm.roots)
  | register name x =>
    exact agrees_named? name fun l hs h k hm =>
      hm.withRegistry (Registry.rel_insertEntry name hm.registry (x.same hs))
  | unregister name =>
    exact agrees_named? name fun l hs h k hm =>
      hm.withRegistry (Registry.rel_eraseEntry name hm.registry)
  | lookup name =>
    have hr : ∀ l, List.Forall₂ l.Same vs ws → ∀ h k, Matched l h k →
        Except.Rel (fun a b => a.1 = b.1 ∧ List.Forall₂ l.Same a.2 b.2)
          (.ok (Fact.none, (h.named? name).toList) : Except Fault _)
          (.ok (Fact.none, (k.named? name).toList)) :=
      fun l hs h k hm => .ok ⟨rfl, rel_toList (hm.named? name)⟩
    exact agrees_read hr
  | named name =>
    apply agrees_read
    intro l hs h k hm
    rcases hm.named name with ⟨r, hr, hh, hk⟩ | ⟨v, w, hh, hk, hvw⟩ <;> rw [hh, hk]
    · exact .ok ⟨rfl, by rw [hr]; exact .nil⟩
    · exact .ok ⟨rfl, .cons hvw .nil⟩
  | park x => exact agrees_modify fun l hs h k hm => hm.withPending (.some (x.same hs))
  | takePending =>
    exact steady fun l hs h k hm =>
      .inr (.inr (.ok ⟨rfl, hm.withPending .none, rel_toList hm.pending⟩))

theorem agrees (frames : List Nat) (r : Request) :
    Agrees (Alike · · vs ws) (r.run vs frames) (r.run ws frames)
      (SameAnswer (r.kept vs) (r.kept ws)) := by
  by_cases hf : r = .forget
  · subst hf
    exact Agrees.pure fun h k ha => ⟨rfl, ha.forget⟩
  · have hkept : ∀ us, r.kept us = if r.allocates then [] else us := by
      intro us
      cases r <;> first | rfl | exact absurd rfl hf
    rw [hkept, hkept]
    cases hr : r.allocates with
    | true => exact agrees_allocating frames hr
    | false => exact agrees_steady frames hr hf

theorem length_kept_eq (hlen : vs.length = ws.length) (r : Request) :
    (r.kept vs).length = (r.kept ws).length := by
  cases r <;> first | rfl | exact hlen

end Request
end MovingHeap

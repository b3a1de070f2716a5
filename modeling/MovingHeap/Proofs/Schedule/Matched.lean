import Mathlib.Data.List.Forall2
import Mathlib.Data.Option.Basic
import MovingHeap.Heap.Named
import MovingHeap.Proofs.Heap.Step

/-!
Heaps that are the same up to where their blocks are. A link pairs slots of one heap with slots of
another; two heaps match along it if paired blocks, and the roots, are the same up to the pairing.
-/
namespace MovingHeap

namespace Except

variable {ε α β γ δ : Type}

/-- The same error, or related results. -/
inductive Rel (R : α → β → Prop) : Except ε α → Except ε β → Prop
  | error (e : ε) : Rel R (.error e) (.error e)
  | ok {a : α} {b : β} : R a b → Rel R (.ok a) (.ok b)

variable {R : α → β → Prop} {T : γ → δ → Prop} {x : Except ε α} {y : Except ε β}

theorem Rel.bind {f : α → Except ε γ} {g : β → Except ε δ} (hx : Rel R x y)
    (hf : ∀ a b, R a b → Rel T (f a) (g b)) : Rel T (x >>= f) (y >>= g) := by
  cases hx with
  | error e => exact .error e
  | ok hab => exact hf _ _ hab

theorem Rel.map {f : α → γ} {g : β → δ} (hx : Rel R x y) (hf : ∀ a b, R a b → T (f a) (g b)) :
    Rel T (f <$> x) (g <$> y) := by
  cases hx with
  | error e => exact .error e
  | ok hab => exact .ok (hf _ _ hab)

theorem Rel.eq {z : Except ε α} (hx : Rel Eq x z) : x = z := by
  cases hx with
  | error e => rfl
  | ok hab => rw [hab]

end Except

/-- A pairing of the slots of two heaps, with the epochs of the heaps. -/
structure Link where
  slots : Nat → Nat → Prop
  left : Nat
  right : Nat

namespace Link

/-- Equal immediates, or references to paired slots. -/
inductive Same (l : Link) : Word → Word → Prop
  | immediate {w : Word} : w.ref? = none → Same l w w
  | block {s t : Nat} : l.slots s t → Same l (.ofRef ⟨s, l.left⟩) (.ofRef ⟨t, l.right⟩)

structure SameBlock (l : Link) (b c : Block) : Prop where
  tag : b.tag = c.tag
  bytes : b.bytes? = c.bytes?
  fields : List.Forall₂ l.Same b.fields c.fields

def symm (l : Link) : Link := ⟨fun t s => l.slots s t, l.right, l.left⟩

variable {l : Link} {v w : Word} {b c : Block}

theorem Same.symm (hs : l.Same v w) : l.symm.Same w v := by
  cases hs with
  | immediate hw => exact .immediate hw
  | block hst => exact .block hst

theorem Same.ofInt (n : Int) : l.Same (.ofInt n) (.ofInt n) := .immediate (Word.ref?_ofInt n)

theorem forall₂_symm {vs ws : List Word} (hs : List.Forall₂ l.Same vs ws) :
    List.Forall₂ l.symm.Same ws vs := by
  induction hs with
  | nil => exact .nil
  | cons hs _ ih => exact .cons hs.symm ih

theorem SameBlock.symm (hb : l.SameBlock b c) : l.symm.SameBlock c b :=
  ⟨hb.tag.symm, hb.bytes.symm, forall₂_symm hb.fields⟩

theorem SameBlock.size (hb : l.SameBlock b c) : b.size = c.size := by
  have ht := hb.tag
  have hbytes := hb.bytes
  have hlen := hb.fields.length_eq
  cases b <;> cases c <;> simp_all [Block.tag, Block.bytes?, Block.fields, Block.size]

theorem SameBlock.words (hb : l.SameBlock b c) : b.words = c.words := by
  rw [Block.words, Block.words, hb.size]

end Link

namespace Heap

/-- The live words are counted right. -/
structure Counted (h : Heap) : Prop extends h.Sound where
  live : h.liveWords = wordsOf h.blocks

/-- Paired slots hold blocks that are the same. -/
structure Paired (l : Link) (h k : Heap) : Prop where
  left : l.left = h.epoch
  right : l.right = k.epoch
  countedLeft : h.Counted
  countedRight : k.Counted
  unique : Relator.BiUnique l.slots
  blocks : ∀ s t, l.slots s t →
    ∃ b c, h.blockAt? s = some b ∧ k.blockAt? t = some c ∧ l.SameBlock b c

/-- Two heaps that differ only in where blocks are, in what is unreachable, and in when they
collect. -/
structure Matched (l : Link) (h k : Heap) : Prop extends Paired l h k where
  roots : List.Forall₂ l.Same h.roots k.roots
  registry :
    List.Forall₂ (fun e f => e.1 = f.1 ∧ l.Same e.2 f.2) h.registry.entries k.registry.entries
  builtins : ∀ b, l.Same (h.builtin b) (k.builtin b)
  pending : Option.Rel l.Same h.pending k.pending
  identities : h.identities = k.identities
  maxWords : h.config.tuning.maxWords = k.config.tuning.maxWords
  messageLimit : h.config.messageLimit = k.config.messageLimit

theorem Counted.congr {h h' : Heap} (hc : h.Counted) (hs : SameStore h h')
    (hl : h'.liveWords = h.liveWords) : h'.Counted where
  epoch_le := hs.epoch ▸ hc.epoch_le
  next_le := by
    unfold next
    rw [hs.start, hs.blocks]
    exact hc.next_le
  live := by rw [hl, hs.blocks, hc.live]

theorem Paired.congr {l : Link} {h h' k k' : Heap} (hp : Paired l h k) (hs : SameStore h h')
    (hl : h'.liveWords = h.liveWords) (ks : SameStore k k') (kl : k'.liveWords = k.liveWords) :
    Paired l h' k' where
  left := hp.left.trans hs.epoch.symm
  right := hp.right.trans ks.epoch.symm
  countedLeft := hp.countedLeft.congr hs hl
  countedRight := hp.countedRight.congr ks kl
  unique := hp.unique
  blocks := by
    intro s t hst
    rw [hs.blockAt?, ks.blockAt?]
    exact hp.blocks s t hst

namespace Matched

variable {l : Link} {h k : Heap} {v w : Word} {s t : Nat}

theorem symm (hm : Matched l h k) : Matched l.symm k h where
  left := hm.right
  right := hm.left
  countedLeft := hm.countedRight
  countedRight := hm.countedLeft
  unique := ⟨fun _ _ _ hs ht => hm.unique.2 hs ht, fun _ _ _ hs ht => hm.unique.1 hs ht⟩
  blocks := by
    intro t s hst
    obtain ⟨b, c, hb, hc, hbc⟩ := hm.blocks s t hst
    exact ⟨c, b, hc, hb, hbc.symm⟩
  roots := Link.forall₂_symm hm.roots
  registry := by
    refine List.Forall₂.flip (hm.registry.imp fun e f hef => ?_)
    exact ⟨hef.1.symm, hef.2.symm⟩
  builtins := fun b => (hm.builtins b).symm
  pending := by
    have hp := hm.pending
    revert hp
    cases h.pending <;> cases k.pending <;> intro hp <;> cases hp
    · exact .none
    · exact .some (Link.Same.symm ‹_›)
  identities := hm.identities.symm
  maxWords := hm.maxWords.symm
  messageLimit := hm.messageLimit.symm

theorem slot?_left (hm : Matched l h k) (hst : l.slots s t) :
    h.slot? (.ofRef ⟨s, l.left⟩) = some s := by
  obtain ⟨b, c, hb, -, -⟩ := hm.blocks s t hst
  obtain ⟨hlo, hhi⟩ := bounds_of_blockAt? hb
  rw [hm.left]
  exact hm.countedLeft.slot?_ofRef hlo hhi

theorem slot?_right (hm : Matched l h k) (hst : l.slots s t) :
    k.slot? (.ofRef ⟨t, l.right⟩) = some t := hm.symm.slot?_left hst

/-- The slots of words that are the same are paired. -/
theorem slot?_rel (hm : Matched l h k) (hs : l.Same v w) :
    Option.Rel l.slots (h.slot? v) (k.slot? w) := by
  cases hs with
  | immediate hw => simp [slot?_of_ref?_eq_none hw]
  | block hst =>
    rw [hm.slot?_left hst, hm.slot?_right hst]
    exact .some hst

/-- Sameness respects equality of words on both sides. -/
theorem eq_iff_eq (hm : Matched l h k) {v' w' : Word} (hs : l.Same v w) (hs' : l.Same v' w') :
    v = v' ↔ w = w' := by
  have href : ∀ {s t : Nat}, l.slots s t → (Word.ofRef ⟨s, l.left⟩).ref? ≠ none ∧
      (Word.ofRef ⟨t, l.right⟩).ref? ≠ none := by
    intro s t hst
    simp [(slot?_eq_some_iff.1 (hm.slot?_left hst)).1, (slot?_eq_some_iff.1 (hm.slot?_right hst)).1]
  cases hs with
  | immediate hw =>
    cases hs' with
    | immediate => rfl
    | block hst =>
      constructor
      · rintro rfl
        exact absurd hw (href hst).1
      · rintro rfl
        exact absurd hw (href hst).2
  | block hst =>
    cases hs' with
    | immediate hw =>
      constructor
      · rintro rfl
        exact absurd hw (href hst).1
      · rintro rfl
        exact absurd hw (href hst).2
    | block hst' =>
      constructor
      · intro he
        have hl := hm.slot?_left hst
        rw [he, hm.slot?_left hst'] at hl
        obtain rfl := Option.some.inj hl
        rw [hm.unique.2 hst hst']
      · intro he
        have hr := hm.slot?_right hst
        rw [he, hm.slot?_right hst'] at hr
        obtain rfl := Option.some.inj hr
        rw [hm.unique.1 hst hst']

theorem builtinWords (hm : Matched l h k) : List.Forall₂ l.Same h.builtins.words k.builtins.words :=
  .cons (hm.builtins .outOfMemory) <| .cons (hm.builtins .failure) <|
    .cons (hm.builtins .invalidArgument) <| .cons (hm.builtins .notFound) .nil

theorem rootWords (hm : Matched l h k) : List.Forall₂ l.Same h.rootWords k.rootWords := by
  have hregistry : List.Forall₂ l.Same h.registry.words k.registry.words := by
    unfold Registry.words
    rw [List.forall₂_map_left_iff, List.forall₂_map_right_iff]
    exact hm.registry.imp fun _ _ hef => hef.2
  have hpending : List.Forall₂ l.Same h.pending.toList k.pending.toList := by
    have hp := hm.pending
    revert hp
    cases h.pending <;> cases k.pending <;> intro hp <;> cases hp
    · exact .nil
    · exact .cons ‹_› .nil
  exact List.rel_append hm.roots <| List.rel_append hregistry <|
    List.rel_append hm.builtinWords hpending

/-- Words that are the same are equal immediates, or refer to blocks that are the same. -/
theorem lookup (hm : Matched l h k) (hs : l.Same v w) :
    (v = w ∧ v.ref? = none) ∨ ∃ p q b c, v.ref? = some p ∧ w.ref? = some q ∧
      h.lookup p = some b ∧ k.lookup q = some c ∧ l.SameBlock b c := by
  cases hs with
  | immediate hw => exact .inl ⟨rfl, hw⟩
  | block hst =>
    obtain ⟨b, c, hb, hc, hbc⟩ := hm.blocks _ _ hst
    have hp := (slot?_eq_some_iff.1 (hm.slot?_left hst)).1
    have hq := (slot?_eq_some_iff.1 (hm.slot?_right hst)).1
    exact .inr ⟨_, _, b, c, hp, hq, hb, hc, hbc⟩

theorem block (hm : Matched l h k) (hs : l.Same v w) :
    Except.Rel (Option.Rel l.SameBlock) (h.block v) (k.block w) := by
  unfold Heap.block
  rcases hm.lookup hs with ⟨rfl, hv⟩ | ⟨p, q, b, c, hp, hq, hb, hc, hbc⟩
  · rw [hv]
    exact .ok .none
  · simp only [hp, hq, resolve_eq_ok_iff.2 hb, resolve_eq_ok_iff.2 hc]
    exact .ok (.some hbc)

end Matched
end Heap
end MovingHeap

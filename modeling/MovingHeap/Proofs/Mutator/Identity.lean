import MovingHeap.Proofs.Mutator.Failure
import MovingHeap.Proofs.Mutator.Message
import MovingHeap.Proofs.Text.Decoding
import MovingHeap.Proofs.Word.Encoding

/-!
The identities of exceptions. Main statement: they are numbered one after the other in the order in
which they are made, so no two of them have the same number, and each is made with its name.
-/
namespace MovingHeap

namespace Mutator

variable {h h' : Heap} {name : String} {message : Bytes} {text exn : Word} {e : Stop}

/-- The identity of a name that is there already, before it is counted. -/
def identifyText (text : Word) : Mutator Word := do
  let held ← holding [text] (reserve 3)
  push (.object (held ++ [.ofInt (← get).nextIdentity]))

theorem uncountedIdentity_eq (name : String) :
    uncountedIdentity name = allocString (Utf8.encode name) >>= identifyText := rfl

theorem identifyText_apply (text : Word) (h : Heap) :
    identifyText text h =
      match holding [text] (reserve 3) h with
      | .ok held h' => push (.object (held ++ [.ofInt h'.nextIdentity])) h'
      | .error e h' => .error e h' := by
  rw [identifyText, bind_apply]
  cases holding [text] (reserve 3) h <;> rfl

theorem identifyText_eq_ok (hc : h.Counted) (htext : h.block text = .ok (some (.string message)))
    (hr : identifyText text h = .ok exn h') :
    ∃ text', h'.block exn = .ok (some (.object [text', .ofInt h.nextIdentity])) ∧
      h'.block text' = .ok (some (.string message)) := by
  rw [identifyText_apply] at hr
  cases hm : holding [text] (reserve 3) h with
  | error => simp [hm] at hr
  | ok held k =>
    simp only [hm] at hr
    obtain ⟨hn, rfl, rfl⟩ := push_eq_ok hr
    obtain ⟨⟨f, φ, text', hk, rfl, -, hstring, -⟩, -⟩ := holding_text_eq_ok hc htext hm
    have hcount : k.identities = h.identities := by
      have hsame := Along.holding Heap.admits_identities.toAdmits
        (Along.reserve Heap.admits_identities.toAdmits 3) [text] h
      rwa [final_eq_of_ok hm] at hsame
    refine ⟨text', ?_, Heap.block_place hstring _⟩
    rw [show h.nextIdentity = k.nextIdentity from congrArg (· + 1) hcount.symm]
    exact (hk.drifts.steps.sound hc.toSound).block_place hn _

theorem allocIdentity_apply (name : String) (h : Heap) :
    allocIdentity name h =
      match uncountedIdentity name h with
      | .ok exn h' => .ok exn { h' with identities := h'.nextIdentity }
      | .error e h' => .error e h' := by
  rw [allocIdentity_eq, bind_apply]
  cases uncountedIdentity name h <;> rfl

theorem identities_uncounted (name : String) (h : Heap) :
    ((uncountedIdentity name).final h).identities = h.identities :=
  Along.uncountedIdentity Heap.admits_identities.toAdmits name h

/-- A number is used up only where an identity has been made. -/
theorem allocIdentity_eq_error (hr : allocIdentity name h = .error e h') :
    h'.identities = h.identities := by
  have hsame := identities_uncounted name h
  rw [allocIdentity_apply] at hr
  cases hu : uncountedIdentity name h with
  | ok => simp [hu] at hr
  | error e' k =>
    simp only [hu, EStateM.Result.error.injEq] at hr
    obtain ⟨-, rfl⟩ := hr
    rwa [final_eq_of_error hu] at hsame

theorem allocIdentity_eq_ok (hc : h.Counted) (hr : allocIdentity name h = .ok exn h') :
    h'.identities = h.nextIdentity ∧
      ∃ text, h'.block exn = .ok (some (.object [text, .ofInt h.nextIdentity])) ∧
        h'.block text = .ok (some (.string (Utf8.encode name))) := by
  have hsame := identities_uncounted name h
  rw [allocIdentity_apply] at hr
  cases hu : uncountedIdentity name h with
  | error => simp [hu] at hr
  | ok exn' k =>
    simp only [hu, EStateM.Result.ok.injEq] at hr
    obtain ⟨rfl, rfl⟩ := hr
    rw [final_eq_of_ok hu] at hsame
    rw [uncountedIdentity_eq, bind_apply] at hu
    cases hs : allocString (Utf8.encode name) h with
    | error => simp [hs] at hu
    | ok text h₁ =>
      simp only [hs] at hu
      obtain ⟨-, -, hc₁, -, htext, -⟩ := keeps_of_allocString hc hs
      obtain ⟨text', hexn, htext'⟩ := identifyText_eq_ok hc₁ htext hu
      have hcount : h₁.identities = h.identities := by
        have hstring := Along.allocString Heap.admits_identities.toAdmits (Utf8.encode name) h
        rwa [final_eq_of_ok hs] at hstring
      rw [Heap.nextIdentity, hcount] at hexn
      refine ⟨congrArg (· + 1) hsame, text', ?_, ?_⟩
      · exact Heap.SameStore.block_eq ⟨rfl, rfl, rfl⟩ hexn
      · exact Heap.SameStore.block_eq ⟨rfl, rfl, rfl⟩ htext'

end Mutator

/-- The number in the identity that `w` refers to, which is its second field. -/
def Heap.numberOf (h : Heap) (w : Word) : Except Fault Word := h.field w 1

namespace Operation

/-- The numbers of the identities that the operation makes, as they are when it is done. -/
def numbers (o : Operation) (h : Heap) : List (Except Fault Word) :=
  match o with
  | allocIdentity name =>
    match Mutator.allocIdentity name h with
    | .ok exn h' => [h'.numberOf exn]
    | .error _ _ => []
  | _ => []

/-- Nothing but a new identity is counted. -/
theorem identities_after {o : Operation} (ho : ∀ name, o ≠ allocIdentity name) (h : Heap) :
    (o.after h).identities = h.identities := by
  by_cases ha : o.allocates = true
  · exact after_along Heap.admits_identities (fun name he => absurd he (ho name)) ha h
  · obtain ⟨_, _, _, _, he⟩ := exists_after_eq (Bool.eq_false_iff.2 ha) h
    rw [he]

end Operation

namespace Heap

variable {h h' : Heap} {config : Config} {os : List Operation}

/-- The immediate of each number. -/
def numerals (ns : List Nat) : List (Except Fault Word) := ns.map fun n : Nat => .ok (.ofInt n)

theorem numerals_append (ms ns : List Nat) : numerals (ms ++ ns) = numerals ms ++ numerals ns :=
  List.map_append

/-- Numbers that fit into what an immediate keeps have different immediates. -/
theorem nodup_numerals {m n : Nat} (hn : m + n ≤ 0x8000000000000000) :
    (numerals (List.range' m n)).Nodup := by
  refine List.Nodup.map_on (fun a ha b hb he => ?_) List.nodup_range'
  have hnumbers := Word.ofInt_eq_iff.1 (Except.ok.inj he)
  simp only [List.mem_range'_1] at ha hb
  omega

/-- The numbers of the identities that operations make, one after the other. -/
def numbers : List Operation → Heap → List (Except Fault Word)
  | [], _ => []
  | o :: os, h => o.numbers h ++ numbers os (o.after h)

/-- The numbers of the identities that every heap is made with. -/
def firstNumbers (config : Config) : List (Except Fault Word) :=
  [.outOfMemory, .failure, .invalidArgument, .notFound].map fun b : Builtin =>
    (Heap.new config).numberOf ((Heap.new config).builtin b)

theorem firstNumbers_eq (config : Config) : firstNumbers config = numerals (List.range' 1 4) := by
  have hnumber (b : Builtin) : (new config).numberOf ((new config).builtin b) =
      .ok (.ofInt (b.ctorIdx + 1 : Nat)) := by
    rw [numberOf, field_of_block (identity_new config b).1]
    rfl
  simp only [firstNumbers, List.map_cons, List.map_nil, hnumber]
  rfl

theorem numberOf_allocIdentity {name : String} {exn : Word} (hc : h.Counted)
    (hr : Mutator.allocIdentity name h = .ok exn h') :
    h'.numberOf exn = .ok (.ofInt h.nextIdentity) := by
  obtain ⟨-, text, hexn, -⟩ := Mutator.allocIdentity_eq_ok hc hr
  rw [numberOf, field_of_block hexn]
  rfl

/-- An operation makes at most one identity, and takes the next number for it. -/
theorem numbers_after (hc : h.Counted) (o : Operation) :
    ∃ n, (o.after h).identities = h.identities + n ∧
      o.numbers h = numerals (List.range' (h.identities + 1) n) := by
  by_cases ho : ∃ name, o = .allocIdentity name
  · obtain ⟨name, rfl⟩ := ho
    cases hr : Mutator.allocIdentity name h with
    | ok exn h' =>
      refine ⟨1, ?_, ?_⟩
      · rw [Operation.after_of_ok (Operation.run_of_word rfl hr)]
        exact (Mutator.allocIdentity_eq_ok hc hr).1
      · simp only [Operation.numbers, hr, numberOf_allocIdentity hc hr]
        rfl
    | error e h' =>
      refine ⟨0, ?_, ?_⟩
      · rcases (Operation.allocIdentity name).after_eq_self_or_final h with he | he
        · rw [he, Nat.add_zero]
        · have hfinal : (Operation.allocIdentity name).run.final h = h' :=
            (Mutator.final_bind_return _ _ h).trans (Mutator.final_eq_of_error hr)
          rw [he, hfinal]
          exact Mutator.allocIdentity_eq_error hr
      · simp only [Operation.numbers, hr]
        rfl
  · have hother : ∀ name, o ≠ .allocIdentity name := fun name he => ho ⟨name, he⟩
    refine ⟨0, Operation.identities_after hother h, ?_⟩
    cases o with
    | allocIdentity name => exact absurd rfl (hother name)
    | _ => rfl

theorem numbers_perform (hr : Reachable config h) (os : List Operation) :
    ∃ n, (h.perform os).identities = h.identities + n ∧
      numbers os h = numerals (List.range' (h.identities + 1) n) := by
  induction os generalizing h with
  | nil => exact ⟨0, rfl, rfl⟩
  | cons o os ih =>
    obtain ⟨m, hm, hfirst⟩ := numbers_after hr.counted o
    obtain ⟨n, hn, hrest⟩ := ih (hr.after o)
    refine ⟨m + n, ?_, ?_⟩
    · exact hn.trans (by omega)
    · rw [numbers, hfirst, hrest, hm, ← numerals_append, Nat.add_right_comm, List.range'_append_1]

/-- The identities that a run makes, those of the builtins before all others, are numbered from one
on without a gap, and as long as a number has 63 bits no two of them have the same. Where no
identity is made no number is used up; and one that is made has its name and is an exception without
arguments, whatever has been collected meanwhile. -/
theorem identities_numbered (config : Config) (os : List Operation) :
    let h := (new config).perform os
    firstNumbers config ++ numbers os (new config) = numerals (List.range' 1 h.identities) ∧
    (h.identities < 0x8000000000000000 →
      (firstNumbers config ++ numbers os (new config)).Nodup) ∧
    ∀ name : String,
      (∀ e h', Mutator.allocIdentity name h = .error e h' → h'.identities = h.identities) ∧
      ∀ exn h', Mutator.allocIdentity name h = .ok exn h' →
        h'.identities = h.identities + 1 ∧ h'.isCurrent exn = true ∧
        (∃ text, h'.block exn = .ok (some (.object [text, .ofInt (h.identities + 1)])) ∧
          h'.block text = .ok (some (.string (Utf8.encode name)))) ∧
        h'.exceptionName exn = .ok (some name) ∧ h'.exceptionArgs exn = .ok [] := by
  intro h
  have hnumbers : firstNumbers config ++ numbers os (new config) =
      numerals (List.range' 1 h.identities) := by
    obtain ⟨n, hn, hnumbers⟩ := numbers_perform (.new : Reachable config _) os
    have hfirst : (new config).identities = 4 := rfl
    rw [hfirst] at hn hnumbers
    rw [firstNumbers_eq, hnumbers, ← numerals_append, hn]
    exact congrArg numerals List.range'_append_1
  refine ⟨hnumbers, fun hlt => ?_, fun name => ⟨fun e h' hr => ?_, fun exn h' hr => ?_⟩⟩
  · rw [hnumbers]
    exact nodup_numerals (by omega)
  · exact Mutator.allocIdentity_eq_error hr
  · have hc := (Reachable.new.perform os : Reachable config h).counted
    obtain ⟨hcount, text, hexn, htext⟩ := Mutator.allocIdentity_eq_ok hc hr
    have hbears : h'.BearsName exn (Utf8.encode name) := ⟨exn, text, _, ⟨hexn, .inl rfl⟩, htext⟩
    refine ⟨hcount, isCurrent_of_block hexn, ⟨text, hexn, htext⟩, ?_, exceptionArgs_of_object hexn⟩
    rw [hbears.exceptionName, Utf8.lossy_encode]

/-- Every allocation collects. -/
def unresting : Config := { tuning := { stress := true } }

/-- After one identity in the run, another is made: its name moves when the block for the identity
makes room, and it gets the number after. -/
theorem identities_numbered_unresting :
    let h := (new unresting).perform [.allocIdentity "Exit"]
    h.identities = 5 ∧
      (firstNumbers unresting ++ numbers [.allocIdentity "Exit"] (new unresting)).Nodup ∧
      ∃ exn h', Mutator.allocIdentity "End" h = .ok exn h' ∧ h'.collections = h.collections + 2 ∧
        h'.identities = 6 ∧ h'.isCurrent exn = true ∧ h'.exceptionName exn = .ok (some "End") ∧
        h'.exceptionArgs exn = .ok [] := by
  intro h
  have hfive : h.identities = 5 := by decide +kernel
  have hrun : Mutator.succeedsWith (Mutator.allocIdentity "End")
      (fun _ h' => h'.collections == h.collections + 2) h = true := by decide +kernel
  obtain ⟨exn, h', hr, hcollections⟩ := Mutator.succeedsWith_iff.1 hrun
  obtain ⟨-, hdistinct, hnamed⟩ := identities_numbered unresting [.allocIdentity "Exit"]
  obtain ⟨hcount, hcurrent, -, hname, hargs⟩ := (hnamed "End").2 exn h' hr
  have hsix : h'.identities = 6 := hcount.trans (congrArg (· + 1) hfive)
  have hsmall : h.identities < 0x8000000000000000 := by
    rw [hfive]
    decide
  exact ⟨hfive, hdistinct hsmall, exn, h', hr, beq_iff_eq.1 hcollections, hsix, hcurrent, hname,
    hargs⟩

end Heap
end MovingHeap

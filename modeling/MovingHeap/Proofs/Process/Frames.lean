import MovingHeap.Proofs.Heap.Carried
import MovingHeap.Proofs.Mutator.Failure
import MovingHeap.Proofs.Process.Trusted

/-!
Frames of roots, opened and dropped in any nesting, with anything else that is done to a heap in
between. Main statement: a handle of an open frame gives the word that was last stored under it, as
the collections have relocated it since, and a frame that is dropped takes with it the roots that
were pushed inside and no others.
-/
namespace MovingHeap

/-- A word that was stored under a handle, and the heap right after that. -/
structure Deposit where
  handle : Root
  word : Word
  heap : Heap

/-- An open frame: how many roots there were when it was opened, and what was last stored under each
of its handles. -/
structure Frame where
  start : Nat
  deposits : List Deposit := []

namespace Frame

def push (F : Frame) (ds : List Deposit) : Frame := { F with deposits := F.deposits ++ ds }

/-- The frame after something was stored under a handle, which may be one of another frame. -/
def store (d : Deposit) (F : Frame) : Frame :=
  { F with deposits := F.deposits.map fun e => if e.handle = d.handle then d else e }

theorem handle_store (d : Deposit) (F : Frame) :
    (F.store d).deposits.map Deposit.handle = F.deposits.map Deposit.handle := by
  rw [store, List.map_map]
  apply List.map_congr_left
  intro e _
  by_cases he : e.handle = d.handle <;> simp [he]

end Frame

/-- Whether the operation pushes, overwrites or drops roots. -/
def Operation.usesRoots : Operation → Bool
  | root _ | setRoot _ _ | dropRoots _ => true
  | _ => false

/-- The runs from `h`, with the frames that are open at their ends, innermost first. An operation
that raises has been done like any other; the frames that the raise leaves are dropped next. -/
inductive FrameRun (h : Heap) : List Frame → Heap → Prop
  | start : FrameRun h [] h
  | enter {fs : List Frame} {k : Heap} : FrameRun h fs k → FrameRun h (⟨k.roots.length, []⟩ :: fs) k
  | leave {F : Frame} {fs : List Frame} {k : Heap} :
    FrameRun h (F :: fs) k → FrameRun h fs (k.truncateRoots F.start)
  | root {F : Frame} {fs : List Frame} {k k' : Heap} {r : Root} (w : Word) :
    FrameRun h (F :: fs) k → Mutator.root w k = .ok r k' →
      FrameRun h (F.push [⟨r, w, k'⟩] :: fs) k'
  | rootAll {F : Frame} {fs : List Frame} {k k' : Heap} {rs : List Root} (ws : List Word) :
    FrameRun h (F :: fs) k → ws.mapM Mutator.root k = .ok rs k' →
      FrameRun h (F.push ((rs.zip ws).map fun (r, w) => ⟨r, w, k'⟩) :: fs) k'
  | set {fs : List Frame} {k k' : Heap} (r : Root) (w : Word) :
    FrameRun h fs k → k.setRoot r w = .ok k' → FrameRun h (fs.map (Frame.store ⟨r, w, k'⟩)) k'
  | operation {fs : List Frame} {k : Heap} (o : Operation) :
    FrameRun h fs k → o.usesRoots = false → FrameRun h fs (o.after k)

variable {h k k' : Heap} {F : Frame} {fs inner outer : List Frame} {d : Deposit}
  {bottom top : Nat}

/-- The handles of open frames number the roots from `bottom` up to `top`, frame after frame. -/
def Stacked (bottom : Nat) : List Frame → Nat → Prop
  | [], top => top = bottom
  | F :: fs, top => Stacked bottom fs F.start ∧ top = F.start + F.deposits.length ∧
      F.deposits.map Deposit.handle = (List.range' F.start F.deposits.length).map Root.mk

namespace Stacked

theorem bounds (hs : Stacked bottom fs top) : bottom ≤ top ∧
    ∀ F ∈ fs, ∀ d ∈ F.deposits, bottom ≤ d.handle.index ∧ d.handle.index < top := by
  induction fs generalizing top with
  | nil => exact ⟨Nat.le_of_eq hs.symm, by simp⟩
  | cons F fs ih =>
    obtain ⟨houter, rfl, hhandles⟩ := hs
    obtain ⟨hle, hbelow⟩ := ih houter
    refine ⟨by omega, fun F' hF d hd => ?_⟩
    rcases List.mem_cons.1 hF with rfl | hF
    · have hmem := List.mem_map_of_mem (f := Deposit.handle) hd
      rw [hhandles, List.mem_map] at hmem
      obtain ⟨i, hi, hd'⟩ := hmem
      rw [List.mem_range'_1] at hi
      rw [← hd']
      change bottom ≤ i ∧ i < _
      omega
    · have hd' := hbelow F' hF d hd
      omega

theorem nodup (hs : Stacked bottom fs top) :
    ((fs.flatMap Frame.deposits).map Deposit.handle).Nodup := by
  induction fs generalizing top with
  | nil => exact List.nodup_nil
  | cons F fs ih =>
    obtain ⟨houter, -, hhandles⟩ := hs
    rw [List.flatMap_cons, List.map_append, hhandles]
    have hinj : Function.Injective Root.mk := fun i j he => congrArg Root.index he
    refine List.Nodup.append ((List.nodup_range' 1).map hinj) (ih houter) ?_
    intro r hr hr'
    obtain ⟨i, hi, rfl⟩ := List.mem_map.1 hr
    obtain ⟨d, hd, hdi⟩ := List.mem_map.1 hr'
    obtain ⟨F', hF, hd⟩ := List.mem_flatMap.1 hd
    have hlt := (houter.bounds.2 F' hF d hd).2
    rw [hdi] at hlt
    exact Nat.not_lt.2 (List.mem_range'_1.1 hi).1 hlt

/-- The roots above the start of a frame are its own and those of the frames inside. -/
theorem top_eq (hs : Stacked bottom (inner ++ F :: outer) top) :
    top = F.start + ((inner ++ [F]).flatMap Frame.deposits).length := by
  induction inner generalizing top with
  | nil => simpa using hs.2.1
  | cons G inner ih =>
    obtain ⟨houter, rfl, -⟩ := hs
    have hstart := ih houter
    rw [List.cons_append, List.flatMap_cons, List.length_append]
    omega

theorem push {ds : List Deposit} (hs : Stacked bottom (F :: fs) top)
    (hds : ds.map Deposit.handle = (List.range' top ds.length).map Root.mk) :
    Stacked bottom (F.push ds :: fs) (top + ds.length) := by
  obtain ⟨houter, rfl, hhandles⟩ := hs
  refine ⟨houter, ?_, ?_⟩
  · rw [Frame.push, List.length_append, Nat.add_assoc]
  · rw [Frame.push, List.map_append, hhandles, hds, List.length_append, ← List.map_append,
      ← List.range'_append_1]

theorem store (d : Deposit) (hs : Stacked bottom fs top) :
    Stacked bottom (fs.map (Frame.store d)) top := by
  induction fs generalizing top with
  | nil => exact hs
  | cons F fs ih =>
    obtain ⟨houter, htop, hhandles⟩ := hs
    have hlen : (F.store d).deposits.length = F.deposits.length := List.length_map _
    refine ⟨ih houter, ?_, ?_⟩
    · rw [hlen, htop]
      rfl
    · rw [Frame.handle_store, hlen, hhandles]
      rfl

end Stacked

/-- Rooting words one after the other pushes them in order. -/
theorem Mutator.mapM_root (ws : List Word) (k : Heap) :
    ws.mapM Mutator.root k =
      .ok ((List.range' k.roots.length ws.length).map Root.mk) (k.hold ws) := by
  induction ws generalizing k with
  | nil => simp [Heap.hold, pure, EStateM.pure]
  | cons w ws ih =>
    have hroot : Mutator.root w k = .ok ⟨k.roots.length⟩ (k.hold [w]) := rfl
    have hlen : (k.hold [w]).roots.length = k.roots.length + 1 := by simp [Heap.hold]
    have hhold : (k.hold [w]).hold ws = k.hold (w :: ws) := by simp [Heap.hold]
    rw [List.mapM_cons, bind_apply, hroot]
    change (ws.mapM Mutator.root >>= fun rs => pure (⟨k.roots.length⟩ :: rs)) (k.hold [w]) = _
    rw [bind_apply, ih, hlen, hhold]
    rfl

/-- The frames describe the roots of `k` from `bottom` on: each of their words is still in its
place, relocated. -/
structure Faithful (bottom : Nat) (fs : List Frame) (k : Heap) : Prop where
  stacked : Stacked bottom fs k.roots.length
  current : ∀ F ∈ fs, ∀ d ∈ F.deposits, ∃ w, Heap.Becomes d.handle.index d.heap d.word k w

namespace Faithful

theorem carry (hf : Faithful bottom fs k) (hc : Heap.CarriesRoots k k')
    (hlen : k'.roots.length = k.roots.length) : Faithful bottom fs k' where
  stacked := by
    rw [hlen]
    exact hf.stacked
  current := by
    intro F hF d hd
    obtain ⟨w, hw⟩ := hf.current F hF d hd
    obtain ⟨w', hw'⟩ := hc.root _ w hw.root
    exact ⟨w', hw.trans hw'⟩

theorem enter (hf : Faithful bottom fs k) : Faithful bottom (⟨k.roots.length, []⟩ :: fs) k where
  stacked := ⟨hf.stacked, rfl, rfl⟩
  current := by
    intro F hF d hd
    rcases List.mem_cons.1 hF with rfl | hF
    · cases hd
    · exact hf.current F hF d hd

theorem leave (hf : Faithful bottom (F :: fs) k) : Faithful bottom fs (k.truncateRoots F.start) where
  stacked := by
    obtain ⟨houter, htop, -⟩ := hf.stacked
    rw [Heap.roots_truncateRoots, List.length_take_of_le (by omega)]
    exact houter
  current := by
    intro F' hF d hd
    obtain ⟨w, hw⟩ := hf.current F' (List.mem_cons_of_mem _ hF) d hd
    have hlt := (hf.stacked.1.bounds.2 F' hF d hd).2
    refine ⟨w, hw.step (.roots _) rfl ?_⟩
    rw [Heap.roots_truncateRoots, List.getElem?_take_of_lt hlt, hw.root]

theorem push {ws : List Word} {ds : List Deposit} (hf : Faithful bottom (F :: fs) k)
    (hds : ds = (((List.range' k.roots.length ws.length).map Root.mk).zip ws).map
      fun (r, w) => ⟨r, w, k.hold ws⟩) : Faithful bottom (F.push ds :: fs) (k.hold ws) := by
  have hlen : ds.length = ws.length := by simp [hds]
  have htop : (k.hold ws).roots.length = k.roots.length + ds.length := by simp [Heap.hold, hlen]
  have hnew : ∀ d ∈ ds, ∃ w, Heap.Becomes d.handle.index d.heap d.word (k.hold ws) w := by
    intro d hd
    rw [hds, List.mem_map] at hd
    obtain ⟨p, hp, rfl⟩ := hd
    obtain ⟨j, hj, rfl⟩ := List.mem_iff_getElem.1 hp
    have hj' : j < ws.length := by simpa using hj
    refine ⟨_, .refl ?_⟩
    simp [Heap.hold, List.getElem?_append_right, List.getElem?_eq_getElem hj']
  have hold : ∀ G ∈ F :: fs, ∀ d ∈ G.deposits,
      ∃ w, Heap.Becomes d.handle.index d.heap d.word (k.hold ws) w := by
    intro G hG d hd
    obtain ⟨w, hw⟩ := hf.current G hG d hd
    obtain ⟨w', hw'⟩ := (Heap.CarriesRoots.hold k ws).root _ w hw.root
    exact ⟨w', hw.trans hw'⟩
  constructor
  · rw [htop]
    apply hf.stacked.push
    rw [hlen, hds, List.map_map]
    exact List.map_fst_zip (by simp)
  · intro G hG d hd
    rcases List.mem_cons.1 hG with rfl | hG
    · rcases List.mem_append.1 hd with hd | hd
      · exact hold F List.mem_cons_self d hd
      · exact hnew d hd
    · exact hold G (List.mem_cons_of_mem _ hG) d hd

theorem set {r : Root} {w : Word} (hf : Faithful bottom fs k) (hs : k.setRoot r w = .ok k') :
    Faithful bottom (fs.map (Frame.store ⟨r, w, k'⟩)) k' := by
  obtain ⟨hr, rfl⟩ := Heap.setRoot_eq_ok_iff.1 hs
  constructor
  · rw [List.length_set]
    exact hf.stacked.store _
  · intro G hG d hd
    obtain ⟨F, hF, rfl⟩ := List.mem_map.1 hG
    obtain ⟨e, he, rfl⟩ := List.mem_map.1 hd
    obtain ⟨w', hw'⟩ := hf.current F hF e he
    by_cases hn : e.handle = r
    · rw [if_pos hn]
      exact ⟨w, .refl (List.getElem?_set_self hr)⟩
    · have hne : r.index ≠ e.handle.index := fun hi => hn (congrArg Root.mk hi.symm)
      rw [if_neg hn]
      refine ⟨w', hw'.step (.roots _) rfl ?_⟩
      rw [List.getElem?_set_ne hne, hw'.root]

end Faithful

theorem Operation.roots_after {o : Operation} (ho : o.usesRoots = false)
    (hallocates : o.allocates = false) (k : Heap) : (o.after k).roots = k.roots := by
  cases o with
  | setField w i x =>
    obtain ⟨blocks, he⟩ := exists_after_setField w i x k
    rw [he]
  | register | unregister | park | takePending => rfl
  | root | setRoot | dropRoots => cases ho
  | _ => cases hallocates

/-- An operation that does not use the roots itself leaves them in their places. -/
theorem Operation.carriesRoots {o : Operation} (ho : o.usesRoots = false) (h₀ : k.Sound) :
    Heap.CarriesRoots k (o.after k) ∧ (o.after k).roots.length = k.roots.length := by
  by_cases hallocates : o.allocates = true
  · have hcount : ∀ h : Heap, Heap.Carried h { h with identities := h.nextIdentity } :=
      fun h _ => .single .count rfl fun _ _ hw => hw
    exact ⟨o.after_along Heap.admitsFrames_carried (fun _ _ => hcount) hallocates k h₀,
      o.length_roots_after hallocates⟩
  · have hkeeps := Bool.eq_false_iff.2 hallocates
    have hroots := o.roots_after ho hkeeps k
    refine ⟨?_, congrArg List.length hroots⟩
    rcases o.after_eq_or_quiet hkeeps k with he | hq
    · rw [he]
      exact .refl k
    · exact .single hq.step hq.collections fun _ _ hw => hroots ▸ hw

namespace FrameRun

theorem steps (hr : FrameRun h fs k) : h.Steps k := by
  induction hr with
  | start => exact .refl
  | enter _ ih => exact ih
  | leave _ ih => exact ih.tail (.roots _)
  | root w _ hroot ih =>
    obtain ⟨-, rfl⟩ := EStateM.Result.ok.inj hroot
    exact ih.tail (.roots _)
  | rootAll ws _ hroots ih =>
    rw [Mutator.mapM_root] at hroots
    obtain ⟨-, rfl⟩ := EStateM.Result.ok.inj hroots
    exact ih.tail (.roots _)
  | set r w _ hs ih =>
    obtain ⟨-, rfl⟩ := Heap.setRoot_eq_ok_iff.1 hs
    exact ih.tail (.roots _)
  | operation o _ _ ih => exact ih.trans (o.steps_after _)

theorem faithful (h₀ : h.Sound) (hr : FrameRun h fs k) : Faithful h.roots.length fs k := by
  -- One lemma for each event; only operations can collect, and they keep the roots in their places.
  induction hr with
  | start => exact ⟨rfl, by simp⟩
  | enter _ ih => exact ih.enter
  | leave _ ih => exact ih.leave
  | root w _ hroot ih =>
    obtain ⟨rfl, rfl⟩ := EStateM.Result.ok.inj hroot
    exact ih.push rfl
  | rootAll ws _ hroots ih =>
    rw [Mutator.mapM_root] at hroots
    obtain ⟨rfl, rfl⟩ := EStateM.Result.ok.inj hroots
    exact ih.push rfl
  | set r w _ hs ih => exact ih.set hs
  | operation o hr ho ih =>
    obtain ⟨hc, hlen⟩ := Operation.carriesRoots ho (hr.steps.sound h₀)
    exact ih.carry hc hlen

end FrameRun

theorem Mutator.final_frame {α : Type} (body : Mutator α) (k : Heap) :
    (frame body).final k = (body.final k).truncateRoots k.roots.length := by
  unfold final frame
  cases body k <;> rfl

namespace Call

variable {α : Type}

theorem length_roots_attempt (body : Call α) (p : Process) :
    ((attempt body).final p).heap.roots.length = (body.final p).heap.roots.length := by
  unfold final
  rw [attempt_apply]
  cases hb : body p with
  | ok => rfl
  | error e q =>
    cases e with
    | fault => rfl
    | raise r =>
      have hlen := Mutator.Along.realize Heap.admits_rootsLength.toAdmits r q.heap
      unfold Mutator.final at hlen
      cases hr : Mutator.realize r q.heap with
      | ok | error =>
        rw [hr] at hlen
        simpa only [hr] using hlen

theorem length_roots_park (body : Call α) (p : Process) :
    ((park body).final p).heap.roots.length = (body.final p).heap.roots.length := by
  have hlen := length_roots_attempt body p
  unfold final at hlen ⊢
  rw [park_apply]
  cases ha : attempt body p with
  | ok x => cases x <;> rwa [ha] at hlen
  | error => rwa [ha] at hlen

end Call

/-- In a run from a reachable heap, every handle of an open frame gives the word last stored under
it, relocated by the collections since; a word can be stored under it, which changes no other
handle; no two open handles are the same. The length of a frame counts what was pushed since it was
opened and is still there. Dropping the innermost frame leaves as many roots as there were when it
was opened, and the outer handles give what they gave. Allocations and boundaries leave the number
of roots as they found it. -/
theorem handles_of_run {config : Config} (hreach : Heap.Reachable config h)
    (hr : FrameRun h fs k) :
    (∀ F ∈ fs, ∀ d ∈ F.deposits, ∃ w, k.rootValue d.handle = .ok w ∧
      Heap.Becomes d.handle.index d.heap d.word k w) ∧
    (∀ F ∈ fs, ∀ d ∈ F.deposits, ∀ w, ∃ k', k.setRoot d.handle w = .ok k' ∧
      k'.rootValue d.handle = .ok w ∧ ∀ r, r ≠ d.handle → k'.rootValue r = k.rootValue r) ∧
    ((fs.flatMap Frame.deposits).map Deposit.handle).Nodup ∧
    (∀ inner F outer, fs = inner ++ F :: outer →
      k.roots.length - F.start = ((inner ++ [F]).flatMap Frame.deposits).length) ∧
    (∀ F outer, fs = F :: outer → (k.truncateRoots F.start).roots.length = F.start ∧
      ∀ G ∈ outer, ∀ d ∈ G.deposits,
        (k.truncateRoots F.start).rootValue d.handle = k.rootValue d.handle) ∧
    (∀ (α : Type) (body : Mutator α) (F : Frame) (outer : List Frame),
      F.start = k.roots.length → FrameRun h (F :: outer) (body.final k) →
        FrameRun h outer ((Mutator.frame body).final k) ∧
          ((Mutator.frame body).final k).roots.length = k.roots.length) ∧
    (∀ o : Operation, o.allocates = true → (o.run.final k).roots.length = k.roots.length) ∧
    ∀ (α : Type) (body : Call α) (p : Process), p.heap = k → FrameRun k [] (body.final p).heap →
      ((Call.attempt body).final p).heap.roots.length = k.roots.length ∧
        ((Call.park body).final p).heap.roots.length = k.roots.length := by
  have hf := hr.faithful hreach.sound
  have hlive : ∀ F ∈ fs, ∀ d ∈ F.deposits, d.handle.index < k.roots.length :=
    fun F hF d hd => (hf.stacked.bounds.2 F hF d hd).2
  refine ⟨fun F hF d hd => ?_, fun F hF d hd w => ?_, hf.stacked.nodup, ?_, ?_,
    fun α body F outer hstart hbody => ?_, fun o ho => o.length_roots_run ho,
    fun α body p hp hbody => ?_⟩
  · obtain ⟨w, hw⟩ := hf.current F hF d hd
    exact ⟨w, Heap.rootValue_eq_ok_iff.2 hw.root, hw⟩
  · refine ⟨_, Heap.setRoot_eq_ok_iff.2 ⟨hlive F hF d hd, rfl⟩, ?_, fun r hne => ?_⟩
    · exact Heap.rootValue_eq_ok_iff.2 (List.getElem?_set_self (hlive F hF d hd))
    · have hindex : d.handle.index ≠ r.index := fun hi => hne (congrArg Root.mk hi.symm)
      simp only [Heap.rootValue, List.getElem?_set_ne hindex]
  · rintro inner F outer rfl
    have htop := hf.stacked.top_eq
    omega
  · rintro F outer rfl
    have hstart : F.start ≤ k.roots.length := by
      have htop := hf.stacked.2.1
      omega
    refine ⟨List.length_take_of_le hstart, fun G hG d hd => ?_⟩
    have hlt := (hf.stacked.1.bounds.2 G hG d hd).2
    simp only [Heap.rootValue, Heap.roots_truncateRoots, List.getElem?_take_of_lt hlt]
  · have hle := (hbody.faithful hreach.sound).stacked.2.1
    rw [Mutator.final_frame, ← hstart]
    exact ⟨hbody.leave, List.length_take_of_le (by omega)⟩
  · have hlen : (body.final p).heap.roots.length = k.roots.length :=
      (hbody.faithful (hr.steps.sound hreach.sound)).stacked
    rw [Call.length_roots_attempt, Call.length_roots_park]
    exact ⟨hlen, hlen⟩

/-- One string, in a heap that collects before every allocation. -/
def lone : Heap := (Operation.allocString [97]).after (.new Heap.stressed)

/-- The string was rooted in a frame, and a number in a frame inside, which was left by a raise
after another allocation. -/
def escaped : Heap :=
  (Operation.raiseOutOfMemory.after <|
    (Operation.allocString [98]).after (Heap.held.hold [.ofInt 7])).truncateRoots 1

/-- The root of the outer frame has moved. -/
theorem handles_of_run_escaped : Heap.Reachable Heap.stressed lone ∧
    FrameRun lone [⟨0, [⟨⟨0⟩, .ofRef ⟨16, 1⟩, Heap.held⟩]⟩] escaped ∧
    escaped.rootValue ⟨0⟩ = .ok (.ofRef ⟨17, 2⟩) ∧
    Heap.Becomes 0 Heap.held (.ofRef ⟨16, 1⟩) escaped (.ofRef ⟨17, 2⟩) := by
  have hreach : Heap.Reachable Heap.stressed lone := .after _ .new
  have hzero : lone.roots.length = 0 := by decide +kernel
  have hone : Heap.held.roots.length = 1 := by decide +kernel
  have hlast : escaped.roots[0]? = some (.ofRef ⟨17, 2⟩) := by decide +kernel
  have houter : FrameRun lone [⟨0, [⟨⟨0⟩, .ofRef ⟨16, 1⟩, Heap.held⟩]⟩] Heap.held := by
    have hroot := (FrameRun.start.enter (h := lone)).root (.ofRef ⟨16, 1⟩) rfl
    rwa [hzero] at hroot
  have hinner := houter.enter.root (.ofInt 7) rfl
  have hraise := (hinner.operation (.allocString [98]) rfl).operation .raiseOutOfMemory rfl
  have hleft := hraise.leave
  rw [Frame.push, hone] at hleft
  obtain ⟨hvalue, -⟩ := handles_of_run hreach hleft
  obtain ⟨w, hget, hw⟩ := hvalue _ List.mem_cons_self _ List.mem_cons_self
  obtain rfl : .ofRef ⟨17, 2⟩ = w := Option.some.inj (hlast.symm.trans hw.root)
  exact ⟨hreach, hleft, hget, hw⟩

end MovingHeap

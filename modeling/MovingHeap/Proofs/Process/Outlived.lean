import MovingHeap.Proofs.Process.Frames

/-!
Handles that are used after their frame was dropped. A handle is a position on the stack of roots,
and all that is checked is that the stack is high enough. Main statement: such a use is noticed
exactly until another root is pushed at the same position, and from then on it reads and overwrites
that root.
-/
namespace MovingHeap

/-- One event of a run, with the frames that are open before and after. -/
inductive FrameStep : List Frame → Heap → List Frame → Heap → Prop
  | enter (fs : List Frame) (k : Heap) : FrameStep fs k (⟨k.roots.length, []⟩ :: fs) k
  | leave (F : Frame) (fs : List Frame) (k : Heap) :
    FrameStep (F :: fs) k fs (k.truncateRoots F.start)
  | root {F : Frame} {fs : List Frame} {k k' : Heap} {r : Root} (w : Word) :
    Mutator.root w k = .ok r k' → FrameStep (F :: fs) k (F.push [⟨r, w, k'⟩] :: fs) k'
  | rootAll {F : Frame} {fs : List Frame} {k k' : Heap} {rs : List Root} (ws : List Word) :
    ws.mapM Mutator.root k = .ok rs k' →
      FrameStep (F :: fs) k (F.push ((rs.zip ws).map fun (r, w) => ⟨r, w, k'⟩) :: fs) k'
  | set {fs : List Frame} {k k' : Heap} (r : Root) (w : Word) :
    k.setRoot r w = .ok k' → FrameStep fs k (fs.map (Frame.store ⟨r, w, k'⟩)) k'
  | operation (fs : List Frame) (k : Heap) (o : Operation) :
    o.usesRoots = false → FrameStep fs k fs (o.after k)

/-- In a run from `h`, a frame that gave out `r` has been dropped. -/
inductive Outlived (h : Heap) (r : Root) : List Frame → Heap → Prop
  | leave {F : Frame} {fs : List Frame} {k : Heap} {d : Deposit} : FrameRun h (F :: fs) k →
    d ∈ F.deposits → d.handle = r → Outlived h r fs (k.truncateRoots F.start)
  | step {fs gs : List Frame} {k l : Heap} : Outlived h r fs k → FrameStep fs k gs l →
    Outlived h r gs l

/-- Some open frame has the handle `r`. -/
def Root.IsOpen (r : Root) (fs : List Frame) : Prop := ∃ F ∈ fs, ∃ d ∈ F.deposits, d.handle = r

variable {h k l : Heap} {F : Frame} {fs gs : List Frame} {d : Deposit} {r : Root} {bottom top : Nat}

theorem FrameStep.run (hs : FrameStep fs k gs l) (hr : FrameRun h fs k) : FrameRun h gs l := by
  cases hs with
  | enter => exact hr.enter
  | leave => exact hr.leave
  | root w hroot => exact hr.root w hroot
  | rootAll ws hroots => exact hr.rootAll ws hroots
  | set r w hset => exact hr.set r w hset
  | operation _ _ o ho => exact hr.operation o ho

namespace Stacked

/-- Between the bottom and the top, every position has a handle. -/
theorem isOpen_iff (hs : Stacked bottom fs top) :
    r.IsOpen fs ↔ bottom ≤ r.index ∧ r.index < top := by
  constructor
  · rintro ⟨F, hF, d, hd, rfl⟩
    exact hs.bounds.2 F hF d hd
  · rintro ⟨hle, hlt⟩
    induction fs generalizing top with
    | nil =>
      obtain rfl : top = bottom := hs
      omega
    | cons F fs ih =>
      obtain ⟨houter, rfl, hhandles⟩ := hs
      by_cases hin : r.index < F.start
      · obtain ⟨G, hG, hd⟩ := ih houter hin
        exact ⟨G, List.mem_cons_of_mem _ hG, hd⟩
      · have hmem : r ∈ F.deposits.map Deposit.handle := by
          rw [hhandles]
          exact List.mem_map.2 ⟨r.index, List.mem_range'_1.2 ⟨by omega, by omega⟩, rfl⟩
        obtain ⟨d, hd, hr⟩ := List.mem_map.1 hmem
        exact ⟨F, List.mem_cons_self, d, hd, hr⟩

/-- No frame outside has a handle of the frame. -/
theorem not_isOpen_outer (hs : Stacked bottom (F :: fs) top) (hd : d ∈ F.deposits) :
    ¬ d.handle.IsOpen fs := by
  obtain ⟨houter, -, hhandles⟩ := hs
  have hmem := List.mem_map_of_mem (f := Deposit.handle) hd
  rw [hhandles, List.mem_map] at hmem
  obtain ⟨i, hi, hd'⟩ := hmem
  rw [houter.isOpen_iff, ← hd']
  exact fun hopen => Nat.not_lt.2 (List.mem_range'_1.1 hi).1 hopen.2

end Stacked

namespace Outlived

theorem run (ho : Outlived h r fs k) : FrameRun h fs k := by
  induction ho with
  | leave hr => exact hr.leave
  | step _ hs ih => exact hs.run ih

/-- The position of the handle is above the roots that were there before the run. -/
theorem bottom_le (h₀ : h.Sound) (ho : Outlived h r fs k) : h.roots.length ≤ r.index := by
  induction ho with
  | leave hr hd hd' =>
    rw [← hd']
    exact ((hr.faithful h₀).stacked.bounds.2 _ List.mem_cons_self _ hd).1
  | step _ _ ih => exact ih

theorem isOpen_iff (h₀ : h.Sound) (ho : Outlived h r fs k) :
    r.IsOpen fs ↔ r.index < k.roots.length := by
  rw [(ho.run.faithful h₀).stacked.isOpen_iff]
  exact and_iff_right (ho.bottom_le h₀)

end Outlived

namespace Heap

theorem rootValue_eq_error_iff : k.rootValue r = .error .deadRoot ↔ k.roots.length ≤ r.index := by
  unfold rootValue
  rw [← List.getElem?_eq_none_iff]
  cases k.roots[r.index]? <;> simp

theorem setRoot_eq_error_iff {w : Word} :
    k.setRoot r w = .error (.outOfRange k.roots.length r.index) ↔ k.roots.length ≤ r.index := by
  unfold setRoot
  split
  next hr => simpa using hr
  next hr => simpa using hr

end Heap

/-- In a run from a reachable heap, a handle whose frame was dropped is noticed, whether it is read
or written through, exactly if no open frame has been given the same handle. So it is right after
the drop. Otherwise it reads the word that was last stored under the handle of that other frame, and
what is written through it replaces that word. -/
theorem outlived_root_noticed_iff {config : Config} (hreach : Heap.Reachable config h) (r : Root) :
    (∀ F fs k, FrameRun h (F :: fs) k → ∀ d ∈ F.deposits, d.handle = r →
      Outlived h r fs (k.truncateRoots F.start) ∧ ¬ r.IsOpen fs) ∧
    ∀ fs k, Outlived h r fs k →
      (k.rootValue r = .error .deadRoot ↔ ¬ r.IsOpen fs) ∧
      (∀ w, k.setRoot r w = .error (.outOfRange k.roots.length r.index) ↔ ¬ r.IsOpen fs) ∧
      ∀ G ∈ fs, ∀ e ∈ G.deposits, e.handle = r →
        (∃ w, k.rootValue r = .ok w ∧ Heap.Becomes r.index e.heap e.word k w) ∧
        ∀ w, ∃ k', k.setRoot r w = .ok k' ∧ k'.rootValue e.handle = .ok w := by
  have h₀ := hreach.sound
  refine ⟨fun F fs k hr d hd hd' => ⟨.leave hr hd hd', ?_⟩, fun fs k ho => ⟨?_, fun w => ?_, ?_⟩⟩
  · rw [← hd']
    exact (hr.faithful h₀).stacked.not_isOpen_outer hd
  · rw [Heap.rootValue_eq_error_iff, ho.isOpen_iff h₀, Nat.not_lt]
  · rw [Heap.setRoot_eq_error_iff, ho.isOpen_iff h₀, Nat.not_lt]
  · rintro G hG e he rfl
    obtain ⟨hvalues, hsets, -⟩ := handles_of_run hreach ho.run
    refine ⟨hvalues G hG e he, fun w => ?_⟩
    obtain ⟨k', hset, hvalue, -⟩ := hsets G hG e he w
    exact ⟨k', hset, hvalue⟩

/-- A number was rooted in a frame, and after that was dropped, another one in a second frame. -/
def refilled : Heap := (((Heap.new {}).hold [.ofInt 1]).truncateRoots 0).hold [.ofInt 2]

theorem outlived_refilled :
    Outlived (.new {}) ⟨0⟩ [⟨0, [⟨⟨0⟩, .ofInt 2, refilled⟩]⟩] refilled := by
  have hfirst := (FrameRun.start (h := .new {})).enter.root (.ofInt 1) rfl
  have hdropped := (Outlived.leave hfirst List.mem_cons_self rfl).step (.enter _ _)
  exact hdropped.step (.root (.ofInt 2) rfl)

theorem outlived_root_noticed_iff_refilled : Heap.Reachable {} (.new {}) ∧
    (((Heap.new {}).hold [.ofInt 1]).truncateRoots 0).rootValue ⟨0⟩ = .error .deadRoot ∧
    ∃ w, refilled.rootValue ⟨0⟩ = .ok w ∧ Heap.Becomes 0 refilled (.ofInt 2) refilled w := by
  have hfirst := (FrameRun.start (h := .new {})).enter.root (.ofInt 1) rfl
  have hreach : Heap.Reachable {} (.new {}) := .new
  obtain ⟨hdrop, hused⟩ := outlived_root_noticed_iff hreach ⟨0⟩
  obtain ⟨hout, hclosed⟩ := hdrop _ _ _ hfirst _ List.mem_cons_self rfl
  obtain ⟨-, -, hopen⟩ := hused _ _ outlived_refilled
  exact ⟨hreach, (hused _ _ hout).1.2 hclosed,
    (hopen _ List.mem_cons_self _ List.mem_cons_self rfl).1⟩

/-- The guard compares with the height of the stack only, which the second frame has restored. -/
theorem outlived_root_unnoticed :
    ¬ ∀ (config : Config) (h k : Heap) (r : Root) (fs : List Frame), Heap.Reachable config h →
      Outlived h r fs k → k.rootValue r = .error .deadRoot ∧
        ∀ w, k.setRoot r w = .error (.outOfRange k.roots.length r.index) := by
  intro hnoticed
  obtain ⟨hget, -⟩ := hnoticed {} _ _ _ _ .new outlived_refilled
  have hvalue : refilled.rootValue ⟨0⟩ = .ok (.ofInt 2) := rfl
  rw [hvalue] at hget
  cases hget

end MovingHeap

import Scriptlet.Proofs.Eval.Footprint
import Scriptlet.Proofs.Session.Lines

/-!
# The frames of a session

However a task ends, the machine is back in the frame that it was begun in. So behind every line of
a session it is in the frame of the globals, whether the line has run to its end, has crashed or was
rejected. A session only adds frames, and their links stay: at every moment of it every chain ends
in the globals, and the links are those that there will be behind all lines
(`Session.frames_kept`).
-/

namespace Scriptlet

variable {setting : Setting} {a : Moment} {c : Chronicle} {m : Machine}

/-- A moment in its place has its frames on the heap. -/
theorem Moment.Sound.housed (ha : a.Sound c) : a.Housed := by
  constructor
  · obtain ⟨rs, layers, g, hp, -⟩ := ha.stands
    exact hp.lt ha.heap
  · rintro home ⟨hlen⟩
    obtain ⟨-, -, rs, layers, g, hp, -⟩ := ha.values _ List.mem_cons_self
    exact hp.lt ha.heap

/-- What holds of a machine holds behind a program if every statement preserves it. -/
theorem Machine.run_preserves {P : Machine → Prop} {fuel room : Nat} {program : List Stmt}
    (hm : P m) (hstep : ∀ front st rest m₁, program = front ++ st :: rest →
      m.run setting fuel room front = (.finished, m₁) → P m₁ →
      Moment.Leaves setting ⟨fuel, room, .stmt st, m₁⟩ P) :
    P (m.run setting fuel room program).2 := by
  induction program generalizing m with
  | nil => exact hm
  | cons st rest ih =>
    have hst := hstep [] st rest m rfl rfl hm
    unfold run
    cases hr : Eval.stmt setting fuel room st m with
    | error stop m₁ => exact Eval.Ends.error hst hr
    | ok flow m₁ =>
      refine ih (Eval.Ends.ok hst hr) fun front st' rest' m₂ heq hrun hP => ?_
      refine hstep (st :: front) st' rest' m₂ (by rw [heq]; rfl) ?_ hP
      unfold run
      rw [hr]
      exact hrun

theorem Machine.extends_run (setting : Setting) (fuel room : Nat) (program : List Stmt)
    (m : Machine) : m.heap.Extends (m.run setting fuel room program).2.heap := by
  refine run_preserves (P := fun m' => m.heap.Extends m'.heap) (.refl _) ?_
  intro front st rest m₁ _ _ hm
  exact (Moment.leaves_back setting ⟨fuel, room, .stmt st, m₁⟩).mono fun _ h => hm.trans h.2

/-- A program leaves the machine in the frame that it has found it in. -/
theorem Machine.here_run (setting : Setting) (fuel room : Nat) (program : List Stmt)
    (m : Machine) : (m.run setting fuel room program).2.here = m.here := by
  refine run_preserves (P := fun m' => m'.here = m.here) rfl ?_
  intro front st rest m₁ _ _ hm
  exact (Moment.leaves_back setting ⟨fuel, room, .stmt st, m₁⟩).mono fun _ h => h.1.trans hm

namespace Session

variable {host : Host} {times : Nat → Float} {r : Report} {lines : List String} {s : Session}
  {program : List Stmt}

/-! ## Between the lines -/

/-- What holds of the machine behind some lines holds behind more of them, if the run of every
accepted program preserves it. What is rejected does not touch the machine. -/
theorem afterLines_preserves {P : Machine → Prop}
    (hrun : ∀ lines s program, Accepts host r lines s program → P s.machine →
      P (s.machine.run (.following s.depths host) enoughFuel maxCalls program).2)
    (lines : List String) (h : P (afterLines host r lines).1.machine) (more : List String) :
    P (afterLines host r (lines ++ more)).1.machine := by
  induction more using List.reverseRecOn with
  | nil => rwa [List.append_nil]
  | append_singleton more line ih =>
    rw [← List.append_assoc, afterLines_append]
    rcases hp : (afterLines host r (lines ++ more)).1.prepare
      (afterLines host r (lines ++ more)).2.reset line with ⟨p, s', r'⟩
    rw [← prepare_machine hp] at ih
    rw [runLine_of_prepare hp]
    cases p with
    | ready program => exact hrun _ s' program ⟨lines ++ more, line, [], r', rfl, hp⟩ ih
    | trouble _ => exact ih
    | halted _ => exact ih

/-- Between the lines of a session the machine is in the frame of the globals. -/
theorem here_afterLines (host : Host) (r : Report) (lines : List String) :
    (afterLines host r lines).1.machine.here = Heap.root := by
  refine afterLines_preserves (P := fun m => m.here = Heap.root) ?_ [] rfl lines
  intro _ s program _ hs
  exact (Machine.here_run _ enoughFuel maxCalls program s.machine).trans hs

theorem Accepts.here (h : Accepts host r lines s program) : s.machine.here = Heap.root := by
  obtain ⟨before, line, after, hlines, hready, -⟩ := h.ready
  rw [hready.machine]
  exact here_afterLines host r before

/-! ## Links stay -/

theorem extends_afterLines (lines more : List String) :
    (afterLines host r lines).1.machine.heap.Extends
      (afterLines host r (lines ++ more)).1.machine.heap := by
  refine afterLines_preserves
    (P := fun m => (afterLines host r lines).1.machine.heap.Extends m.heap) ?_ lines (.refl _) more
  intro _ s program _ hs
  exact hs.trans (Machine.extends_run _ enoughFuel maxCalls program s.machine)

/-- Behind an accepted line is what its run has left. -/
theorem Accepts.extends (h : Accepts host r lines s program) :
    (s.machine.run (.following s.depths host) enoughFuel maxCalls program).2.heap.Extends
      (afterLines host r lines).1.machine.heap := by
  obtain ⟨before, line, after, r', rfl, hp⟩ := h
  have hrun : (afterLines host r (before ++ [line])).1.machine =
      (s.machine.run (.following s.depths host) enoughFuel maxCalls program).2 := by
    rw [afterLines_append, runLine_of_prepare hp]
    rfl
  have hafter : (afterLines host r (before ++ [line])).1.machine.heap.Extends _ :=
    extends_afterLines (before ++ [line]) after
  rw [hrun, List.append_assoc, List.singleton_append] at hafter
  exact hafter

/-- What there is at a moment of a session is there behind all lines. -/
theorem Comes.extends (h : Comes host r lines s a) :
    a.machine.heap.Extends (afterLines host r lines).1.machine.heap := by
  obtain ⟨front, st, rest, m, haccepts, hrun, hreach⟩ := h
  refine Heap.Extends.trans ?_ haccepts.extends
  have hleaves := Reaches.leaves hreach
  rw [Machine.run_append, hrun]
  dsimp only
  unfold Machine.run
  cases hr : Eval.stmt (.following s.depths host) enoughFuel maxCalls st m with
  | error stop m₁ => exact Moment.History.extends (Eval.Ends.error hleaves hr)
  | ok flow m₁ =>
    exact (Moment.History.extends (Eval.Ends.ok hleaves hr)).trans (Machine.extends_run ..)

/-! ## Chains end in the globals -/

theorem rooted_fresh : fresh.machine.heap.Rooted := by
  have hsize : fresh.machine.heap.size = 1 := rfl
  refine ⟨by rw [hsize]; exact Nat.one_pos, rfl, fun e he hne => ?_⟩
  rw [hsize] at he
  exact absurd (Nat.lt_one_iff.1 he) hne

/-- A statement of an accepted program begins a moment that is grounded. -/
theorem Accepts.grounded {front rest : List Stmt} {st : Stmt}
    (h : Accepts (Host.telling times) r lines s (front ++ st :: rest))
    (hrun : s.machine.run (.following s.depths (Host.telling times)) enoughFuel maxCalls front =
      (.finished, m)) (hm : m.heap.Rooted) :
    Moment.Grounded (.following s.depths (Host.telling times))
      ⟨enoughFuel, maxCalls, .stmt st, m⟩ := by
  refine ⟨hm, fun b hb => ?_⟩
  have hcomes : Comes (Host.telling times) r lines s b := ⟨front, st, rest, m, h, hrun, hb⟩
  exact (sound_of_comes hcomes).housed

/-- An accepted program keeps chains as they should be, up to each of its statements. -/
theorem Accepts.rooted {front rest : List Stmt}
    (h : Accepts (Host.telling times) r lines s (front ++ rest)) (hs : s.machine.heap.Rooted) :
    (s.machine.run (.following s.depths (Host.telling times)) enoughFuel maxCalls
      front).2.heap.Rooted := by
  refine Machine.run_preserves (P := fun m => m.heap.Rooted) hs ?_
  rintro front' st rest' m₁ rfl hrun hm
  rw [List.append_assoc, List.cons_append] at h
  exact (Moment.history _ _).mono fun _ => (h.grounded hrun hm).history

theorem rooted_afterLines (lines : List String) :
    (afterLines (Host.telling times) r lines).1.machine.heap.Rooted := by
  refine afterLines_preserves (P := fun m => m.heap.Rooted) ?_ [] rooted_fresh lines
  intro _ s program haccepts hs
  rw [← List.append_nil program] at haccepts
  exact haccepts.rooted hs

/-- **At every moment every chain ends in the globals.** -/
theorem grounded_of_comes (h : Comes (Host.telling times) r lines s a) :
    a.Grounded (.following s.depths (Host.telling times)) := by
  obtain ⟨front, st, rest, m, haccepts, hrun, hreach⟩ := h
  obtain ⟨before, line, after, hlines, hready, -⟩ := haccepts.ready
  have hs : s.machine.heap.Rooted := by
    rw [hready.machine]
    exact rooted_afterLines before
  have hm := haccepts.rooted hs
  rw [hrun] at hm
  exact (haccepts.grounded hrun hm).reaches hreach

/-- **The frame that a program is in is always restored.** However a task ends, the machine is in
the frame that it was begun in, on any machine and in any setting. So behind all lines of a session,
of which any may have crashed or been rejected, it is in the frame of the globals. At every moment
of the session, and behind each task that was begun, every chain ends in the globals; and the links
are those that there are behind all lines. -/
theorem frames_kept (times : Nat → Float) (r : Report) (lines : List String) :
    (∀ (setting : Setting) (a : Moment), a.Leaves setting fun m => m.here = a.machine.here) ∧
    let last := (afterLines (Host.telling times) r lines).1.machine
    last.here = Heap.root ∧ last.heap.EndsAtRoot ∧
      ∀ s a, Comes (Host.telling times) r lines s a →
        a.machine.heap.EndsAtRoot ∧
        (a.Leaves (.following s.depths (Host.telling times)) fun m => m.heap.EndsAtRoot) ∧
        ∀ e, e < a.machine.heap.size → last.heap.link? e = a.machine.heap.link? e := by
  refine ⟨fun setting a => (a.leaves_back setting).mono fun _ h => h.1,
    (outside_afterLines lines).here, (rooted_afterLines lines).endsAtRoot, fun s a h => ?_⟩
  have hgrounded := grounded_of_comes h
  refine ⟨hgrounded.rooted.endsAtRoot, ?_, fun e he => h.extends.link e he⟩
  exact (Moment.history _ a).mono fun _ hh => (hgrounded.history hh).endsAtRoot

end Session

end Scriptlet

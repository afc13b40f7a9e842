import Scriptlet.Proofs.Session.Frames

/-!
# What a session changes

Of the frames that there are at a moment of a session, its task changes only those around the frame
that it is in and those that closures are called into meanwhile (`Session.frames_changed`). Called
from outside of all blocks and functions, a closure changes no frame but that of the globals, unless
closures are called into it: what other calls of the function that has made the closure keep in
their frames stays as it is.
-/

namespace Scriptlet.Session

variable {times : Nat → Float} {r : Report} {lines : List String} {s : Session} {a : Moment}

/-- **What a task changes.** However a task ends that a session comes to, a frame that was there
before is as it was, unless it is around the frame that the task was begun in, or a closure is
called into it. Outside of all blocks and functions, a frame that is not that of the globals is as
it was unless a closure is called into it. -/
theorem frames_changed (h : Comes (Host.telling times) r lines s a) :
    let setting := Setting.following s.depths (Host.telling times)
    a.Leaves setting (fun m => a.Footprint setting m.heap) ∧
    (a.machine.here = Heap.root → a.Leaves setting fun m =>
      ∀ e, e < a.machine.heap.size → e ≠ Heap.root →
        m.heap.frames[e]? ≠ a.machine.heap.frames[e]? → a.CallsInto setting e) := by
  intro setting
  have hgrounded := grounded_of_comes h
  refine ⟨hgrounded.footprint, fun hhere => hgrounded.footprint.mono fun m hfoot e he hne hch => ?_⟩
  rcases hfoot e he hch with haround | hcalls
  · rw [hhere] at haround
    exact absurd (Heap.eq_of_around hgrounded.rooted.outermost haround) hne
  · exact hcalls

/-- Two functions are made by calls of another one, and each has a variable of its own. -/
def switches : String :=
  "fun make() \x7b var on; fun turn() \x7b on = true; \x7d return turn; \x7d
  var a = make(); var b = make();"

/-- A call of one of them changes the frame that it was made in, so a closure was called into it. -/
theorem frames_changed_switch : ∃ s st flow m,
    let setting := Setting.following s.depths (Host.telling fun _ => 0)
    let a : Moment := ⟨enoughFuel, maxCalls, .stmt st, s.machine⟩
    Comes (Host.telling fun _ => 0) (.fresh 10 false) [switches, "a();"] s a ∧
      s.machine.here = Heap.root ∧
      Eval.stmt setting enoughFuel maxCalls st s.machine = .ok flow m ∧
      m.heap.frames[1]? ≠ s.machine.heap.frames[1]? ∧ a.CallsInto setting 1 := by
  rcases hfirst : afterLines (Host.telling fun _ => 0) (.fresh 10 false) [switches] with ⟨s₀, r₀⟩
  have hfinished : ((afterLines (Host.telling fun _ => 0) (.fresh 10 false) [switches]).1.runLine
      (Host.telling fun _ => 0) (afterLines (Host.telling fun _ => 0) (.fresh 10 false)
        [switches]).2 "a();").1.finished = true := by decide +kernel
  have hone : ((afterLines (Host.telling fun _ => 0) (.fresh 10 false)
      [switches]).1.reading "a();").statements.length = 1 := by decide +kernel
  have hoff : ((afterLines (Host.telling fun _ => 0) (.fresh 10 false)
      [switches]).1.machine.heap.local? 1 "on").any Value.isTruthy = false := by decide +kernel
  have hon : (((afterLines (Host.telling fun _ => 0) (.fresh 10 false) [switches]).1.runLine
      (Host.telling fun _ => 0) (afterLines (Host.telling fun _ => 0) (.fresh 10 false)
        [switches]).2 "a();").2.1.machine.heap.local? 1 "on").any Value.isTruthy = true := by
    decide +kernel
  have hsize : 1 < (afterLines (Host.telling fun _ => 0) (.fresh 10 false)
      [switches]).1.machine.heap.size := by decide +kernel
  have hhere : (afterLines (Host.telling fun _ => 0) (.fresh 10 false)
      [switches]).1.machine.here = Heap.root := (outside_afterLines [switches]).here
  rw [hfirst] at hfinished hone hoff hon hsize hhere
  obtain ⟨program, s, r, m, hp, hrun⟩ := prepared_of_ran (ran_of_finished hfinished)
  rw [(ready_of_prepare hp).read] at hone
  rw [runLine_of_prepare hp] at hon
  rw [← prepare_machine hp] at hoff hsize hhere
  obtain ⟨st, rfl⟩ := List.length_eq_one_iff.1 hone
  have haccepts : Accepts (Host.telling fun _ => 0) (.fresh 10 false) _ s _ :=
    ⟨[switches], _, [], r, rfl, by rw [hfirst]; exact hp⟩
  have hcomes := haccepts.comes .refl
  -- The one statement of the second line runs to its end.
  change ((s.machine.run _ enoughFuel maxCalls [st]).2.heap.local? 1 "on").any _ = true at hon
  rw [hrun] at hon
  unfold Machine.run at hrun
  cases hr : Eval.stmt (.following s.depths (Host.telling fun _ => 0)) enoughFuel maxCalls st
    s.machine with
  | error stop m₁ =>
    rw [hr] at hrun
    cases hrun
  | ok flow m₁ =>
    rw [hr] at hrun
    obtain rfl : m₁ = m := congrArg Prod.snd hrun
    have hne : m₁.heap.frames[1]? ≠ s.machine.heap.frames[1]? := by
      intro heq
      have hsame : m₁.heap.local? 1 "on" = s.machine.heap.local? 1 "on" := by
        unfold Heap.local?
        rw [heq]
      rw [hsame, hoff] at hon
      cases hon
    exact ⟨s, st, flow, m₁, hcomes, hhere, hr, hne,
      Eval.Ends.ok ((frames_changed hcomes).2 hhere) hr 1 hsize Nat.one_ne_zero hne⟩

end Scriptlet.Session

import Scriptlet.Proofs.Eval.Room
import Scriptlet.Proofs.Session.Frames

/-!
# How many calls may be nested

**The limit on nested calls cannot be noticed until it strikes** (`Session.calls_limited`). A
program that a session has accepted runs under a higher limit as under a lower one, up to the same
machine, if it does not overflow under the lower. If it does, what it has printed by then is what it
prints first under the higher one, and the machine is outside of all calls again.
-/

namespace Scriptlet.Session

variable {host : Host} {r : Report} {lines : List String} {s : Session} {program : List Stmt}

/-- **The limit on nested calls cannot be noticed until it strikes.** A program that a session has
accepted, behind any lines, runs under a higher limit as it does under a lower one that it does not
exceed: the same is printed, the globals are the same, and it ends in the same way. Where it
overflows under the lower one, what is printed is the beginning of what is printed under the higher
one, however that run ends, and the machine is in the frame of the globals. -/
theorem calls_limited (h : Accepts host r lines s program) (fuel : Nat) {room room' : Nat}
    (hroom : room ≤ room') :
    let run limit := s.machine.run (.following s.depths host) fuel limit program
    ((run room).1.overflows = false → run room' = run room) ∧
      ((run room).1.overflows = true →
        (run room).2.printed.toList <+: (run room').2.printed.toList ∧
          (run room).2.here = Heap.root) := by
  intro run
  obtain ⟨hsame, hfurther⟩ := Machine.run_roomier (.following s.depths host) fuel hroom program
    s.machine
  refine ⟨hsame, fun hoverflows => ⟨hfurther hoverflows, ?_⟩⟩
  exact (Machine.here_run _ fuel room program s.machine).trans h.here

/-- A function that calls itself once. -/
def nested : String := "fun f(again) \x7b print again; if (again) f(nil); \x7d f(true);"

/-- Its run with this limit on nested calls. -/
def nestedRun (limit : Nat) : Ending × Machine :=
  let s := (fresh.prepare (.fresh 10 false) nested).2.1
  s.machine.run (.following s.depths (Host.telling fun _ => 0)) 20 limit
    (fresh.reading nested).statements

/-- With room for one call the inner one overflows, and with room for two there is room enough. -/
theorem calls_limited_nested : ∃ s,
    Accepts (Host.telling fun _ => 0) (.fresh 10 false) [nested] s
        (fresh.reading nested).statements ∧
      nestedRun = (s.machine.run (.following s.depths (Host.telling fun _ => 0)) 20 ·
        (fresh.reading nested).statements) ∧
      ((nestedRun 1).1.overflows = true ∧ (nestedRun 1).2.printed = #["true"] ∧
        (nestedRun 1).2.printed.toList <+: (nestedRun 2).2.printed.toList ∧
        (nestedRun 1).2.here = Heap.root) ∧
      ((nestedRun 2).1.overflows = false ∧ (nestedRun 2).2.printed = #["true", "nil"] ∧
        nestedRun 3 = nestedRun 2) := by
  have hready : isReady (fresh.prepare (.fresh 10 false) nested).1 = true := by decide +kernel
  obtain ⟨s, r', hp, -⟩ := exists_ready (Host.telling fun _ => 0) _ _ hready
  have haccepts : Accepts (Host.telling fun _ => 0) (.fresh 10 false) [nested] s
      (fresh.reading nested).statements := ⟨[], nested, [], r', rfl, hp⟩
  have hrun : nestedRun = (s.machine.run (.following s.depths (Host.telling fun _ => 0)) 20 ·
      (fresh.reading nested).statements) := by
    unfold nestedRun
    rw [hp]
  have hone : (nestedRun 1).1.overflows = true ∧ (nestedRun 1).2.printed = #["true"] := by
    decide +kernel
  have htwo : (nestedRun 2).1.overflows = false ∧ (nestedRun 2).2.printed = #["true", "nil"] := by
    decide +kernel
  refine ⟨s, haccepts, hrun, ⟨hone.1, hone.2, ?_⟩, htwo.1, htwo.2, ?_⟩
  · rw [hrun] at hone ⊢
    exact (calls_limited haccepts 20 (by decide : 1 ≤ 2)).2 hone.1
  · rw [hrun] at htwo ⊢
    exact (calls_limited haccepts 20 (by decide : 2 ≤ 3)).1 htwo.1

end Scriptlet.Session

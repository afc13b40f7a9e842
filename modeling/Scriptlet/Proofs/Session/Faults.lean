import Scriptlet.Proofs.Binding.Balanced
import Scriptlet.Proofs.Eval.Fuel
import Scriptlet.Proofs.Session.Grown

/-!
# Programs do not fault

Whatever text a session is given, its preparation never leaves a scope that it has not entered, and
the program runs without a fault if it is accepted. It even does if it is not: what was read of any
text may be run although its names were never bound. So a run either finishes or crashes, and then
the report has this one crash, or it goes on with any amount of fuel (`Session.faultless`).
-/

namespace Scriptlet

/-- A program has finished or crashed. -/
def Ending.Proper (ending : Ending) : Prop :=
  ending = .finished ∨ ∃ c, ending = .stopped (.crash c)

namespace Session

/-- A program that runs in this session without a fault. -/
structure Faultless (host : Host) (s : Session) (program : List Stmt) : Prop where
  ends : ∀ fuel room, (s.machine.run (.following s.depths host) fuel room program).1.Proper ∨
    (s.machine.run (.following s.depths host) fuel room program).1 = .stopped .outOfFuel
  /-- If any fuel is enough, the program ends in one way. -/
  settles : ∀ room,
    (∀ fuel, (s.machine.run (.following s.depths host) fuel room program).1 =
      .stopped .outOfFuel) ∨
    ∃ ending m enough, ending.Proper ∧ ∀ fuel, enough ≤ fuel →
      s.machine.run (.following s.depths host) fuel room program = (ending, m)
  /-- If the program crashes, the report has this crash, and nothing else has changed there. -/
  reports : ∀ r, ∃ ending m r', s.interpret host r program = (ending, { s with machine := m }, r') ∧
    (ending = .finished ∧ r' = r ∨
      (∃ c, ending = .stopped (.crash c) ∧ r'.crash = some c ∧ r' = { r with crash := some c }) ∨
      ending = .stopped .outOfFuel ∧ r' = r)

/-- If no stop is a fault, nothing else can go wrong. -/
theorem Faultless.of_stops {host : Host} {s : Session} {program : List Stmt} {L : Limits}
    (hfault : ∀ f, ¬ L.fault f)
    (hstops : ∀ fuel room stop,
      (s.machine.run (.following s.depths host) fuel room program).1 = .stopped stop →
      L.stop stop) : Faultless host s program := by
  have hends : ∀ fuel room,
      (s.machine.run (.following s.depths host) fuel room program).1.Proper ∨
      (s.machine.run (.following s.depths host) fuel room program).1 = .stopped .outOfFuel := by
    intro fuel room
    cases hr : (s.machine.run (.following s.depths host) fuel room program).1 with
    | finished => exact .inl (.inl rfl)
    | stopped stop =>
      cases stop with
      | crash c => exact .inl (.inr ⟨c, rfl⟩)
      | fault f => exact absurd (hstops fuel room _ hr) (hfault f)
      | outOfFuel => exact .inr rfl
  refine ⟨hends, fun room => ?_, fun r => ?_⟩
  · refine (Machine.settles (.following s.depths host) room program s.machine).imp_right ?_
    rintro ⟨ending, m, enough, hne, hrun⟩
    refine ⟨ending, m, enough, ?_, hrun⟩
    have hend := hends enough room
    rw [hrun enough (Nat.le_refl enough)] at hend
    exact hend.resolve_right hne
  · have hend := hends enoughFuel maxCalls
    unfold interpret
    rcases hrun : s.machine.run (.following s.depths host) enoughFuel maxCalls program
      with ⟨ending, m⟩
    rw [hrun] at hend
    refine ⟨ending, m, _, rfl, ?_⟩
    rcases hend with (rfl | ⟨c, rfl⟩) | rfl
    · exact .inl ⟨rfl, rfl⟩
    · exact .inr (.inl ⟨c, rfl, rfl, rfl⟩)
    · exact .inr (.inr ⟨rfl, rfl⟩)

end Session

/-! ## Preparing -/

/-- A log ends its taking by meeting the limit, or by an entry that says so. -/
theorem Intake.take_halt {i : Intake} {es : List Binding.Event} {halt : Halt}
    (hlimit : halt ≠ .tooManyIssues) (h : halt = .unbalanced → .unbalanced ∉ es)
    (hi : i.halt ≠ some halt) : (i.take es).halt ≠ some halt := by
  induction es generalizing i with
  | nil => exact hi
  | cons e rest ih =>
    have hrest := fun heq hmem => h heq (List.mem_cons_of_mem e hmem)
    cases e with
    | reference r => exact ih hrest hi
    | declaredBefore first => exact ih hrest hi
    | unbalanced => exact fun heq => h (Option.some.inj heq).symm List.mem_cons_self
    | issue issue =>
      simp only [Intake.take]
      split
      · exact fun heq => hlimit (Option.some.inj heq).symm
      · exact ih hrest hi

namespace Session

/-- A preparation that halts has met the limit of the report. -/
theorem prepare_halted {s : Session} {r : Report} {text : String} {halt : Halt}
    (h : (s.prepare r text).1 = .halted halt) : halt = .tooManyIssues := by
  by_contra hne
  revert h
  unfold prepare prepareBy
  dsimp only
  split
  · exact fun heq => hne (Prepared.halted.inj heq).symm
  · split
    · exact fun heq => hne (Prepared.halted.inj heq).symm
    · split
      · exact nofun
      · split
        · next halt' hhalt =>
          intro heq
          obtain rfl := Prepared.halted.inj heq
          refine Intake.take_halt hne (fun _ hmem => ?_) (Option.some_ne_none _).symm hhalt
          exact Binding.unbalanced_not_mem_log _ _ (Array.mem_toList_iff.1 hmem)
        · split <;> exact nofun

/-- **No text makes a session go wrong.** Behind any lines, a text is prepared without leaving a
scope that was not entered: nothing halts its preparation but a full report. It runs without a fault
if it is accepted. What is read of it runs without a fault also if its names are not bound, whether
it has issues or not. -/
theorem faultless (times : Nat → Float) (r : Report) (lines : List String) (r₀ : Report)
    (text : String) :
    let s := (afterLines (Host.telling times) r lines).1
    (∀ halt, (s.prepare r₀ text).1 = .halted halt → halt = .tooManyIssues) ∧
      (∀ program s' r', s.prepare r₀ text = (.ready program, s', r') →
        Faultless (Host.telling times) s' program) ∧
      Faultless (Host.telling times) { s with serial := (s.reading text).serial }
        (s.reading text).statements := by
  refine ⟨fun _ => prepare_halted, fun program s' r' hp => ?_, ?_⟩
  · exact .of_stops (fun _ h => h) fun fuel room =>
      (run_accepted hp (grown_afterLines lines) fuel room).2
  · exact .of_stops (fun _ h => h) fun fuel room => run_read lines text fuel room

/-- Behind a line that crashes, a text that calls a function of the line before finishes. -/
theorem faultless_call : ∃ program s r,
    (afterLines (Host.telling fun _ => 0) (.fresh 10 false)
      ["fun f(a) \x7b return a + 1; \x7d", "f(nil);"]).1.prepare (.fresh 10 false) "print f(1);" =
        (.ready program, s, r) ∧
      Faultless (Host.telling fun _ => 0) s program ∧
      (s.interpret (Host.telling fun _ => 0) r program).1 = .finished := by
  have hfinished : ((afterLines (Host.telling fun _ => 0) (.fresh 10 false)
      ["fun f(a) \x7b return a + 1; \x7d", "f(nil);"]).1.runLine (Host.telling fun _ => 0)
        (.fresh 10 false) "print f(1);").1.finished = true := by decide +kernel
  obtain ⟨program, s, r, m, hp, hrun⟩ := prepared_of_ran (ran_of_finished hfinished)
  refine ⟨program, s, r, hp, (faultless _ _ _ _ _).2.1 program s r hp, ?_⟩
  unfold interpret
  rw [hrun]

end Session

end Scriptlet

import Scriptlet.Proofs.Binding.Blame
import Scriptlet.Proofs.Eval.Activation
import Scriptlet.Proofs.Eval.Throwing
import Scriptlet.Proofs.Session.Lines

/-!
# Returns leave their calls and nothing else

A returned value that is handed on from statement to statement does what a value does that is
thrown to the nearest call (`Session.returns_as_throws`). This holds of every program, from every
machine. Of the programs that a session accepts no statement returns outside of all calls: a return
among the statements that one of them runs would stand in the tree outside of all functions
(`Runs.housed`), and the binding of names does not let that pass.
-/

namespace Scriptlet

/-! ## No return outside of functions -/

/-- Statements without a return, but in functions. -/
def Task.Housed : Task → Prop
  | .stmt st => Housed.stmt st
  | .stmts sts => Housed.stmts sts
  | .turns _ body => Housed.stmt body
  | .expr _ | .exprs _ | .apply _ _ _ => True

variable {s : Setting} {a b : Moment}

/-- The parts of such statements are such statements. -/
theorem Starts.housed (h : Starts s a b) (ha : a.task.flows = true) (hb : b.task.flows = true)
    (hhoused : a.task.Housed) : b.task.Housed := by
  cases h with
  | body _ => cases ha
  | block => exact hhoused
  | @yes _ _ _ _ _ _ no _ _ _ =>
    cases no with
    | none => exact hhoused
    | some no => exact hhoused.1
  | no _ _ => exact hhoused.2
  | loop => exact hhoused
  | front => exact hhoused.1
  | next _ => exact hhoused.2
  | turn _ _ => exact hhoused
  | again _ _ _ => exact hhoused
  | _ => cases hb

theorem Runs.housed (h : Runs s a b) (ha : a.task.flows = true) (hhoused : a.task.Housed) :
    b.task.Housed := by
  induction h with
  | refl => exact hhoused
  | tail hruns hstep ih => exact hstep.1.housed (Runs.flows hruns ha) hstep.2 ih

/-- Such a statement never returns a value. -/
theorem Housed.stmt_ne_returning {st : Stmt} (h : Housed.stmt st) (s : Setting) (fuel room : Nat)
    (m : Machine) (v : Value) (m' : Machine) :
    Eval.stmt s fuel room st m ≠ .ok (.returning v) m' := by
  intro hr
  obtain ⟨b, v', m₁, hruns, ⟨keyword, value, htask⟩, -⟩ :=
    executes_of_yields s fuel room (.stmt st) m rfl v m' hr
  have hb := hruns.housed rfl h
  rw [htask] at hb
  exact hb

theorem Housed.of_mem {st : Stmt} {sts : List Stmt} (h : Housed.stmts sts) (hst : st ∈ sts) :
    Housed.stmt st := by
  induction sts with
  | nil => exact absurd hst List.not_mem_nil
  | cons st' rest ih =>
    rcases List.mem_cons.1 hst with rfl | hst
    · exact h.1
    · exact ih h.2 hst

namespace Session

/-- The statements of a program that is ready never return a value outside of calls. -/
theorem Ready.housed {s s' : Session} {text : String} {program : List Stmt}
    (h : Ready s text program s') : Housed.stmts program := Binding.housed_of_log h.clean

/-! ## Returns -/

/-- **A return leaves its call as a throw does.** In every setting, with all fuel and room:

* a program, whether its names were bound or not, runs from every machine as it does when returns
  throw: it ends in the same way, on the same machine, and has printed the same;
* every call has the same value, or stops in the same way;
* the value of a call is that of a return that its activation has executed, and the machine is then
  as the return has left it, but for the frame; without such a return the value is `nil`;
* a return that is executed ends everything that has begun it up to the call, on the machine that
  it has left, so nothing of the activation runs behind it;
* no statement of a program that was prepared returns a value outside of all calls. -/
theorem returns_as_throws (setting : Setting) (fuel room : Nat) :
    (∀ program (m : Machine),
      m.runThrowing setting fuel room program = m.run setting fuel room program) ∧
    (∀ paren f vs, Leap.apply setting fuel room paren f vs =
      Leap.plain (Eval.apply setting fuel room paren f vs)) ∧
    (∀ paren identity d home vs m v m',
      Eval.apply setting fuel room paren (.closure identity d home) vs m = .ok v m' →
      let a : Moment := ⟨fuel, room, .apply paren (.closure identity d home) vs, m⟩
      (∃ b m₁, Runs setting a b ∧ b.IsReturn ∧ b.Yields setting v m₁ ∧
        m' = { m₁ with here := m.here }) ∨ ¬ a.Executes setting ∧ v = .nil) ∧
    (∀ a b v m, Runs setting a b → b.IsReturn → b.Yields setting v m →
      a.Yields setting v { m with here := a.machine.here }) ∧
    ∀ (s : Session) r text program s' r', s.prepare r text = (.ready program, s', r') →
      ∀ st ∈ program, ∀ m v m', Eval.stmt setting fuel room st m ≠ .ok (.returning v) m' :=
  ⟨Machine.run_throwing setting fuel room, (Throws.all setting fuel).apply room,
    fun _ _ _ _ _ _ _ _ => call_value, fun _ _ _ _ hruns _ => hruns.yields,
    fun _ _ _ _ _ _ hp _ hst =>
      Housed.stmt_ne_returning (Housed.of_mem (ready_of_prepare hp).housed hst) setting fuel room⟩

/-- A function returns from a loop, and would print something behind the return. -/
def returningText : String :=
  "fun f() \x7b while (true) \x7b return true; print nil; \x7d \x7d print f();"

/-- A function that returns from a loop. -/
def returningDeclaration : Declaration :=
  let word : Token := ⟨.word .kwReturn, "return", .nil, 1, 25⟩
  ⟨⟨.name, "f", .nil, 1, 4⟩, [], [.loop (.literal (.bool true))
    (.block [.ret word (some (.literal (.bool true))), .print word (.literal .nil)])]⟩

/-- The value that is returned from the loop is the value of the call, and nothing is printed behind
the return. -/
theorem returns_as_throws_loop :
    (∃ program s r, fresh.prepare (.fresh 10 false) returningText = (.ready program, s, r) ∧
      (∀ st ∈ program, ∀ m v m', Eval.stmt (.following s.depths (Host.telling fun _ => 0))
        enoughFuel maxCalls st m ≠ .ok (.returning v) m') ∧
      (s.machine.runThrowing (.following s.depths (Host.telling fun _ => 0)) enoughFuel maxCalls
        program).2.printed = #["true"]) ∧
    let setting : Setting := ⟨fun _ => .global, Host.telling fun _ => 0⟩
    let call : Moment := ⟨8, 1, .apply ⟨.mark .rightParen, ")", .nil, 1, 30⟩
      (.closure 0 returningDeclaration Heap.root) [], fresh.machine⟩
    ∃ b m, Runs setting call b ∧ b.IsReturn ∧ b.Yields setting (.bool true) m ∧
      call.Yields setting (.bool true) { m with here := Heap.root } := by
  constructor
  · have hfacts : isReady (fresh.prepare (.fresh 10 false) returningText).1 = true ∧
        (fresh.runText (Host.telling fun _ => 0) (.fresh 10 false)
          returningText).2.1.machine.printed = #["true"] := by decide +kernel
    obtain ⟨s, r, hp, hrun⟩ := exists_ready (Host.telling fun _ => 0) _ _ hfacts.1
    obtain ⟨hsame, -, -, -, hnever⟩ := returns_as_throws
      (.following s.depths (Host.telling fun _ => 0)) enoughFuel maxCalls
    refine ⟨_, s, r, hp, hnever _ _ _ _ _ _ hp, ?_⟩
    rw [hsame]
    rw [← hrun] at hfacts
    exact hfacts.2
  · intro setting call
    obtain ⟨-, -, hvalue, hends, -⟩ := returns_as_throws setting 8 1
    obtain ⟨m', hcall⟩ : ∃ m, call.Yields setting (.bool true) m := by
      apply Exists.intro
      simp only [Moment.Yields, call, returningDeclaration, Eval.apply, Eval.stmts, Eval.stmt,
        Eval.turns, Eval.expr]
      rfl
    rcases hvalue _ _ _ _ _ _ _ _ hcall with ⟨b, m, hruns, hreturn, hb, -⟩ | ⟨-, hnil⟩
    · exact ⟨b, m, hruns, hreturn, hb, hends _ _ _ _ hruns hreturn hb⟩
    · cases hnil

end Session

end Scriptlet

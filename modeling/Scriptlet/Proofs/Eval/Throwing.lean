import Mathlib.Logic.Relation
import Scriptlet.Eval.Run

/-!
# Returns that throw

The evaluators hand a returned value from statement to statement: every list of statements and
every loop looks at how its parts have ended, and goes on or passes the value on. Here is a second
set of evaluators (`Leap`) that hand nothing on. A return throws its value, the nearest call
catches it, and no statement looks at a result, for it has none.

**The two agree.** What a statement does by throwing is what it does by handing on (`Throws.stmt`),
in every setting, with all fuel and room and from every machine: `Leap.throwing` turns the one end
into the other, and it commutes with everything that statements are made of. Expressions and calls
end the same without any translation (`Throws.expr`, `Throws.apply`), since every throw is caught
in the call that it happens in. So programs run the same (`Machine.run_throwing`).
-/

namespace Scriptlet

/-- Why a part of a run is left early. -/
inductive Exit where
  | stopped (stop : Stop)
  /-- A return throws its value. -/
  | thrown (v : Value)

/-- Part of a run that may be left by a throw. -/
abbrev Leap (α : Type) := EStateM Exit Machine α

namespace Leap

/-- Does something that throws nothing. -/
def plain {α : Type} (act : Eval α) : Leap α := fun m =>
  match act m with
  | .ok a m => .ok a m
  | .error stop m => .error (.stopped stop) m

/-- Does something in another frame, and comes back whatever happens. -/
def inside {α : Type} (frame : Nat) (act : Leap α) : Leap α := fun m =>
  let back := m.here
  match act { m with here := frame } with
  | .ok a m => .ok a { m with here := back }
  | .error exit m => .error exit { m with here := back }

/-- The value that is thrown: nothing if none is. -/
def catching (act : Leap Unit) : Leap Value := fun m =>
  match act m with
  | .ok _ m => .ok .nil m
  | .error (.thrown v) m => .ok v m
  | .error (.stopped stop) m => .error (.stopped stop) m

/-! ## The evaluators -/

mutual

/-- The value of an expression. -/
def expr (s : Setting) : (fuel room : Nat) → Expr → Leap Value
  | 0, _, _ => plain (throw .outOfFuel)
  | fuel + 1, room, e =>
    match e with
    | .literal value => return .ofLiteral value
    | .ref name serial => plain (Eval.readVariable s name serial)
    | .assign name value serial => do
      let v ← expr s fuel room value
      plain (Eval.writeVariable s name serial v)
      return v
    | .binary lhs op rhs => do
      let a ← expr s fuel room lhs
      let b ← expr s fuel room rhs
      plain (Eval.lift (Operator.binary op a b))
    | .logical lhs op rhs => do
      let a ← expr s fuel room lhs
      if Operator.decides op a then return a else expr s fuel room rhs
    | .unary op arg => do
      let a ← expr s fuel room arg
      plain (Eval.lift (Operator.unary op a))
    | .grouping inner => expr s fuel room inner
    | .call callee paren args => do
      let f ← expr s fuel room callee
      let vs ← exprs s fuel room args
      apply s fuel room paren f vs

/-- The values of expressions, in order. -/
def exprs (s : Setting) : (fuel room : Nat) → List Expr → Leap (List Value)
  | 0, _, _ => plain (throw .outOfFuel)
  | fuel + 1, room, es =>
    match es with
    | [] => return []
    | e :: rest => do
      let v ← expr s fuel room e
      let vs ← exprs s fuel room rest
      return v :: vs

/-- The value of a call, which is what its body throws. -/
def apply (s : Setting) : (fuel room : Nat) → Token → Value → List Value → Leap Value
  | 0, _, _, _, _ => plain (throw .outOfFuel)
  | fuel + 1, room, paren, f, vs =>
    match f with
    | .closure _ declaration home =>
      if vs.length ≠ declaration.params.length then
        plain (Eval.crash paren (.wrongArity declaration.params.length vs.length))
      else
        match room with
        | 0 => plain (Eval.crash paren .stackOverflow)
        | room + 1 => do
          let frame ← plain (Eval.newFrame home)
          plain (Eval.defineAll frame declaration.params vs)
          catching (inside frame (stmts s fuel room declaration.body))
    | .native n =>
      if vs.length ≠ n.arity then plain (Eval.crash paren (.wrongArity n.arity vs.length))
      else plain (Eval.ask s n vs)
    | _ => plain (Eval.crash paren .notCallable)

/-- Runs a statement. -/
def stmt (s : Setting) : (fuel room : Nat) → Stmt → Leap Unit
  | 0, _, _ => plain (throw .outOfFuel)
  | fuel + 1, room, st =>
    match st with
    | .expr e => do
      let _ ← expr s fuel room e
      return ()
    | .print _ e => do
      let v ← expr s fuel room e
      plain (Eval.print v.text)
    | .var name none => do
      plain (Eval.define (← plain Eval.currentFrame) name.lexeme .nil)
    | .var name (some init) => do
      let v ← expr s fuel room init
      plain (Eval.define (← plain Eval.currentFrame) name.lexeme v)
    | .block body => do
      let frame ← plain (Eval.newFrame (← plain Eval.currentFrame))
      inside frame (stmts s fuel room body)
    | .branch condition yes no => do
      let c ← expr s fuel room condition
      if c.isTruthy then stmt s fuel room yes
      else
        match no with
        | some no => stmt s fuel room no
        | none => return ()
    | .loop condition body => turns s fuel room condition body
    | .function name params body => do
      let frame ← plain Eval.currentFrame
      let identity ← plain Eval.newIdentity
      plain (Eval.define frame name.lexeme (.closure identity ⟨name, params, body⟩ frame))
    | .ret _ none => throw (.thrown .nil)
    | .ret _ (some value) => do
      let v ← expr s fuel room value
      throw (.thrown v)

/-- Runs statements in order. -/
def stmts (s : Setting) : (fuel room : Nat) → List Stmt → Leap Unit
  | 0, _, _ => plain (throw .outOfFuel)
  | fuel + 1, room, sts =>
    match sts with
    | [] => return ()
    | st :: rest => do
      stmt s fuel room st
      stmts s fuel room rest

/-- Runs the turns of a loop. -/
def turns (s : Setting) : (fuel room : Nat) → Expr → Stmt → Leap Unit
  | 0, _, _, _ => plain (throw .outOfFuel)
  | fuel + 1, room, condition, body => do
    let c ← expr s fuel room condition
    if c.isTruthy then do
      stmt s fuel room body
      turns s fuel room condition body
    else return ()

end

end Leap

/-- Runs the statements of a program in order. A value that is thrown outside of all calls ends the
statement that has thrown it. -/
def Machine.runThrowing (s : Setting) (fuel room : Nat) : List Stmt → Machine → Ending × Machine
  | [], m => (.finished, m)
  | st :: rest, m =>
    match Leap.stmt s fuel room st m with
    | .ok _ m | .error (.thrown _) m => runThrowing s fuel room rest m
    | .error (.stopped stop) m => (.stopped stop, m)

/-! ## Handing on as throwing -/

namespace Leap

/-- Throws what is handed on. -/
def throwing (act : Eval Flow) : Leap Unit := fun m =>
  match act m with
  | .ok .goOn m => .ok () m
  | .ok (.returning v) m => .error (.thrown v) m
  | .error stop m => .error (.stopped stop) m

variable {α β : Type}

theorem plain_pure (a : α) : plain (pure a) = pure a := rfl

theorem plain_bind (act : Eval α) (f : α → Eval β) :
    plain (act >>= f) = plain act >>= fun a => plain (f a) := by
  funext m
  show plain (EStateM.bind act f) m = EStateM.bind (plain act) (fun a => plain (f a)) m
  dsimp only [plain, EStateM.bind]
  cases act m <;> rfl

theorem plain_ite {p : Prop} [Decidable p] (act act' : Eval α) :
    plain (if p then act else act') = if p then plain act else plain act' :=
  apply_ite plain p act act'

theorem throwing_goOn : throwing (pure .goOn) = pure () := rfl

theorem throwing_returning (v : Value) :
    throwing (pure (.returning v)) = MonadExcept.throw (.thrown v) := rfl

theorem throwing_bind (act : Eval α) (f : α → Eval Flow) :
    throwing (act >>= f) = plain act >>= fun a => throwing (f a) := by
  funext m
  show throwing (EStateM.bind act f) m = EStateM.bind (plain act) (fun a => throwing (f a)) m
  dsimp only [plain, throwing, EStateM.bind]
  cases act m <;> rfl

theorem throwing_ite {p : Prop} [Decidable p] (act act' : Eval Flow) :
    throwing (if p then act else act') = if p then throwing act else throwing act' :=
  apply_ite throwing p act act'

/-- **Looking at an end is being left by a throw.** If what stands behind a statement passes on a
value that is returned, it is what runs when nothing is thrown. -/
theorem throwing_seq (act : Eval Flow) (next : Flow → Eval Flow)
    (hnext : ∀ v, next (.returning v) = pure (.returning v)) :
    throwing (act >>= next) = (do throwing act; throwing (next .goOn)) := by
  funext m
  show throwing (EStateM.bind act next) m =
    EStateM.bind (throwing act) (fun _ => throwing (next .goOn)) m
  dsimp only [throwing, EStateM.bind]
  cases act m with
  | error stop m' => rfl
  | ok flow m' =>
    cases flow with
    | goOn => rfl
    | returning v =>
      dsimp only
      rw [hnext]
      rfl

theorem throwing_inside (frame : Nat) (act : Eval Flow) :
    throwing (Eval.inside frame act) = inside frame (throwing act) := by
  funext m
  dsimp only [throwing, inside, Eval.inside]
  cases act { m with here := frame } with
  | ok flow m' => cases flow <;> rfl
  | error stop m' => rfl

/-- A call catches exactly what its body hands on. -/
theorem catching_throwing (act : Eval Flow) :
    catching (throwing act) = plain (do let flow ← act; return flow.value) := by
  funext m
  show catching (throwing act) m = plain (EStateM.bind act _) m
  dsimp only [catching, throwing, plain, EStateM.bind]
  cases act m with
  | ok flow m' => cases flow <;> rfl
  | error stop m' => rfl

end Leap

/-! ## One step of each kind -/

open Leap

/-- With this much fuel every task does by throwing what it does by handing on. -/
structure Throws (s : Setting) (fuel : Nat) : Prop where
  expr : ∀ room e, Leap.expr s fuel room e = plain (Eval.expr s fuel room e)
  exprs : ∀ room es, Leap.exprs s fuel room es = plain (Eval.exprs s fuel room es)
  apply : ∀ room paren f vs,
    Leap.apply s fuel room paren f vs = plain (Eval.apply s fuel room paren f vs)
  stmt : ∀ room st, Leap.stmt s fuel room st = throwing (Eval.stmt s fuel room st)
  stmts : ∀ room sts, Leap.stmts s fuel room sts = throwing (Eval.stmts s fuel room sts)
  turns : ∀ room condition body,
    Leap.turns s fuel room condition body = throwing (Eval.turns s fuel room condition body)

namespace Throws

variable {s : Setting} {fuel room : Nat}

section Steps

variable (ih : Throws s fuel)

include ih

theorem expr_step (e : Expr) :
    Leap.expr s (fuel + 1) room e = plain (Eval.expr s (fuel + 1) room e) := by
  cases e <;>
    simp only [Leap.expr, Eval.expr, plain_bind, plain_pure, plain_ite, ih.expr, ih.exprs,
      ih.apply]

theorem exprs_step (es : List Expr) :
    Leap.exprs s (fuel + 1) room es = plain (Eval.exprs s (fuel + 1) room es) := by
  cases es <;>
    simp only [Leap.exprs, Eval.exprs, plain_bind, plain_pure, ih.expr, ih.exprs]

theorem apply_step (paren : Token) (f : Value) (vs : List Value) :
    Leap.apply s (fuel + 1) room paren f vs =
      plain (Eval.apply s (fuel + 1) room paren f vs) := by
  cases f with
  | closure identity d home =>
    unfold Leap.apply Eval.apply
    rw [plain_ite]
    cases room with
    | zero => rfl
    | succ room =>
      simp only [plain_bind, ih.stmts, ← throwing_inside, catching_throwing]
  | native n =>
    unfold Leap.apply Eval.apply
    rw [plain_ite]
  | _ =>
    unfold Leap.apply Eval.apply
    rfl

theorem stmt_step (st : Stmt) :
    Leap.stmt s (fuel + 1) room st = throwing (Eval.stmt s (fuel + 1) room st) := by
  cases st with
  | expr e | print keyword e =>
    simp only [Leap.stmt, Eval.stmt, throwing_bind, throwing_goOn, bind_pure_unit, ih.expr]
  | var name init =>
    cases init <;>
      simp only [Leap.stmt, Eval.stmt, throwing_bind, throwing_goOn, bind_pure_unit, ih.expr]
  | block body =>
    simp only [Leap.stmt, Eval.stmt, throwing_bind, throwing_inside, ih.stmts]
  | branch condition yes no =>
    cases no <;>
      simp only [Leap.stmt, Eval.stmt, throwing_bind, throwing_ite, throwing_goOn, ih.expr,
        ih.stmt]
  | loop condition body => simp only [Leap.stmt, Eval.stmt, ih.turns]
  | function name params body =>
    simp only [Leap.stmt, Eval.stmt, throwing_bind, throwing_goOn, bind_pure_unit]
  | ret keyword value =>
    cases value <;>
      simp only [Leap.stmt, Eval.stmt, throwing_bind, throwing_returning, ih.expr]

theorem stmts_step (sts : List Stmt) :
    Leap.stmts s (fuel + 1) room sts = throwing (Eval.stmts s (fuel + 1) room sts) := by
  cases sts with
  | nil => simp only [Leap.stmts, Eval.stmts, throwing_goOn]
  | cons st rest =>
    simp only [Leap.stmts, Eval.stmts, ih.stmt, ih.stmts]
    rw [throwing_seq]
    exact fun _ => rfl

theorem turns_step (condition : Expr) (body : Stmt) :
    Leap.turns s (fuel + 1) room condition body =
      throwing (Eval.turns s (fuel + 1) room condition body) := by
  simp only [Leap.turns, Eval.turns, ih.expr, ih.stmt, ih.turns]
  rw [throwing_bind]
  refine bind_congr fun c => ?_
  rw [throwing_ite, throwing_goOn, throwing_seq]
  exact fun _ => rfl

end Steps

theorem all (s : Setting) (fuel : Nat) : Throws s fuel := by
  induction fuel with
  | zero =>
    refine ⟨fun _ _ => ?_, fun _ _ => ?_, fun _ _ _ _ => ?_, fun _ _ => ?_, fun _ _ => ?_,
      fun _ _ _ => ?_⟩ <;>
      simp only [Leap.expr, Leap.exprs, Leap.apply, Leap.stmt, Leap.stmts, Leap.turns, Eval.expr,
        Eval.exprs, Eval.apply, Eval.stmt, Eval.stmts, Eval.turns] <;>
      rfl
  | succ fuel ih =>
    exact ⟨fun _ => ih.expr_step, fun _ => ih.exprs_step, fun _ => ih.apply_step,
      fun _ => ih.stmt_step, fun _ => ih.stmts_step, fun _ => ih.turns_step⟩

end Throws

/-! ## Programs -/

/-- Programs run the same whether returns hand on or throw. -/
theorem Machine.run_throwing (s : Setting) (fuel room : Nat) (program : List Stmt) (m : Machine) :
    m.runThrowing s fuel room program = m.run s fuel room program := by
  induction program generalizing m with
  | nil => rfl
  | cons st rest ih =>
    unfold runThrowing run
    rw [(Throws.all s fuel).stmt]
    unfold throwing
    cases Eval.stmt s fuel room st m with
    | ok flow m' => cases flow <;> exact ih m'
    | error stop m' => rfl

end Scriptlet

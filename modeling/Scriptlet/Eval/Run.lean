import Scriptlet.Eval.Operator

/-!
# How programs run

Expressions have values, and statements have a `Flow`: go on, or return a value to the nearest
call. A list of statements stops at the first that returns, and so does a loop. What a program
does happens in the order of the text; of a call first the callee, then the arguments, and then it
is checked that the callee is a function and takes so many arguments.

**Fuel and room.** Every step into a part takes one unit of fuel, so a run ends. `room` says how
many calls may still be nested in this place; a call for which there is no room is an error of the
program, blamed on the parenthesis that closes it.
-/

namespace Scriptlet

/-- How a statement ends if it does not stop the program. -/
inductive Flow where
  | goOn
  | returning (v : Value)

/-- The value of a call whose body has ended so: nothing if it has not returned. -/
def Flow.value : Flow → Value
  | goOn => .nil
  | returning v => v

namespace Eval

/-- Makes the result of an operator the result of a step. -/
def lift {α : Type} : Except Stop α → Eval α
  | .ok a => return a
  | .error stop => throw stop

mutual

/-- The value of an expression. -/
def expr (s : Setting) : (fuel room : Nat) → Expr → Eval Value
  | 0, _, _ => throw .outOfFuel
  | fuel + 1, room, e =>
    match e with
    | .literal value => return .ofLiteral value
    | .ref name serial => readVariable s name serial
    | .assign name value serial => do
      let v ← expr s fuel room value
      writeVariable s name serial v
      return v
    | .binary lhs op rhs => do
      let a ← expr s fuel room lhs
      let b ← expr s fuel room rhs
      lift (Operator.binary op a b)
    | .logical lhs op rhs => do
      let a ← expr s fuel room lhs
      if Operator.decides op a then return a else expr s fuel room rhs
    | .unary op arg => do
      let a ← expr s fuel room arg
      lift (Operator.unary op a)
    | .grouping inner => expr s fuel room inner
    | .call callee paren args => do
      let f ← expr s fuel room callee
      let vs ← exprs s fuel room args
      apply s fuel room paren f vs

/-- The values of expressions, in order. -/
def exprs (s : Setting) : (fuel room : Nat) → List Expr → Eval (List Value)
  | 0, _, _ => throw .outOfFuel
  | fuel + 1, room, es =>
    match es with
    | [] => return []
    | e :: rest => do
      let v ← expr s fuel room e
      let vs ← exprs s fuel room rest
      return v :: vs

/-- The value of a call. The frame of a call hangs off the frame that the function was declared
in, not off the one that it is called from. -/
def apply (s : Setting) : (fuel room : Nat) → Token → Value → List Value → Eval Value
  | 0, _, _, _, _ => throw .outOfFuel
  | fuel + 1, room, paren, f, vs =>
    match f with
    | .closure _ declaration home =>
      if vs.length ≠ declaration.params.length then
        crash paren (.wrongArity declaration.params.length vs.length)
      else
        match room with
        | 0 => crash paren .stackOverflow
        | room + 1 => do
          let frame ← newFrame home
          defineAll frame declaration.params vs
          let flow ← inside frame (stmts s fuel room declaration.body)
          return flow.value
    | .native n =>
      if vs.length ≠ n.arity then crash paren (.wrongArity n.arity vs.length) else ask s n vs
    | _ => crash paren .notCallable

/-- Runs a statement. -/
def stmt (s : Setting) : (fuel room : Nat) → Stmt → Eval Flow
  | 0, _, _ => throw .outOfFuel
  | fuel + 1, room, st =>
    match st with
    | .expr e => do
      let _ ← expr s fuel room e
      return .goOn
    | .print _ e => do
      let v ← expr s fuel room e
      print v.text
      return .goOn
    | .var name none => do
      define (← currentFrame) name.lexeme .nil
      return .goOn
    | .var name (some init) => do
      let v ← expr s fuel room init
      define (← currentFrame) name.lexeme v
      return .goOn
    | .block body => do
      let frame ← newFrame (← currentFrame)
      inside frame (stmts s fuel room body)
    | .branch condition yes no => do
      let c ← expr s fuel room condition
      if c.isTruthy then stmt s fuel room yes
      else
        match no with
        | some no => stmt s fuel room no
        | none => return .goOn
    | .loop condition body => turns s fuel room condition body
    | .function name params body => do
      let frame ← currentFrame
      let identity ← newIdentity
      define frame name.lexeme (.closure identity ⟨name, params, body⟩ frame)
      return .goOn
    | .ret _ none => return .returning .nil
    | .ret _ (some value) => do
      let v ← expr s fuel room value
      return .returning v

/-- Runs statements in order, up to the first that returns. -/
def stmts (s : Setting) : (fuel room : Nat) → List Stmt → Eval Flow
  | 0, _, _ => throw .outOfFuel
  | fuel + 1, room, sts =>
    match sts with
    | [] => return .goOn
    | st :: rest => do
      match ← stmt s fuel room st with
      | .goOn => stmts s fuel room rest
      | .returning v => return .returning v

/-- Runs the turns of a loop, up to the first that returns. -/
def turns (s : Setting) : (fuel room : Nat) → Expr → Stmt → Eval Flow
  | 0, _, _, _ => throw .outOfFuel
  | fuel + 1, room, condition, body => do
    let c ← expr s fuel room condition
    if c.isTruthy then
      match ← stmt s fuel room body with
      | .goOn => turns s fuel room condition body
      | .returning v => return .returning v
    else return .goOn

end

end Eval

/-- How the run of a program has ended. -/
inductive Ending where
  | finished
  | stopped (stop : Stop)

/-- Runs the statements of a program in order. A statement that returns, outside of all calls,
ends only itself. -/
def Machine.run (s : Setting) (fuel room : Nat) : List Stmt → Machine → Ending × Machine
  | [], m => (.finished, m)
  | st :: rest, m =>
    match Eval.stmt s fuel room st m with
    | .ok _ m => run s fuel room rest m
    | .error stop m => (.stopped stop, m)

end Scriptlet

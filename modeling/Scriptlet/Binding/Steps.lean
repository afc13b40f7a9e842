import Scriptlet.Binding

/-!
# The walk over a program, step by step

The walk is a row of steps, and each of them is taken on a level of the tree. The statements of a
program are on the first level, and the parts of a statement or an expression are one level below
it. A step leaves alone what is taken before and behind it, so a walk may end between any two.
-/

namespace Scriptlet.Binding

/-- What the walk does in one place. -/
inductive Move where
  /-- Comes by a place that says nothing about names. -/
  | pass
  | read (name : Token) (serial : Nat)
  | write (name : Token) (serial : Nat)
  | declare (name : Token)
  | define (name : Token)
  | enter
  | leave
  | enterFunction
  | leaveFunction
  /-- Comes to a statement that returns. -/
  | returns (keyword : Token)

/-- A step of the walk, and the level that it is taken on. -/
structure Step where
  level : Nat
  move : Move

/-- Takes a step. -/
def Walk.step (w : Walk) (s : Step) : Walk :=
  match s.move with
  | .pass => w
  | .read name serial => expr (.ref name serial) w
  | .write name serial => w.refer serial name true
  | .declare name => w.declare name
  | .define name => w.define name
  | .enter => w.enter
  | .leave => w.leave
  | .enterFunction => w.enterFunction
  | .leaveFunction => w.leaveFunction
  | .returns keyword => stmt (.ret keyword none) w

namespace Steps

mutual

/-- The steps over an expression on a level, before others. -/
def expr (level : Nat) : Expr → List Step → List Step
  | .literal _, rest => ⟨level, .pass⟩ :: rest
  | .ref name serial, rest => ⟨level, .read name serial⟩ :: rest
  | .assign name value serial, rest => expr (level + 1) value (⟨level, .write name serial⟩ :: rest)
  | .binary lhs _ rhs, rest => expr (level + 1) lhs (expr (level + 1) rhs rest)
  | .logical lhs _ rhs, rest => expr (level + 1) lhs (expr (level + 1) rhs rest)
  | .unary _ arg, rest => expr (level + 1) arg rest
  | .grouping inner, rest => expr (level + 1) inner rest
  | .call callee _ args, rest => expr (level + 1) callee (exprs (level + 1) args rest)

/-- The steps over expressions in order. -/
def exprs (level : Nat) : List Expr → List Step → List Step
  | [], rest => rest
  | e :: es, rest => expr level e (exprs level es rest)

end

/-- The steps over an expression if there is one. -/
def optional (level : Nat) : Option Expr → List Step → List Step
  | none, rest => rest
  | some e, rest => expr level e rest

/-- The steps over the parameters of a function. -/
def params (level : Nat) : List Token → List Step → List Step
  | [], rest => rest
  | p :: ps, rest => ⟨level, .declare p⟩ :: ⟨level, .define p⟩ :: params level ps rest

mutual

/-- The steps over a statement on a level, before others. -/
def stmt (level : Nat) : Stmt → List Step → List Step
  | .expr e, rest => expr (level + 1) e rest
  | .print _ e, rest => expr (level + 1) e rest
  | .var name init, rest =>
    ⟨level, .declare name⟩ :: optional (level + 1) init (⟨level, .define name⟩ :: rest)
  | .block body, rest =>
    ⟨level, .enter⟩ :: stmts (level + 1) body (⟨level, .leave⟩ :: rest)
  | .branch condition yes none, rest =>
    expr (level + 1) condition (stmt (level + 1) yes rest)
  | .branch condition yes (some no), rest =>
    expr (level + 1) condition (stmt (level + 1) yes (stmt (level + 1) no rest))
  | .loop condition body, rest => expr (level + 1) condition (stmt (level + 1) body rest)
  | .function name ps body, rest =>
    ⟨level, .declare name⟩ :: ⟨level, .define name⟩ :: ⟨level, .enterFunction⟩ ::
      params level ps (stmts (level + 1) body (⟨level, .leaveFunction⟩ :: rest))
  | .ret keyword value, rest => ⟨level, .returns keyword⟩ :: optional (level + 1) value rest

/-- The steps over statements in order. -/
def stmts (level : Nat) : List Stmt → List Step → List Step
  | [], rest => rest
  | st :: sts, rest => stmt level st (stmts level sts rest)

end

end Steps

/-- The steps of the walk over a program. -/
def steps (program : List Stmt) : List Step := Steps.stmts 1 program []

/-- The log of steps that are taken where these globals are defined. -/
def logOf (known : List String) (steps : List Step) : Array Event :=
  (steps.foldl Walk.step ⟨.outermost (.globals (.knowing known)), 0, #[]⟩).log

end Scriptlet.Binding

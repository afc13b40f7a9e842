import Scriptlet.Complaint
import Scriptlet.Proofs.Tree.Wellformed

/-!
# The rules of names

There are three rules of names. A variable is not read in its own initialiser unless its name was
declared before; a name is not declared twice in a block or a function; and nothing is returned
outside of all functions.

Whether a rule is broken in a spot of a program can be told from the tree (`Spot.breaks`): by the
names that are declared before in the same scope, by whether this is the scope of a block or a
function, by whether it is in a function, and by the variable in whose initialiser the spot is.
`Spots.stmts` lists the spots of a program in the order of the walk that binds its names.
**Behind some statements of a scope those names are declared before that were so in front of them,
and those that the statements declare** (`Spots.stmts_append`).
-/

namespace Scriptlet

/-! ## The rules -/

/-- Where something is done to a name. -/
structure Standing where
  /-- The names that are declared before in the same scope. Outside of all blocks and functions the
  globals that are known are among them. -/
  earlier : List String
  /-- Whether this is the scope of a block or a function. -/
  enclosed : Bool
  inFunction : Bool
  /-- The name of the variable in whose initialiser it is. -/
  initialised : Option String

namespace Standing

/-- Outside of all blocks and functions, where these globals are known. -/
def outside (known : List String) : Standing := ⟨known, false, false, none⟩

/-- At the beginning of a block. -/
def block (p : Standing) : Standing := { p with earlier := [], enclosed := true }

/-- At the beginning of the parameters of a function. -/
def function (p : Standing) : Standing := { p.block with inFunction := true }

/-- In the initialiser of a variable. -/
def initialiser (p : Standing) (name : Token) : Standing :=
  { p with initialised := some name.lexeme }

/-- Behind the declaration of a name. -/
def declare (p : Standing) (name : Token) : Standing :=
  { p with earlier := p.earlier ++ [name.lexeme] }

/-- Behind a statement. -/
def behind (p : Standing) (st : Stmt) : Standing :=
  match st.declares? with
  | some name => p.declare name
  | none => p

end Standing

/-- What the rules of names are about. -/
inductive Act where
  | reads (name : Token)
  | declares (name : Token)
  | returns (keyword : Token)

/-- A spot of a program where the rules of names are to be observed. -/
structure Spot where
  act : Act
  standing : Standing

namespace Spot

/-- Whether a rule is broken in a spot. -/
def breaks : Spot → Bool
  | ⟨.reads name, p⟩ => p.initialised = some name.lexeme ∧ name.lexeme ∉ p.earlier
  | ⟨.declares name, p⟩ => p.enclosed = true ∧ name.lexeme ∈ p.earlier
  | ⟨.returns _, p⟩ => !p.inFunction

/-- What there is to complain about if it is. -/
def issue : Spot → Issue
  | ⟨.reads name, _⟩ => .blame name .selfReference
  | ⟨.declares name, _⟩ => .blame name .redeclared
  | ⟨.returns keyword, _⟩ => .blame keyword .strayReturn

end Spot

namespace Spots

mutual

/-- The spots of an expression. -/
def expr (p : Standing) : Expr → List Spot
  | .literal _ => []
  | .ref name _ => [⟨.reads name, p⟩]
  | .assign _ value _ => expr p value
  | .binary lhs _ rhs | .logical lhs _ rhs => expr p lhs ++ expr p rhs
  | .unary _ arg => expr p arg
  | .grouping inner => expr p inner
  | .call callee _ args => expr p callee ++ exprs p args

/-- The spots of expressions. -/
def exprs (p : Standing) : List Expr → List Spot
  | [] => []
  | e :: rest => expr p e ++ exprs p rest

end

/-- The spots of an expression, if there is one. -/
def optional (p : Standing) : Option Expr → List Spot
  | none => []
  | some e => expr p e

/-- The spots of parameters. Each is declared behind those before it. -/
def params (p : Standing) : List Token → List Spot
  | [] => []
  | name :: rest => ⟨.declares name, p⟩ :: params (p.declare name) rest

mutual

/-- The spots of a statement. The parameters of a function and its body share a scope. -/
def stmt (p : Standing) : Stmt → List Spot
  | .expr e | .print _ e => expr p e
  | .var name init => ⟨.declares name, p⟩ :: optional (p.initialiser name) init
  | .block body => stmts p.block body
  | .branch condition yes none => expr p condition ++ stmt p yes
  | .branch condition yes (some no) => expr p condition ++ (stmt p yes ++ stmt p no)
  | .loop condition body => expr p condition ++ stmt p body
  | .function name ps body =>
    ⟨.declares name, p⟩ ::
      (params p.function ps ++ stmts (ps.foldl Standing.declare p.function) body)
  | .ret keyword value => ⟨.returns keyword, p⟩ :: optional p value

/-- The spots of statements. Each stands behind those before it. -/
def stmts (p : Standing) : List Stmt → List Spot
  | [] => []
  | st :: rest => stmt p st ++ stmts (p.behind st) rest

end

end Spots

/-- Behind some statements the names are declared before that were so in front of them, and those
that the statements declare. -/
theorem Standing.foldl_behind (p : Standing) (front : List Stmt) :
    front.foldl behind p =
      { p with earlier := p.earlier ++ (front.filterMap Stmt.declares?).map Token.lexeme } := by
  induction front generalizing p with
  | nil =>
    rw [List.filterMap_nil, List.map_nil, List.append_nil]
    rfl
  | cons st front ih =>
    rw [List.foldl_cons, ih]
    unfold behind
    cases hd : st.declares? with
    | none => rw [List.filterMap_cons_none hd]
    | some name =>
      rw [List.filterMap_cons_some hd, List.map_cons]
      simp only [Standing.declare, List.append_assoc, List.singleton_append]

/-- What stands behind some statements stands behind the names that they declare. -/
theorem Spots.stmts_append (p : Standing) (front rest : List Stmt) :
    stmts p (front ++ rest) = stmts p front ++
      stmts { p with earlier := p.earlier ++ (front.filterMap Stmt.declares?).map Token.lexeme }
        rest := by
  rw [← Standing.foldl_behind]
  induction front generalizing p with
  | nil => rfl
  | cons st front ih =>
    simp only [List.cons_append, stmts, ih, List.append_assoc, List.foldl_cons]

end Scriptlet

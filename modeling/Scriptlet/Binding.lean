import Scriptlet.Complaint
import Scriptlet.Scope
import Scriptlet.Tree.Basic
import Std.Data.TreeMap

/-!
# The binding of names

Before a program runs, one walk over its statements finds out for every reference how many scopes
lie between it and the declaration that it means, or that it means a global.

**Events.** The walk leaves a log: a reference with its depth, an issue, or a note. It goes on
behind an issue, so that one walk finds all of them, and an issue does not keep a reference from
being logged. Entries are in the order in which the program would come to them: the value of an
assignment before the assignment itself.

**Scopes.** A block has a scope of its own, and so have the parameters of a function together with
its body. A function is ready before its body is walked, so the body may call it; a variable is
ready only behind its initialiser, which must not read it.
-/

namespace Scriptlet.Binding

/-- What is found out about a reference to a name. -/
structure Reference where
  serial : Nat
  name : Token
  /-- Whether the reference writes to the variable. -/
  writes : Bool
  /-- How many scopes to go out; nothing for a global. -/
  depth : Option Nat

/-- An entry in the log of the walk. -/
inductive Event where
  | reference (r : Reference)
  | issue (i : Issue)
  /-- The next issue is about a name that this token declared before. -/
  | declaredBefore (first : Token)
  /-- A scope was left that had not been entered. -/
  | unbalanced

/-- The state of the walk. -/
structure Walk where
  scopes : Scopes
  /-- How many functions the walk is inside of. -/
  functions : Nat
  log : Array Event

namespace Walk

/-- Adds an entry to the log. -/
def add (w : Walk) (e : Event) : Walk := { w with log := w.log.push e }

/-- Declares a name in the innermost scope. -/
def declare (w : Walk) (name : Token) : Walk :=
  match w.scopes.declare name with
  | .ok scopes => { w with scopes }
  | .error first => (w.add (.declaredBefore first)).add (.issue (.blame name .redeclared))

/-- Makes a name ready. -/
def define (w : Walk) (name : Token) : Walk := { w with scopes := w.scopes.define name }

/-- Logs a reference to a name. -/
def refer (w : Walk) (serial : Nat) (name : Token) (writes : Bool) : Walk :=
  w.add (.reference ⟨serial, name, writes, w.scopes.depthOf name.lexeme⟩)

/-- Enters a scope. -/
def enter (w : Walk) : Walk := { w with scopes := w.scopes.enter }

/-- Leaves a scope. -/
def leave (w : Walk) : Walk :=
  match w.scopes.leave? with
  | some scopes => { w with scopes }
  | none => w.add .unbalanced

/-- Goes into the scope of a function. -/
def enterFunction (w : Walk) : Walk := { w.enter with functions := w.functions + 1 }

/-- Comes out of the scope of a function. -/
def leaveFunction (w : Walk) : Walk := { w.leave with functions := w.functions - 1 }

end Walk

mutual

/-- Walks over an expression. -/
def expr : Expr → Walk → Walk
  | .literal _, w => w
  | .ref name serial, w =>
    let w :=
      if w.scopes.isPending name.lexeme then w.add (.issue (.blame name .selfReference)) else w
    w.refer serial name false
  | .assign name value serial, w => (expr value w).refer serial name true
  | .binary lhs _ rhs, w => expr rhs (expr lhs w)
  | .logical lhs _ rhs, w => expr rhs (expr lhs w)
  | .unary _ arg, w => expr arg w
  | .grouping inner, w => expr inner w
  | .call callee _ args, w => exprs args (expr callee w)

/-- Walks over expressions in order. -/
def exprs : List Expr → Walk → Walk
  | [], w => w
  | e :: rest, w => exprs rest (expr e w)

end

/-- Walks over an expression if there is one. -/
def optional (e : Option Expr) (w : Walk) : Walk := (e.map fun e => expr e w).getD w

mutual

/-- Walks over a statement. -/
def stmt : Stmt → Walk → Walk
  | .expr e, w => expr e w
  | .print _ e, w => expr e w
  | .var name init, w => (optional init (w.declare name)).define name
  | .block body, w => (stmts body w.enter).leave
  | .branch condition yes none, w => stmt yes (expr condition w)
  | .branch condition yes (some no), w => stmt no (stmt yes (expr condition w))
  | .loop condition body, w => stmt body (expr condition w)
  | .function name params body, w =>
    let w := ((w.declare name).define name).enterFunction
    let w := params.foldl (fun w p => (w.declare p).define p) w
    (stmts body w).leaveFunction
  | .ret keyword value, w =>
    let w := if w.functions = 0 then w.add (.issue (.blame keyword .strayReturn)) else w
    optional value w

/-- Walks over statements in order. -/
def stmts : List Stmt → Walk → Walk
  | [], w => w
  | s :: rest, w => stmts rest (stmt s w)

end

/-- The log of the walk over a program in which these globals are defined. -/
def log (known : List String) (program : List Stmt) : Array Event :=
  (stmts program ⟨.outermost (.globals (.knowing known)), 0, #[]⟩).log

/-! ## Depths -/

/-- What is known about references, by serial: how many scopes to go out, or that it is a global. -/
abbrev Depths := Std.TreeMap Nat (Option Nat)

/-- Keeps what was found out about a reference. -/
def record (depths : Depths) (r : Reference) : Depths := depths.insert r.serial r.depth

/-- How many scopes to go out for a reference. One about which nothing is known means a global. -/
def depthOf (depths : Depths) (serial : Nat) : Option Nat := (depths[serial]?).join

end Scriptlet.Binding

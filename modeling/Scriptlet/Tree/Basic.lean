import Scriptlet.Token.Basic

/-!
# Syntax trees

A program is a list of statements. There is no loop with a header of three parts: it is written as
a block with a plain loop (`Stmt.countedLoop`), so nothing behind the grammar knows of it.

**Serials.** Every reference to a name, whether it reads (`Expr.ref`) or writes (`Expr.assign`),
carries a serial. It is the identity of the reference, by which the binding of names keeps what it
has found out about it. It is no part of the program's structure.
-/

namespace Scriptlet

/-- Expressions. -/
inductive Expr where
  | literal (value : Literal)
  /-- Reads a variable. -/
  | ref (name : Token) (serial : Nat)
  /-- Writes a variable. -/
  | assign (name : Token) (value : Expr) (serial : Nat)
  | binary (lhs : Expr) (op : Token) (rhs : Expr)
  /-- A conjunction or disjunction, which may leave its right side alone. -/
  | logical (lhs : Expr) (op : Token) (rhs : Expr)
  | unary (op : Token) (arg : Expr)
  | grouping (inner : Expr)
  /-- A call; `paren` is the parenthesis that closes it. -/
  | call (callee : Expr) (paren : Token) (args : List Expr)

/-- Statements. -/
inductive Stmt where
  | expr (e : Expr)
  | print (keyword : Token) (e : Expr)
  | var (name : Token) (init : Option Expr)
  | block (body : List Stmt)
  | branch (condition : Expr) (yes : Stmt) (no : Option Stmt)
  | loop (condition : Expr) (body : Stmt)
  | function (name : Token) (params : List Token) (body : List Stmt)
  | ret (keyword : Token) (value : Option Expr)

/-- A loop with a header of three parts: the start, the condition, and the step behind each turn.
A condition that is left out holds. -/
def Stmt.countedLoop (start : Option Stmt) (condition : Option Expr) (step : Option Expr)
    (body : Stmt) : Stmt :=
  let turn := Stmt.block (body :: (step.map Stmt.expr).toList)
  .block (start.toList ++ [.loop (condition.getD (.literal (.bool true))) turn])

end Scriptlet

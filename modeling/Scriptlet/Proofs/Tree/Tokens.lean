import Scriptlet.Tree.Basic

/-!
# The tokens of a tree

A tree keeps tokens of the text that it was read of: names, operators, the parentheses that close
calls, and the words that begin some statements. Here they are listed. Whatever is wrong with a
tree, be it when its names are bound or when it runs, is blamed on one of them.
-/

namespace Scriptlet.Tokens

mutual

/-- The tokens of an expression. -/
def expr : Expr → List Token
  | .literal _ => []
  | .ref name _ => [name]
  | .assign name value _ => name :: expr value
  | .binary lhs op rhs | .logical lhs op rhs => op :: (expr lhs ++ expr rhs)
  | .unary op arg => op :: expr arg
  | .grouping inner => expr inner
  | .call callee paren args => paren :: (expr callee ++ exprs args)

/-- The tokens of expressions. -/
def exprs : List Expr → List Token
  | [] => []
  | e :: rest => expr e ++ exprs rest

end

/-- The tokens of an expression, if there is one. -/
def optional : Option Expr → List Token
  | none => []
  | some e => expr e

mutual

/-- The tokens of a statement. -/
def stmt : Stmt → List Token
  | .expr e => expr e
  | .print keyword e => keyword :: expr e
  | .var name init => name :: optional init
  | .block body => stmts body
  | .branch condition yes none => expr condition ++ stmt yes
  | .branch condition yes (some no) => expr condition ++ (stmt yes ++ stmt no)
  | .loop condition body => expr condition ++ stmt body
  | .function name params body => name :: (params ++ stmts body)
  | .ret keyword value => keyword :: optional value

/-- The tokens of statements. -/
def stmts : List Stmt → List Token
  | [] => []
  | st :: rest => stmt st ++ stmts rest

end

theorem mem_exprs {t : Token} {es : List Expr} : t ∈ exprs es ↔ ∃ e ∈ es, t ∈ expr e := by
  induction es with
  | nil => simp [exprs]
  | cons e rest ih => simp [exprs, ih]

theorem mem_stmts {t : Token} {sts : List Stmt} : t ∈ stmts sts ↔ ∃ st ∈ sts, t ∈ stmt st := by
  induction sts with
  | nil => simp [stmts]
  | cons st rest ih => simp [stmts, ih]

theorem exprs_eq_flatMap (es : List Expr) : exprs es = es.flatMap expr := by
  induction es with
  | nil => rfl
  | cons e rest ih => rw [List.flatMap_cons, ← ih, exprs]

theorem stmts_append (sts sts' : List Stmt) : stmts (sts ++ sts') = stmts sts ++ stmts sts' := by
  induction sts with
  | nil => rfl
  | cons st rest ih => rw [List.cons_append, stmts, stmts, ih, List.append_assoc]

/-- The step of a counted loop stands behind its body. -/
theorem stmt_countedLoop (start : Option Stmt) (condition step : Option Expr) (body : Stmt) :
    stmt (.countedLoop start condition step body) =
      stmts start.toList ++ (optional condition ++ (stmt body ++ optional step)) := by
  have hcondition : expr (condition.getD (.literal (.bool true))) = optional condition := by
    cases condition <;> rfl
  have hstep : stmts (step.map Stmt.expr).toList = optional step := by
    cases step with
    | none => rfl
    | some e => exact List.append_nil _
  show stmts (_ ++ [_]) = _
  rw [stmts_append]
  show _ ++ ((_ ++ (_ ++ stmts (Option.toList _))) ++ []) = _
  rw [List.append_nil, hcondition, hstep]

end Scriptlet.Tokens

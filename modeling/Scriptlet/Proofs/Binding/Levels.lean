import Mathlib.Data.List.Basic
import Mathlib.Data.List.TakeWhile
import Scriptlet.Binding.Steps

/-!
# The levels of a tree

The steps of the walk over a program, taken one by one, make the walk (`logOf_steps`). None of them
is on a deeper level than the tree has (`within_steps_iff`), and no step takes anything from the
log (`Walk.log_step`). So where a walk ends early, it has logged the first part of what the whole
walk logs (`logOf_takeWhile`), and it ends early just if the tree has more levels than it may go
down.
-/

namespace Scriptlet

/-! ## How many levels a tree has -/

namespace Levels

mutual

/-- The levels of an expression: its own, and those of its parts. -/
def expr : Expr → Nat
  | .literal _ | .ref _ _ => 1
  | .assign _ value _ => expr value + 1
  | .binary lhs _ rhs | .logical lhs _ rhs => max (expr lhs) (expr rhs) + 1
  | .unary _ arg => expr arg + 1
  | .grouping inner => expr inner + 1
  | .call callee _ args => max (expr callee) (exprs args) + 1

/-- The levels of expressions beside each other. -/
def exprs : List Expr → Nat
  | [] => 0
  | e :: rest => max (expr e) (exprs rest)

end

/-- The levels of an expression, if there is one. -/
def optional : Option Expr → Nat
  | none => 0
  | some e => expr e

mutual

/-- The levels of a statement: its own, and those of its parts. -/
def stmt : Stmt → Nat
  | .expr e | .print _ e => expr e + 1
  | .var _ init => optional init + 1
  | .block body => stmts body + 1
  | .branch condition yes none => max (expr condition) (stmt yes) + 1
  | .branch condition yes (some no) => max (expr condition) (max (stmt yes) (stmt no)) + 1
  | .loop condition body => max (expr condition) (stmt body) + 1
  | .function _ _ body => stmts body + 1
  | .ret _ value => optional value + 1

/-- The levels of statements beside each other. -/
def stmts : List Stmt → Nat
  | [] => 0
  | st :: rest => max (stmt st) (stmts rest)

end

end Levels

namespace Binding

/-! ## The steps make the walk -/

mutual

theorem foldl_expr (level : Nat) : ∀ (e : Expr) (rest : List Step) (w : Walk),
    (Steps.expr level e rest).foldl Walk.step w = rest.foldl Walk.step (expr e w)
  | .literal _, _, _ | .ref _ _, _, _ => rfl
  | .assign _ value _, _, w => foldl_expr (level + 1) value _ w
  | .binary lhs _ rhs, rest, w | .logical lhs _ rhs, rest, w =>
    (foldl_expr (level + 1) lhs _ w).trans (foldl_expr (level + 1) rhs rest _)
  | .unary _ arg, rest, w => foldl_expr (level + 1) arg rest w
  | .grouping inner, rest, w => foldl_expr (level + 1) inner rest w
  | .call callee _ args, rest, w =>
    (foldl_expr (level + 1) callee _ w).trans (foldl_exprs (level + 1) args rest _)

theorem foldl_exprs (level : Nat) : ∀ (es : List Expr) (rest : List Step) (w : Walk),
    (Steps.exprs level es rest).foldl Walk.step w = rest.foldl Walk.step (exprs es w)
  | [], _, _ => rfl
  | e :: es, rest, w => (foldl_expr level e _ w).trans (foldl_exprs level es rest _)

end

theorem foldl_optional (level : Nat) (e : Option Expr) (rest : List Step) (w : Walk) :
    (Steps.optional level e rest).foldl Walk.step w = rest.foldl Walk.step (optional e w) := by
  cases e with
  | none => rfl
  | some e => exact foldl_expr level e rest w

theorem foldl_params (level : Nat) (ps : List Token) (rest : List Step) (w : Walk) :
    (Steps.params level ps rest).foldl Walk.step w =
      rest.foldl Walk.step (ps.foldl (fun w p => (w.declare p).define p) w) := by
  induction ps generalizing w with
  | nil => rfl
  | cons p ps ih => exact ih _

mutual

theorem foldl_stmt (level : Nat) : ∀ (st : Stmt) (rest : List Step) (w : Walk),
    (Steps.stmt level st rest).foldl Walk.step w = rest.foldl Walk.step (stmt st w)
  | .expr e, rest, w | .print _ e, rest, w => foldl_expr (level + 1) e rest w
  | .var name init, _, w => foldl_optional (level + 1) init _ (w.declare name)
  | .block body, _, w => foldl_stmts (level + 1) body _ w.enter
  | .branch condition yes none, rest, w =>
    (foldl_expr (level + 1) condition _ w).trans (foldl_stmt (level + 1) yes rest _)
  | .branch condition yes (some no), rest, w =>
    ((foldl_expr (level + 1) condition _ w).trans (foldl_stmt (level + 1) yes _ _)).trans
      (foldl_stmt (level + 1) no rest _)
  | .loop condition body, rest, w =>
    (foldl_expr (level + 1) condition _ w).trans (foldl_stmt (level + 1) body rest _)
  | .function name ps body, _, w =>
    (foldl_params level ps _ ((w.declare name).define name).enterFunction).trans
      (foldl_stmts (level + 1) body _ _)
  | .ret _ value, rest, _ => foldl_optional (level + 1) value rest _

theorem foldl_stmts (level : Nat) : ∀ (sts : List Stmt) (rest : List Step) (w : Walk),
    (Steps.stmts level sts rest).foldl Walk.step w = rest.foldl Walk.step (stmts sts w)
  | [], _, _ => rfl
  | st :: sts, rest, w => (foldl_stmt level st _ w).trans (foldl_stmts level sts rest _)

end

/-- **The steps make the walk.** -/
theorem logOf_steps (known : List String) (program : List Stmt) :
    logOf known (steps program) = log known program :=
  congrArg Walk.log (foldl_stmts 1 program [] _)

/-! ## The levels of the steps -/

/-- These steps are not on deeper levels. -/
def Within (depth : Nat) (steps : List Step) : Prop := ∀ s ∈ steps, s.level ≤ depth

variable {depth : Nat}

@[simp]
theorem within_nil : Within depth [] := fun _ => nofun

@[simp]
theorem within_cons {s : Step} {steps : List Step} :
    Within depth (s :: steps) ↔ s.level ≤ depth ∧ Within depth steps := List.forall_mem_cons

mutual

theorem within_expr (level : Nat) : ∀ (e : Expr) (rest : List Step),
    Within depth (Steps.expr level e rest) ↔
      level + Levels.expr e ≤ depth + 1 ∧ Within depth rest
  | .literal _, _ | .ref _ _, _ => by simp [Steps.expr, Levels.expr]
  | .assign _ value _, rest => by
    simp only [Steps.expr, Levels.expr, within_expr (level + 1) value, within_cons]
    grind
  | .binary lhs _ rhs, rest | .logical lhs _ rhs, rest => by
    simp only [Steps.expr, Levels.expr, within_expr (level + 1) lhs, within_expr (level + 1) rhs]
    grind
  | .unary _ arg, rest | .grouping arg, rest => by
    simp only [Steps.expr, Levels.expr, within_expr (level + 1) arg]
    grind
  | .call callee _ args, rest => by
    have hargs := within_exprs (level + 1) args rest
    simp only [Steps.expr, Levels.expr, within_expr (level + 1) callee]
    grind

/-- Expressions beside each other may be none, and none have no step on any level. -/
theorem within_exprs (level : Nat) : ∀ (es : List Expr) (rest : List Step), level ≤ depth + 1 →
    (Within depth (Steps.exprs level es rest) ↔
      level + Levels.exprs es ≤ depth + 1 ∧ Within depth rest)
  | [], _, hlevel => (and_iff_right hlevel).symm
  | e :: es, rest, hlevel => by
    simp only [Steps.exprs, Levels.exprs, within_expr level e, within_exprs level es rest hlevel]
    grind

end

theorem within_optional (level : Nat) (e : Option Expr) (rest : List Step)
    (hlevel : level ≤ depth + 1) : Within depth (Steps.optional level e rest) ↔
      level + Levels.optional e ≤ depth + 1 ∧ Within depth rest := by
  cases e with
  | none => exact (and_iff_right hlevel).symm
  | some e => exact within_expr level e rest

theorem within_params (level : Nat) (ps : List Token) (rest : List Step) (hlevel : level ≤ depth) :
    Within depth (Steps.params level ps rest) ↔ Within depth rest := by
  induction ps with
  | nil => rfl
  | cons p ps ih => simp [Steps.params, hlevel, ih]

mutual

theorem within_stmt (level : Nat) : ∀ (st : Stmt) (rest : List Step),
    Within depth (Steps.stmt level st rest) ↔
      level + Levels.stmt st ≤ depth + 1 ∧ Within depth rest
  | .expr e, rest | .print _ e, rest => by
    simp only [Steps.stmt, Levels.stmt, within_expr (level + 1) e]
    grind
  | .var name init, rest => by
    have hinit := @within_optional depth (level + 1) init (⟨level, .define name⟩ :: rest)
    simp only [Steps.stmt, Levels.stmt, within_cons] at hinit ⊢
    grind
  | .block body, rest => by
    have hbody := within_stmts (level + 1) body (⟨level, .leave⟩ :: rest)
    simp only [Steps.stmt, Levels.stmt, within_cons] at hbody ⊢
    grind
  | .branch condition yes none, rest => by
    simp only [Steps.stmt, Levels.stmt, within_expr (level + 1) condition,
      within_stmt (level + 1) yes]
    grind
  | .branch condition yes (some no), rest => by
    simp only [Steps.stmt, Levels.stmt, within_expr (level + 1) condition,
      within_stmt (level + 1) yes, within_stmt (level + 1) no]
    grind
  | .loop condition body, rest => by
    simp only [Steps.stmt, Levels.stmt, within_expr (level + 1) condition,
      within_stmt (level + 1) body]
    grind
  | .function name ps body, rest => by
    have hbody := within_stmts (level + 1) body (⟨level, .leaveFunction⟩ :: rest)
    have hparams := @within_params depth level ps
      (Steps.stmts (level + 1) body (⟨level, .leaveFunction⟩ :: rest))
    simp only [Steps.stmt, Levels.stmt, within_cons] at hbody ⊢
    grind
  | .ret keyword value, rest => by
    have hvalue := @within_optional depth (level + 1) value rest
    simp only [Steps.stmt, Levels.stmt, within_cons]
    grind

theorem within_stmts (level : Nat) : ∀ (sts : List Stmt) (rest : List Step), level ≤ depth + 1 →
    (Within depth (Steps.stmts level sts rest) ↔
      level + Levels.stmts sts ≤ depth + 1 ∧ Within depth rest)
  | [], _, hlevel => (and_iff_right hlevel).symm
  | st :: sts, rest, hlevel => by
    simp only [Steps.stmts, Levels.stmts, within_stmt level st, within_stmts level sts rest hlevel]
    grind

end

/-- **The steps over a program are on the levels of its tree.** -/
theorem within_steps_iff {program : List Stmt} :
    Within depth (steps program) ↔ Levels.stmts program ≤ depth := by
  unfold steps
  rw [within_stmts 1 program [] (Nat.le_add_left 1 depth), and_iff_left within_nil]
  omega

/-! ## Walks that end early -/

theorem Walk.log_add (w : Walk) (e : Event) : w.log.toList <+: (w.add e).log.toList := by
  show _ <+: (w.log.push e).toList
  rw [Array.toList_push]
  exact List.prefix_append ..

/-- A step only adds to the log. -/
theorem Walk.log_step (w : Walk) (s : Step) : w.log.toList <+: (w.step s).log.toList := by
  unfold Walk.step
  cases s.move with
  | pass | define _ | enter | enterFunction => exact List.prefix_rfl
  | write name serial => exact w.log_add _
  | read name serial =>
    show _ <+: (Walk.refer (if _ then w.add _ else w) serial name false).log.toList
    split
    · exact (w.log_add _).trans (Walk.log_add ..)
    · exact w.log_add _
  | declare name =>
    show _ <+: (w.declare name).log.toList
    unfold Walk.declare
    split
    · exact List.prefix_rfl
    · exact (w.log_add _).trans (Walk.log_add ..)
  | leave | leaveFunction =>
    show _ <+: w.leave.log.toList
    unfold Walk.leave
    split
    · exact List.prefix_rfl
    · exact w.log_add _
  | returns keyword =>
    show _ <+: (if _ then w.add _ else w).log.toList
    split
    · exact w.log_add _
    · exact List.prefix_rfl

theorem Walk.log_foldl (w : Walk) (steps : List Step) :
    w.log.toList <+: (steps.foldl Walk.step w).log.toList := by
  induction steps generalizing w with
  | nil => exact List.prefix_rfl
  | cons s steps ih => exact (w.log_step s).trans (ih _)

/-- **A walk that ends early has logged the first part of the log.** -/
theorem logOf_takeWhile (known : List String) (program : List Stmt) (p : Step → Bool) :
    (logOf known ((steps program).takeWhile p)).toList <+: (log known program).toList := by
  rw [← logOf_steps, ← List.takeWhile_append_dropWhile (p := p) (l := steps program)]
  unfold logOf
  rw [List.foldl_append, List.takeWhile_append_dropWhile]
  exact Walk.log_foldl ..

end Binding

end Scriptlet

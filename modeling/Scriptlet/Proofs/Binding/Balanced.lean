import Scriptlet.Binding

/-!
# Scopes are left as they are entered

The walk over a tree, whatever it is, comes out in as many scopes as it went in with. So it never
leaves a scope that it has not entered, and no log says that it did (`unbalanced_not_mem_log`).
-/

namespace Scriptlet.Binding

/-- From the first state the walk went to the second, where it is in as many scopes, and it has not
logged on the way that they are out of balance. -/
structure Balanced (w w' : Walk) : Prop where
  depth : w'.scopes.layers.length = w.scopes.layers.length
  log : .unbalanced ∈ w'.log → .unbalanced ∈ w.log

variable {w w' w'' : Walk}

theorem Balanced.refl (w : Walk) : Balanced w w := ⟨rfl, id⟩

theorem Balanced.trans (h : Balanced w w') (h' : Balanced w' w'') : Balanced w w'' :=
  ⟨h'.depth.trans h.depth, fun hlog => h.log (h'.log hlog)⟩

/-! ## Steps -/

theorem balanced_add (w : Walk) {e : Event} (he : e ≠ .unbalanced) : Balanced w (w.add e) := by
  refine ⟨rfl, fun hlog => ?_⟩
  rcases Array.mem_push.1 hlog with hold | hnew
  · exact hold
  · exact absurd hnew.symm he

theorem balanced_declare (w : Walk) (name : Token) : Balanced w (w.declare name) := by
  unfold Walk.declare
  cases hd : w.scopes.declare name with
  | error first =>
    have hnote : Balanced w (w.add (.declaredBefore first)) := balanced_add w nofun
    exact hnote.trans (balanced_add _ nofun)
  | ok scopes =>
    refine ⟨?_, id⟩
    show scopes.layers.length = w.scopes.layers.length
    unfold Scopes.declare at hd
    split at hd
    · next hnil =>
      cases hr : w.scopes.root.declare name with
      | error _ => rw [hr] at hd; cases hd
      | ok root => rw [hr] at hd; cases hd; rfl
    · next top outer hcons =>
      cases hl : top.declare name with
      | error _ => rw [hl] at hd; cases hd
      | ok l => rw [hl] at hd; cases hd; rw [hcons]; rfl

theorem balanced_define (w : Walk) (name : Token) : Balanced w (w.define name) := by
  refine ⟨?_, id⟩
  show (w.scopes.define name).layers.length = w.scopes.layers.length
  unfold Scopes.define
  split
  · rfl
  · next hcons =>
    rw [hcons]
    rfl

theorem balanced_refer (w : Walk) (serial : Nat) (name : Token) (writes : Bool) :
    Balanced w (w.refer serial name writes) := balanced_add w nofun

/-- What is left had been entered. -/
theorem Balanced.leave (h : Balanced w.enter w') : Balanced w w'.leave := by
  unfold Walk.leave Scopes.leave?
  have hdepth := h.depth
  cases hl : w'.scopes.layers with
  | nil =>
    rw [hl] at hdepth
    cases hdepth
  | cons top outer =>
    rw [hl] at hdepth
    exact ⟨Nat.succ.inj hdepth, h.log⟩

/-- An issue that depends on where the walk is. -/
theorem balanced_unless (w : Walk) (p : Prop) [Decidable p] (i : Issue) :
    Balanced w (if p then w.add (.issue i) else w) := by
  split
  · exact balanced_add w nofun
  · exact .refl w

/-! ## Expressions -/

mutual

theorem expr_balanced : ∀ (e : Expr) (w : Walk), Balanced w (expr e w)
  | .literal _, w => .refl w
  | .ref name serial, w =>
    (balanced_unless w _ (.blame name .selfReference)).trans (balanced_refer _ serial name false)
  | .assign name value serial, w =>
    (expr_balanced value w).trans (balanced_refer _ serial name true)
  | .binary lhs _ rhs, w | .logical lhs _ rhs, w =>
    (expr_balanced lhs w).trans (expr_balanced rhs _)
  | .unary _ arg, w => expr_balanced arg w
  | .grouping inner, w => expr_balanced inner w
  | .call callee _ args, w => (expr_balanced callee w).trans (exprs_balanced args _)

theorem exprs_balanced : ∀ (es : List Expr) (w : Walk), Balanced w (exprs es w)
  | [], w => .refl w
  | e :: rest, w => (expr_balanced e w).trans (exprs_balanced rest _)

end

theorem optional_balanced (e : Option Expr) (w : Walk) : Balanced w (optional e w) := by
  cases e with
  | none => exact .refl w
  | some e => exact expr_balanced e w

theorem params_balanced (params : List Token) (w : Walk) :
    Balanced w (params.foldl (fun w p => (w.declare p).define p) w) := by
  induction params generalizing w with
  | nil => exact .refl w
  | cons p rest ih => exact ((balanced_declare w p).trans (balanced_define _ p)).trans (ih _)

/-! ## Statements -/

mutual

theorem stmt_balanced : ∀ (st : Stmt) (w : Walk), Balanced w (stmt st w)
  | .expr e, w | .print _ e, w => expr_balanced e w
  | .var name init, w =>
    ((balanced_declare w name).trans (optional_balanced init _)).trans (balanced_define _ name)
  | .block body, w => (stmts_balanced body w.enter).leave
  | .branch condition yes none, w => (expr_balanced condition w).trans (stmt_balanced yes _)
  | .branch condition yes (some no), w =>
    ((expr_balanced condition w).trans (stmt_balanced yes _)).trans (stmt_balanced no _)
  | .loop condition body, w => (expr_balanced condition w).trans (stmt_balanced body _)
  | .function name params body, w => by
    let declared := (w.declare name).define name
    have hdeclared : Balanced w declared :=
      (balanced_declare w name).trans (balanced_define _ name)
    have hbody := (params_balanced params declared.enterFunction).trans (stmts_balanced body _)
    -- The count of functions does not matter for the balance.
    have hleft := Balanced.leave (w := declared) ⟨hbody.depth, hbody.log⟩
    exact hdeclared.trans ⟨hleft.depth, hleft.log⟩
  | .ret keyword value, w =>
    (balanced_unless w _ (.blame keyword .strayReturn)).trans (optional_balanced value _)

theorem stmts_balanced : ∀ (sts : List Stmt) (w : Walk), Balanced w (stmts sts w)
  | [], w => .refl w
  | st :: rest, w => (stmt_balanced st w).trans (stmts_balanced rest _)

end

/-- **No scope is left that was not entered.** -/
theorem unbalanced_not_mem_log (known : List String) (program : List Stmt) :
    .unbalanced ∉ log known program := fun h =>
  Array.not_mem_empty _ ((stmts_balanced program _).log h)

end Scriptlet.Binding

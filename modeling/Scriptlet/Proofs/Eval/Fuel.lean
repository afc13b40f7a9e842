import Mathlib.Logic.Basic
import Scriptlet.Eval.Run

/-!
# More fuel

A run that is not out of fuel goes in the same way with more fuel (`Machine.run_more`). So it does
not depend on the fuel whether a program ends, nor how: either no fuel is enough for it, or all
fuel from some amount on leads to the same end (`Machine.settles`).
-/

namespace Scriptlet

namespace Eval

variable {α β : Type} {act act' : Eval α} {f f' : α → Eval β}

/-- The second part ends as the first one does, unless the first one is out of fuel. -/
def Backed (act act' : Eval α) : Prop := ∀ m, (∃ m', act m = .error .outOfFuel m') ∨ act' m = act m

theorem Backed.refl (act : Eval α) : Backed act act := fun _ => .inr rfl

theorem Backed.empty (act : Eval α) : Backed (MonadExcept.throw .outOfFuel) act :=
  fun m => .inl ⟨m, rfl⟩

theorem Backed.bind (h : Backed act act') (hf : ∀ a, Backed (f a) (f' a)) :
    Backed (act >>= f) (act' >>= f') := by
  intro m
  show (∃ m', EStateM.bind act f m = .error .outOfFuel m') ∨
    EStateM.bind act' f' m = EStateM.bind act f m
  unfold EStateM.bind
  rcases h m with ⟨m', hm'⟩ | heq
  · exact .inl ⟨m', by rw [hm']⟩
  · rw [heq]
    cases act m with
    | ok a m' => exact hf a m'
    | error stop m' => exact .inr rfl

/-- What follows on the same part. -/
theorem Backed.next (act : Eval α) (hf : ∀ a, Backed (f a) (f' a)) :
    Backed (act >>= f) (act >>= f') := .bind (.refl act) hf

theorem Backed.ite {p : Prop} [Decidable p] {act₁ act₁' act₂ act₂' : Eval α}
    (h₁ : Backed act₁ act₁') (h₂ : Backed act₂ act₂') :
    Backed (if p then act₁ else act₂) (if p then act₁' else act₂') := by
  by_cases h : p
  · rw [if_pos h, if_pos h]
    exact h₁
  · rw [if_neg h, if_neg h]
    exact h₂

theorem Backed.inside (frame : Nat) (h : Backed act act') :
    Backed (inside frame act) (inside frame act') := by
  intro m
  unfold Eval.inside
  rcases h { m with here := frame } with ⟨m', hm'⟩ | heq
  · exact .inl ⟨{ m' with here := m.here }, by rw [hm']⟩
  · exact .inr (by rw [heq])

end Eval

/-! ## One step of each kind -/

open Eval (Backed)

variable {s : Setting} {fuel fuel' room : Nat}

/-- With the second amount of fuel every task ends as with the first, unless that is too little. -/
structure Backs (s : Setting) (fuel fuel' : Nat) : Prop where
  expr : ∀ room e, Backed (Eval.expr s fuel room e) (Eval.expr s fuel' room e)
  exprs : ∀ room es, Backed (Eval.exprs s fuel room es) (Eval.exprs s fuel' room es)
  apply : ∀ room paren f vs,
    Backed (Eval.apply s fuel room paren f vs) (Eval.apply s fuel' room paren f vs)
  stmt : ∀ room st, Backed (Eval.stmt s fuel room st) (Eval.stmt s fuel' room st)
  stmts : ∀ room sts, Backed (Eval.stmts s fuel room sts) (Eval.stmts s fuel' room sts)
  turns : ∀ room condition body,
    Backed (Eval.turns s fuel room condition body) (Eval.turns s fuel' room condition body)

namespace Backs

section Steps

variable (ih : Backs s fuel fuel')

include ih

theorem expr_step (e : Expr) :
    Backed (Eval.expr s (fuel + 1) room e) (Eval.expr s (fuel' + 1) room e) := by
  cases e with
  | literal value =>
    simp only [Eval.expr]
    exact .refl _
  | ref name serial =>
    simp only [Eval.expr]
    exact .refl _
  | assign name value serial =>
    simp only [Eval.expr]
    exact .bind (ih.expr room value) fun _ => .refl _
  | binary lhs op rhs =>
    simp only [Eval.expr]
    exact .bind (ih.expr room lhs) fun _ => .bind (ih.expr room rhs) fun _ => .refl _
  | logical lhs op rhs =>
    simp only [Eval.expr]
    exact .bind (ih.expr room lhs) fun _ => .ite (.refl _) (ih.expr room rhs)
  | unary op arg =>
    simp only [Eval.expr]
    exact .bind (ih.expr room arg) fun _ => .refl _
  | grouping inner =>
    simp only [Eval.expr]
    exact ih.expr room inner
  | call callee paren args =>
    simp only [Eval.expr]
    refine .bind (ih.expr room callee) fun f => .bind (ih.exprs room args) fun vs => ?_
    exact ih.apply room paren f vs

theorem exprs_step (es : List Expr) :
    Backed (Eval.exprs s (fuel + 1) room es) (Eval.exprs s (fuel' + 1) room es) := by
  cases es with
  | nil =>
    simp only [Eval.exprs]
    exact .refl _
  | cons e rest =>
    simp only [Eval.exprs]
    exact .bind (ih.expr room e) fun _ => .bind (ih.exprs room rest) fun _ => .refl _

theorem apply_step (paren : Token) (f : Value) (vs : List Value) :
    Backed (Eval.apply s (fuel + 1) room paren f vs)
      (Eval.apply s (fuel' + 1) room paren f vs) := by
  cases f with
  | closure identity d home =>
    unfold Eval.apply
    refine .ite (.refl _) ?_
    cases room with
    | zero => exact .refl _
    | succ room =>
      refine .next _ fun frame => .next _ fun _ => ?_
      exact .bind (.inside frame (ih.stmts room d.body)) fun _ => .refl _
  | _ =>
    unfold Eval.apply
    exact .refl _

theorem stmt_step (st : Stmt) :
    Backed (Eval.stmt s (fuel + 1) room st) (Eval.stmt s (fuel' + 1) room st) := by
  cases st with
  | expr e | print keyword e =>
    simp only [Eval.stmt]
    exact .bind (ih.expr room e) fun _ => .refl _
  | var name init =>
    cases init with
    | none =>
      simp only [Eval.stmt]
      exact .refl _
    | some init =>
      simp only [Eval.stmt]
      exact .bind (ih.expr room init) fun _ => .refl _
  | block body =>
    simp only [Eval.stmt]
    exact .next _ fun _ => .next _ fun frame => .inside frame (ih.stmts room body)
  | branch condition yes no =>
    cases no with
    | none =>
      simp only [Eval.stmt]
      exact .bind (ih.expr room condition) fun _ => .ite (ih.stmt room yes) (.refl _)
    | some no =>
      simp only [Eval.stmt]
      exact .bind (ih.expr room condition) fun _ => .ite (ih.stmt room yes) (ih.stmt room no)
  | loop condition body =>
    simp only [Eval.stmt]
    exact ih.turns room condition body
  | function name params body =>
    simp only [Eval.stmt]
    exact .refl _
  | ret keyword value =>
    cases value with
    | none =>
      simp only [Eval.stmt]
      exact .refl _
    | some value =>
      simp only [Eval.stmt]
      exact .bind (ih.expr room value) fun _ => .refl _

theorem stmts_step (sts : List Stmt) :
    Backed (Eval.stmts s (fuel + 1) room sts) (Eval.stmts s (fuel' + 1) room sts) := by
  cases sts with
  | nil =>
    simp only [Eval.stmts]
    exact .refl _
  | cons st rest =>
    simp only [Eval.stmts]
    refine .bind (ih.stmt room st) fun flow => ?_
    cases flow with
    | goOn => exact ih.stmts room rest
    | returning v => exact .refl _

theorem turns_step (condition : Expr) (body : Stmt) :
    Backed (Eval.turns s (fuel + 1) room condition body)
      (Eval.turns s (fuel' + 1) room condition body) := by
  simp only [Eval.turns]
  refine .bind (ih.expr room condition) fun _ => .ite ?_ (.refl _)
  refine .bind (ih.stmt room body) fun flow => ?_
  cases flow with
  | goOn => exact ih.turns room condition body
  | returning v => exact .refl _

end Steps

theorem all (s : Setting) (h : fuel ≤ fuel') : Backs s fuel fuel' := by
  induction fuel generalizing fuel' with
  | zero =>
    refine ⟨fun _ _ => ?_, fun _ _ => ?_, fun _ _ _ _ => ?_, fun _ _ => ?_, fun _ _ => ?_,
      fun _ _ _ => ?_⟩ <;>
      simp only [Eval.expr, Eval.exprs, Eval.apply, Eval.stmt, Eval.stmts, Eval.turns] <;>
      exact .empty _
  | succ fuel ih =>
    cases fuel' with
    | zero => exact absurd h (Nat.not_succ_le_zero fuel)
    | succ fuel' =>
      have ih := ih (Nat.le_of_succ_le_succ h)
      exact ⟨fun _ => ih.expr_step, fun _ => ih.exprs_step, fun _ => ih.apply_step,
        fun _ => ih.stmt_step, fun _ => ih.stmts_step, fun _ => ih.turns_step⟩

end Backs

/-! ## Programs -/

namespace Machine

/-- More fuel changes nothing in a run that is not out of fuel. -/
theorem run_more (h : fuel ≤ fuel') (program : List Stmt) (m : Machine)
    (hends : (m.run s fuel room program).1 ≠ .stopped .outOfFuel) :
    m.run s fuel' room program = m.run s fuel room program := by
  induction program generalizing m with
  | nil => rfl
  | cons st rest ih =>
    unfold run at hends ⊢
    rcases (Backs.all s h).stmt room st m with ⟨m', hm'⟩ | heq
    · rw [hm'] at hends
      exact absurd rfl hends
    · rw [heq]
      cases hr : Eval.stmt s fuel room st m with
      | ok flow m' =>
        rw [hr] at hends
        exact ih m' hends
      | error stop m' => rfl

/-- **Programs settle.** Either no fuel is enough for a program, or it ends in the same way with all
fuel from some amount on. -/
theorem settles (s : Setting) (room : Nat) (program : List Stmt) (m : Machine) :
    (∀ fuel, (m.run s fuel room program).1 = .stopped .outOfFuel) ∨
      ∃ ending m' enough, ending ≠ .stopped .outOfFuel ∧
        ∀ fuel, enough ≤ fuel → m.run s fuel room program = (ending, m') := by
  by_cases h : ∀ fuel, (m.run s fuel room program).1 = .stopped .outOfFuel
  · exact .inl h
  · obtain ⟨enough, hends⟩ := not_forall.1 h
    exact .inr ⟨_, _, enough, hends, fun fuel hle => run_more hle program m hends⟩

end Machine

end Scriptlet

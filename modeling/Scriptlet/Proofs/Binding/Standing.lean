import Scriptlet.Proofs.Binding.Balanced
import Scriptlet.Proofs.Binding.Sites

/-!
# Where a statement leaves the walk

**Behind a statement the walk stands where it stood before it**: in the same scopes, inside of as
many functions (`Binding.stmt_stands`). This holds of every tree. Only the innermost scope may have
got a name, and if the tree has the shape that the grammar gives it, this is the name that the
statement declares (`Binding.scopes_stmt`).

What is inside of a block or a function has its own scope in front of those around it. When this one
is left, those around it are just what they were (`Binding.scopes_leave`).
-/

namespace Scriptlet

theorem Scopes.sameOutside_define (s : Scopes) (name : Token) : s.SameOutside (s.define name) := by
  intro l ls h
  unfold define
  rw [h]
  exact ⟨l.define name, rfl⟩

namespace Binding

/-- The walk went from one state to another, where it stands in the same scopes, but for the names
of the innermost one, and inside of as many functions. -/
structure Stands (w w' : Walk) : Prop where
  functions : w'.functions = w.functions
  depth : w'.scopes.layers.length = w.scopes.layers.length
  outside : w.scopes.SameOutside w'.scopes

variable {w w' w'' : Walk}

theorem Stands.refl (w : Walk) : Stands w w := ⟨rfl, rfl, .refl _⟩

theorem Stands.trans (h : Stands w w') (h' : Stands w' w'') : Stands w w'' :=
  ⟨h'.functions.trans h.functions, h'.depth.trans h.depth, h.outside.trans h'.outside⟩

/-! ## Steps -/

/-- A step that changes neither the scopes nor the count of functions. -/
theorem Stands.same (hscopes : w'.scopes = w.scopes) (hfunctions : w'.functions = w.functions) :
    Stands w w' := ⟨hfunctions, by rw [hscopes], hscopes ▸ .refl _⟩

theorem stands_add (w : Walk) (e : Event) : Stands w (w.add e) := .same rfl rfl

theorem stands_unless (w : Walk) (p : Prop) [Decidable p] (e : Event) :
    Stands w (if p then w.add e else w) := by
  split
  · exact stands_add w e
  · exact .refl w

theorem functions_declare (w : Walk) (name : Token) : (w.declare name).functions = w.functions := by
  unfold Walk.declare
  split <;> rfl

theorem stands_declare (w : Walk) (name : Token) : Stands w (w.declare name) := by
  refine ⟨functions_declare w name, (balanced_declare w name).depth, ?_⟩
  rw [(declare_walked w name).scopes]
  exact w.scopes.sameOutside_announce name

theorem stands_define (w : Walk) (name : Token) : Stands w (w.define name) :=
  ⟨rfl, (balanced_define w name).depth, w.scopes.sameOutside_define name⟩

theorem functions_leave (w : Walk) : w.leave.functions = w.functions := by
  unfold Walk.leave
  split <;> rfl

/-- What was entered is left, and the scopes around it are what they were. -/
theorem scopes_leave (h : w.scopes.enter.SameOutside w'.scopes) : w'.leave.scopes = w.scopes := by
  obtain ⟨l, hl⟩ := h _ _ rfl
  exact (leave_walked hl).scopes

/-! ## Trees -/

mutual

theorem expr_stands : ∀ (e : Expr) (w : Walk), Stands w (expr e w)
  | .literal _, w => .refl w
  | .ref _ _, w => (stands_unless w _ _).trans (stands_add _ _)
  | .assign _ value _, w => (expr_stands value w).trans (stands_add _ _)
  | .binary lhs _ rhs, w | .logical lhs _ rhs, w => (expr_stands lhs w).trans (expr_stands rhs _)
  | .unary _ arg, w => expr_stands arg w
  | .grouping inner, w => expr_stands inner w
  | .call callee _ args, w => (expr_stands callee w).trans (exprs_stands args _)

theorem exprs_stands : ∀ (es : List Expr) (w : Walk), Stands w (exprs es w)
  | [], w => .refl w
  | e :: rest, w => (expr_stands e w).trans (exprs_stands rest _)

end

theorem optional_stands (e : Option Expr) (w : Walk) : Stands w (optional e w) := by
  cases e with
  | none => exact .refl w
  | some e => exact expr_stands e w

theorem params_stands (params : List Token) (w : Walk) :
    Stands w (params.foldl (fun w p => (w.declare p).define p) w) := by
  induction params generalizing w with
  | nil => exact .refl w
  | cons p rest ih => exact ((stands_declare w p).trans (stands_define _ p)).trans (ih _)

mutual

/-- **Behind a statement** the walk stands where it stood before. -/
theorem stmt_stands : ∀ (st : Stmt) (w : Walk), Stands w (stmt st w)
  | .expr e, w | .print _ e, w => expr_stands e w
  | .var name init, w =>
    ((stands_declare w name).trans (optional_stands init _)).trans (stands_define _ name)
  | .block body, w => by
    have hbody := stmts_stands body w.enter
    exact .same (scopes_leave hbody.outside) ((functions_leave _).trans hbody.functions)
  | .branch condition yes none, w => (expr_stands condition w).trans (stmt_stands yes _)
  | .branch condition yes (some no), w =>
    ((expr_stands condition w).trans (stmt_stands yes _)).trans (stmt_stands no _)
  | .loop condition body, w => (expr_stands condition w).trans (stmt_stands body _)
  | .function name params body, w => by
    let declared := (w.declare name).define name
    have hdeclared : Stands w declared := (stands_declare w name).trans (stands_define _ name)
    have hbody := (params_stands params declared.enterFunction).trans (stmts_stands body _)
    -- The walk counts one function more in the body, and one less when it comes out.
    have hcount := congrArg (· - 1) hbody.functions
    exact hdeclared.trans (.same (scopes_leave hbody.outside) hcount)
  | .ret _ value, w => (stands_unless w _ _).trans (optional_stands value _)

theorem stmts_stands : ∀ (sts : List Stmt) (w : Walk), Stands w (stmts sts w)
  | [], w => .refl w
  | st :: rest, w => (stmt_stands st w).trans (stmts_stands rest _)

end

/-- Of a tree as the grammar builds it a statement leaves the scopes as it found them, but for the
name that it declares. -/
theorem scopes_stmt {st : Stmt} (h : Shape.stmt st) (w : Walk) :
    (stmt st w).scopes = w.scopes.behind st := (stmt_walked [] st w h).scopes

end Binding

end Scriptlet

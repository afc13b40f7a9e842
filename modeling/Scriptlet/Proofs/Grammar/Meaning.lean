import Scriptlet.Eval.Operator
import Scriptlet.Proofs.Grammar.Parametric

/-!
# What the trees of texts are like

The grammar lets an operator stand between two operands only if arithmetic or a comparison has a
meaning for it, and takes its literals from tokens (`Built`). It gives new serials to references.
This holds of every tree that is read, of those too that are left of a text with issues
(`Program.read_grown`).
-/

namespace Scriptlet

open Grammar (isBinary)

/-! ## Operators and literals -/

namespace Built

variable (P : Literal → Prop)

mutual

/-- Every operator with two operands, both of which are evaluated, has a meaning, and the literals
satisfy a condition. -/
def expr : Expr → Prop
  | .literal l => P l
  | .ref _ _ => True
  | .assign _ value _ => expr value
  | .binary lhs op rhs => isBinary op.kind = true ∧ expr lhs ∧ expr rhs
  | .logical lhs _ rhs => expr lhs ∧ expr rhs
  | .unary _ arg => expr arg
  | .grouping inner => expr inner
  | .call callee _ args => expr callee ∧ exprs args

/-- The same of all expressions of a list. -/
def exprs : List Expr → Prop
  | [] => True
  | e :: rest => expr e ∧ exprs rest

end

/-- The same of an expression, if there is one. -/
def optional : Option Expr → Prop
  | none => True
  | some e => expr P e

mutual

/-- The same of all expressions of a statement. -/
def stmt : Stmt → Prop
  | .expr e | .print _ e => expr P e
  | .var _ init => optional P init
  | .block body => stmts body
  | .branch condition yes none => expr P condition ∧ stmt yes
  | .branch condition yes (some no) => expr P condition ∧ stmt yes ∧ stmt no
  | .loop condition body => expr P condition ∧ stmt body
  | .function _ _ body => stmts body
  | .ret _ value => optional P value

/-- The same of all statements of a list. -/
def stmts : List Stmt → Prop
  | [] => True
  | st :: rest => stmt st ∧ stmts rest

end

variable {P}

theorem exprs_iff {es : List Expr} : exprs P es ↔ ∀ e ∈ es, expr P e := by
  induction es with
  | nil => exact ⟨fun _ => List.forall_mem_nil _, fun _ => trivial⟩
  | cons e rest ih => rw [List.forall_mem_cons, ← ih, exprs]

theorem stmts_iff {sts : List Stmt} : stmts P sts ↔ ∀ st ∈ sts, stmt P st := by
  induction sts with
  | nil => exact ⟨fun _ => List.forall_mem_nil _, fun _ => trivial⟩
  | cons st rest ih => rw [List.forall_mem_cons, ← ih, stmts]

end Built

/-- An operator with a meaning has a result or crashes. -/
theorem Operator.binary_ne_fault {op : Token} (h : isBinary op.kind = true) (a b : Value)
    (f : Fault) : Operator.binary op a b ≠ .error (.fault f) := by
  have hplus : Operator.plus op a b ≠ .error (.fault f) := by
    cases a <;> cases b <;> exact fun h => nomatch h
  intro hfault
  unfold binary at hfault
  split at hfault
  · cases hfault
  · cases hfault
  · exact hplus hfault
  · split at hfault
    · unfold arithmetic at hfault
      split at hfault <;> try cases hfault
      simp_all [isBinary, Grammar.productLevel, Grammar.sumLevel, Grammar.comparisonLevel,
        Grammar.equalityLevel]
    · cases hfault

/-! ## Serials -/

namespace Serials

theorem mem_exprs {k : Nat} {es : List Expr} : k ∈ exprs es ↔ ∃ e ∈ es, k ∈ expr e := by
  induction es with
  | nil => simp [exprs]
  | cons e rest ih => simp [exprs, ih]

theorem mem_stmts {k : Nat} {sts : List Stmt} : k ∈ stmts sts ↔ ∃ st ∈ sts, k ∈ stmt st := by
  induction sts with
  | nil => simp [stmts]
  | cons st rest ih => simp [stmts, ih]

end Serials

namespace Grammar

/-! ## Grown trees -/

variable {P : Literal → Prop} {start : Nat}

/-- An expression as the grammar builds it, with serials from some number on. -/
structure GrownExpr (P : Literal → Prop) (start : Nat) (e : Expr) : Prop where
  built : Built.expr P e
  serials : ∀ k ∈ Serials.expr e, start ≤ k

/-- A statement as the grammar builds it, with serials from some number on. -/
structure GrownStmt (P : Literal → Prop) (start : Nat) (st : Stmt) : Prop where
  built : Built.stmt P st
  shape : Shape.stmt st
  serials : ∀ k ∈ Serials.stmt st, start ≤ k

/-- The same trees that satisfy a condition. -/
def Same {α : Type} (Q : α → Prop) (a a' : α) : Prop := a' = a ∧ Q a

theorem Same.list {α : Type} {Q : α → Prop} {l l' : List α} (h : List.Forall₂ (Same Q) l l') :
    l' = l ∧ ∀ a ∈ l, Q a := by
  induction h with
  | nil => exact ⟨rfl, List.forall_mem_nil _⟩
  | cons ha _ ih =>
    obtain ⟨rfl, ha⟩ := ha
    obtain ⟨rfl, hl⟩ := ih
    exact ⟨rfl, List.forall_mem_cons.2 ⟨ha, hl⟩⟩

theorem Same.option {α : Type} {Q : α → Prop} {o o' : Option α} (h : Option.Rel (Same Q) o o') :
    o' = o ∧ ∀ a ∈ o, Q a := by
  cases h with
  | none => exact ⟨rfl, nofun⟩
  | some ha =>
    obtain ⟨rfl, ha⟩ := ha
    exact ⟨rfl, fun _ hb => Option.mem_some_iff.1 hb ▸ ha⟩

theorem GrownExpr.optional {o : Option Expr} (h : ∀ e ∈ o, GrownExpr P start e) :
    Built.optional P o ∧ ∀ k ∈ Serials.optional o, start ≤ k := by
  cases o with
  | none => exact ⟨trivial, List.forall_mem_nil _⟩
  | some e => exact ⟨(h e rfl).built, (h e rfl).serials⟩

theorem GrownStmt.all {sts : List Stmt} (h : ∀ st ∈ sts, GrownStmt P start st) :
    Built.stmts P sts ∧ Shape.stmts sts ∧ ∀ k ∈ Serials.stmts sts, start ≤ k := by
  have hshape : Shape.stmts sts := by
    induction sts with
    | nil => exact trivial
    | cons st rest ih =>
      obtain ⟨hst, hrest⟩ := List.forall_mem_cons.1 h
      exact ⟨hst.shape, ih hrest⟩
  refine ⟨Built.stmts_iff.2 fun st hst => (h st hst).built, hshape, fun k hk => ?_⟩
  obtain ⟨st, hst, hk⟩ := Serials.mem_stmts.1 hk
  exact (h st hst).serials k hk

/-- Every rule of the grammar keeps to grown trees. -/
def Rules.grown (P : Literal → Prop) (start : Nat) (hbool : ∀ b, P (.bool b)) (hnil : P .nil) :
    Rules where
  token t := t.kind = .number ∨ t.kind = .string → P t.literal
  serial k k' := Same (start ≤ ·) k k'
  expr := Same (GrownExpr P start)
  stmt := Same (GrownStmt P start)
  succ := by
    rintro k _ ⟨rfl, h⟩
    exact ⟨rfl, Nat.le_succ_of_le h⟩
  bool b := ⟨rfl, hbool b, List.forall_mem_nil _⟩
  nil := ⟨rfl, hnil, List.forall_mem_nil _⟩
  literal ht hkind := ⟨rfl, ht hkind, List.forall_mem_nil _⟩
  ref := by
    rintro t k _ - ⟨rfl, h⟩
    exact ⟨rfl, trivial, List.forall_mem_singleton.2 h⟩
  target := by
    rintro e _ t k ⟨rfl, -⟩
    exact ⟨fun h => ⟨k, h⟩, fun h => ⟨k, h⟩⟩
  assign := by
    rintro t i i' k _ e _ hi ⟨rfl, h⟩ ⟨rfl, hk⟩
    exact ⟨rfl, h.built, List.forall_mem_append.2 ⟨h.serials, List.forall_mem_singleton.2 hk⟩⟩
  binary := by
    rintro t lhs _ rhs _ ⟨rfl, hl⟩ - hop ⟨rfl, hr⟩
    exact ⟨rfl, ⟨hop, hl.built, hr.built⟩, List.forall_mem_append.2 ⟨hl.serials, hr.serials⟩⟩
  logical := by
    rintro t lhs _ rhs _ ⟨rfl, hl⟩ - - ⟨rfl, hr⟩
    exact ⟨rfl, ⟨hl.built, hr.built⟩, List.forall_mem_append.2 ⟨hl.serials, hr.serials⟩⟩
  unary := by
    rintro t e _ - - ⟨rfl, h⟩
    exact ⟨rfl, h.built, h.serials⟩
  grouping := by
    rintro e _ ⟨rfl, h⟩
    exact ⟨rfl, h.built, h.serials⟩
  call := by
    rintro t f _ es es' ⟨rfl, hf⟩ - hes
    obtain ⟨rfl, hes⟩ := Same.list hes
    refine ⟨rfl, ⟨hf.built, Built.exprs_iff.2 fun e he => (hes e he).built⟩, ?_⟩
    refine List.forall_mem_append.2 ⟨hf.serials, fun k hk => ?_⟩
    obtain ⟨e, he, hk⟩ := Serials.mem_exprs.1 hk
    exact (hes e he).serials k hk
  simple := by
    rintro e _ ⟨rfl, h⟩
    exact ⟨rfl, h.built, trivial, h.serials⟩
  print := by
    rintro t e _ - ⟨rfl, h⟩
    exact ⟨rfl, h.built, trivial, h.serials⟩
  var := by
    rintro t e e' - he
    obtain ⟨rfl, he⟩ := Same.option he
    obtain ⟨hbuilt, hserials⟩ := GrownExpr.optional he
    exact ⟨rfl, hbuilt, trivial, hserials⟩
  block := by
    rintro sts sts' h
    obtain ⟨rfl, h⟩ := Same.list h
    obtain ⟨hbuilt, hshape, hserials⟩ := GrownStmt.all h
    exact ⟨rfl, hbuilt, hshape, hserials⟩
  branch := by
    rintro e _ yes _ ⟨rfl, he⟩ ⟨rfl, hyes⟩ hplain
    exact ⟨rfl, ⟨he.built, hyes.built⟩, ⟨hyes.shape, hplain⟩,
      List.forall_mem_append.2 ⟨he.serials, hyes.serials⟩⟩
  branchElse := by
    rintro e _ yes _ no _ ⟨rfl, he⟩ ⟨rfl, hyes⟩ hplain ⟨rfl, hno⟩ hplain'
    exact ⟨rfl, ⟨he.built, hyes.built, hno.built⟩, ⟨⟨hyes.shape, hplain⟩, hno.shape, hplain'⟩,
      List.forall_mem_append.2 ⟨he.serials, List.forall_mem_append.2 ⟨hyes.serials, hno.serials⟩⟩⟩
  loop := by
    rintro e _ st _ ⟨rfl, he⟩ ⟨rfl, hst⟩ hplain
    exact ⟨rfl, ⟨he.built, hst.built⟩, ⟨hst.shape, hplain⟩,
      List.forall_mem_append.2 ⟨he.serials, hst.serials⟩⟩
  function := by
    rintro t ps sts sts' - - h
    obtain ⟨rfl, h⟩ := Same.list h
    obtain ⟨hbuilt, hshape, hserials⟩ := GrownStmt.all h
    exact ⟨rfl, hbuilt, hshape, hserials⟩
  ret := by
    rintro t e e' - he
    obtain ⟨rfl, he⟩ := Same.option he
    obtain ⟨hbuilt, hserials⟩ := GrownExpr.optional he
    exact ⟨rfl, hbuilt, trivial, hserials⟩

/-- **What is read is grown.** It does not matter whether the tokens fit the grammar. -/
theorem Program.read_grown (hbool : ∀ b, P (.bool b)) (hnil : P .nil) (depth k : Nat)
    {tokens : List Token} (stop : Token)
    (htokens : ∀ t ∈ tokens, t.kind = .number ∨ t.kind = .string → P t.literal) :
    ∀ st ∈ (read depth k tokens stop).statements, GrownStmt P k st :=
  (Same.list (read_kept (.grown P k hbool hnil) htokens ⟨rfl, Nat.le_refl k⟩).statements).2

end Grammar

end Scriptlet

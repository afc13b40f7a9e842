import Mathlib.Data.List.Basic
import Mathlib.Data.List.Nodup
import Scriptlet.Tree.Basic

/-!
# Well-formed trees

Two things that hold of every tree that the grammar builds, though not of every tree.

**Shape.** Only the statements of a block, of a function and of a program declare names; the
branches of a branch and the body of a loop do not (`Shape.stmt`). So it depends on the text alone,
and not on the run, which names a scope holds behind a statement.

**Serials.** No two references have the same serial, so a serial is an identity
(`Wellformed.serials`).
-/

namespace Scriptlet

/-- The name that a statement declares in the scope that it stands in. -/
def Stmt.declares? : Stmt → Option Token
  | .var name _ => some name
  | .function name _ _ => some name
  | _ => none

/-! ## Shape -/

namespace Shape

mutual

/-- Branches and the bodies of loops declare no names. -/
def stmt : Stmt → Prop
  | .expr _ | .print _ _ | .var _ _ | .ret _ _ => True
  | .block body => stmts body
  | .branch _ yes none => stmt yes ∧ yes.declares? = none
  | .branch _ yes (some no) =>
    (stmt yes ∧ yes.declares? = none) ∧ stmt no ∧ no.declares? = none
  | .loop _ body => stmt body ∧ body.declares? = none
  | .function _ _ body => stmts body

/-- The same of all statements of a list. -/
def stmts : List Stmt → Prop
  | [] => True
  | st :: rest => stmt st ∧ stmts rest

end

theorem stmts_append_iff {sts sts' : List Stmt} :
    stmts (sts ++ sts') ↔ stmts sts ∧ stmts sts' := by
  induction sts with
  | nil => exact (and_iff_right trivial).symm
  | cons st rest ih => exact (and_congr_right' ih).trans and_assoc.symm

theorem stmts_append {sts sts' : List Stmt} (h : stmts sts) (h' : stmts sts') :
    stmts (sts ++ sts') := stmts_append_iff.2 ⟨h, h'⟩

theorem stmt_of_mem {st : Stmt} {sts : List Stmt} (h : stmts sts) (hst : st ∈ sts) : stmt st := by
  induction sts with
  | nil => exact absurd hst List.not_mem_nil
  | cons st' rest ih =>
    rcases List.mem_cons.1 hst with rfl | hst
    · exact h.1
    · exact ih h.2 hst

theorem stmts_of_append {st : Stmt} {sts sts' : List Stmt} (h : stmts (sts ++ st :: sts')) :
    stmt st ∧ stmts sts' := (stmts_append_iff.1 h).2

end Shape

/-! ## Serials -/

namespace Serials

mutual

/-- The serials of the references of an expression. -/
def expr : Expr → List Nat
  | .literal _ => []
  | .ref _ serial => [serial]
  | .assign _ value serial => expr value ++ [serial]
  | .binary lhs _ rhs | .logical lhs _ rhs => expr lhs ++ expr rhs
  | .unary _ arg => expr arg
  | .grouping inner => expr inner
  | .call callee _ args => expr callee ++ exprs args

/-- The serials of the references of expressions. -/
def exprs : List Expr → List Nat
  | [] => []
  | e :: rest => expr e ++ exprs rest

end

/-- The serials of the references of an expression, if there is one. -/
def optional : Option Expr → List Nat
  | none => []
  | some e => expr e

mutual

/-- The serials of the references of a statement. -/
def stmt : Stmt → List Nat
  | .expr e | .print _ e => expr e
  | .var _ init => optional init
  | .block body => stmts body
  | .branch condition yes none => expr condition ++ stmt yes
  | .branch condition yes (some no) => expr condition ++ (stmt yes ++ stmt no)
  | .loop condition body => expr condition ++ stmt body
  | .function _ _ body => stmts body
  | .ret _ value => optional value

/-- The serials of the references of statements. -/
def stmts : List Stmt → List Nat
  | [] => []
  | st :: rest => stmt st ++ stmts rest

end

theorem stmts_append (sts sts' : List Stmt) : stmts (sts ++ sts') = stmts sts ++ stmts sts' := by
  induction sts with
  | nil => rfl
  | cons st rest ih =>
    show stmt st ++ stmts (rest ++ sts') = _
    rw [ih, ← List.append_assoc]
    rfl

/-- Different serials from `k` on and below `k'`. -/
structure Between (k k' : Nat) (serials : List Nat) : Prop where
  nodup : serials.Nodup
  le : k ≤ k'
  low : ∀ i ∈ serials, k ≤ i
  high : ∀ i ∈ serials, i < k'

variable {k k' k'' : Nat} {l l' : List Nat}

theorem Between.nil (h : k ≤ k') : Between k k' [] := ⟨List.nodup_nil, h, nofun, nofun⟩

theorem Between.one (k : Nat) : Between k (k + 1) [k] := by
  refine ⟨List.nodup_singleton k, Nat.le_succ k, fun i hi => ?_, fun i hi => ?_⟩
  · exact Nat.le_of_eq (List.mem_singleton.1 hi).symm
  · rw [List.mem_singleton.1 hi]
    exact Nat.lt_succ_self k

theorem Between.widen {k₀ : Nat} (h : Between k k' l) (hle : k₀ ≤ k) : Between k₀ k' l :=
  ⟨h.nodup, Nat.le_trans hle h.le, fun i hi => Nat.le_trans hle (h.low i hi), h.high⟩

theorem Between.append (h : Between k k' l) (h' : Between k' k'' l') :
    Between k k'' (l ++ l') := by
  refine ⟨List.nodup_append.2 ⟨h.nodup, h'.nodup, ?_⟩, Nat.le_trans h.le h'.le, ?_, ?_⟩
  · intro i hi j hj heq
    have hlow := h'.low j hj
    have hhigh := h.high i hi
    omega
  · intro i hi
    rcases List.mem_append.1 hi with hi | hi
    · exact h.low i hi
    · exact Nat.le_trans h.le (h'.low i hi)
  · intro i hi
    rcases List.mem_append.1 hi with hi | hi
    · exact Nat.lt_of_lt_of_le (h.high i hi) h'.le
    · exact h'.high i hi

theorem Between.swap (h : Between k k' (l ++ l')) : Between k k' (l' ++ l) := by
  have hmem : ∀ i, i ∈ l' ++ l → i ∈ l ++ l' := fun i hi =>
    List.mem_append.2 (List.mem_append.1 hi).symm
  exact ⟨List.nodup_append_comm.1 h.nodup, h.le, fun i hi => h.low i (hmem i hi),
    fun i hi => h.high i (hmem i hi)⟩

end Serials

/-- What holds of the trees of the grammar. -/
structure Wellformed (program : List Stmt) : Prop where
  shape : Shape.stmts program
  serials : (Serials.stmts program).Nodup

end Scriptlet

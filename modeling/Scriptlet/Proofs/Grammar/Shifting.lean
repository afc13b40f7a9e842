import Scriptlet.Proofs.Grammar.Parametric
import Scriptlet.Proofs.Tree.Relabeling

/-!
# Reading with other serials

What a reading begins with for a serial matters for nothing else: from another serial on, the same
tokens have the same issues, and the same tree with all serials shifted (`Program.read_shifted`).
-/

namespace Scriptlet.Grammar

/-- The relabeling that adds a number to all serials. -/
def shift (d : Nat) : Relabeling := .keeping (· + d)

theorem exprs_of_forall₂ {d : Nat} {es es' : List Expr}
    (h : List.Forall₂ (fun e e' => e' = (shift d).expr e) es es') : es' = (shift d).exprs es := by
  induction h with
  | nil => rfl
  | cons he _ ih => exact congrArg₂ List.cons he ih

theorem stmts_of_forall₂ {d : Nat} {sts sts' : List Stmt}
    (h : List.Forall₂ (fun st st' => st' = (shift d).stmt st) sts sts') :
    sts' = (shift d).stmts sts := by
  induction h with
  | nil => rfl
  | cons hst _ ih => exact congrArg₂ List.cons hst ih

theorem option_of_rel {d : Nat} {o o' : Option Expr}
    (h : Option.Rel (fun e e' => e' = (shift d).expr e) o o') : o' = o.map (shift d).expr := by
  cases h with
  | none => rfl
  | some he => exact congrArg some he

/-- Every rule of the grammar keeps a shift of serials. -/
def Rules.shifting (d : Nat) : Rules where
  token _ := True
  serial k k' := k' = k + d
  expr e e' := e' = (shift d).expr e
  stmt st st' := st' = (shift d).stmt st
  succ h := by omega
  bool _ := rfl
  nil := rfl
  literal _ _ := rfl
  ref := by
    rintro t k _ - rfl
    rfl
  target := by
    rintro e _ t k rfl
    refine ⟨?_, fun h => ?_⟩
    · rintro rfl
      exact ⟨k + d, rfl⟩
    · cases e <;> cases h
      exact ⟨_, rfl⟩
  assign := by
    rintro t i i' k _ e _ - rfl rfl
    rfl
  binary := by
    rintro t lhs _ rhs _ rfl - - rfl
    rfl
  logical := by
    rintro t lhs _ rhs _ rfl - - rfl
    rfl
  unary := by
    rintro t e _ - - rfl
    rfl
  grouping := by
    rintro e _ rfl
    rfl
  call := by
    rintro t f _ es es' rfl - hes
    rw [exprs_of_forall₂ hes]
    rfl
  simple := by
    rintro e _ rfl
    rfl
  print := by
    rintro t e _ - rfl
    rfl
  var := by
    rintro t e e' - he
    rw [option_of_rel he]
    rfl
  block := by
    rintro sts sts' h
    rw [stmts_of_forall₂ h]
    rfl
  branch := by
    rintro e _ yes _ rfl rfl -
    rfl
  branchElse := by
    rintro e _ yes _ no _ rfl rfl - rfl -
    rfl
  loop := by
    rintro e _ st _ rfl rfl -
    rfl
  function := by
    rintro t ps sts sts' - - h
    rw [stmts_of_forall₂ h]
    exact congrArg (Stmt.function t · _) (List.map_id ps).symm
  ret := by
    rintro t e e' - he
    rw [option_of_rel he]
    rfl

/-- **Serials are only shifted.** -/
theorem Program.read_shifted (depth k d : Nat) (tokens : List Token) (stop : Token) :
    read depth (k + d) tokens stop =
      ⟨(shift d).stmts (read depth k tokens stop).statements, (read depth k tokens stop).issues,
        (read depth k tokens stop).serial + d⟩ := by
  have hrelated : (read depth k tokens stop).Related (.shifting d)
      (read depth (k + d) tokens stop) := read_kept (.shifting d) (fun _ _ => trivial) rfl
  obtain ⟨hstatements, hissues, hserial⟩ := hrelated
  change (read depth (k + d) tokens stop).serial = _ at hserial
  rw [← stmts_of_forall₂ hstatements, ← hissues, ← hserial]

end Scriptlet.Grammar

import Scriptlet.Proofs.Grammar.Derivation
import Scriptlet.Proofs.Tree.Wellformed

/-!
# The trees of derivations are well-formed

The two parts of well-formedness, by going through the rules of the grammar. The serials of a tree
lie between the two that its derivation names (`Declarations.between`); they are all different
because each rule passes the next serial on from part to part.
-/

namespace Scriptlet.Grammar

open Serials (Between)

variable {n k k' : Nat} {ts : List Token}

/-! ## Shape -/

theorem Variable.shape {st : Stmt} (h : Variable n k ts st k') : Shape.stmt st := by
  cases h <;> exact trivial

theorem Simple.shape {st : Stmt} (h : Simple n k ts st k') :
    Shape.stmt st ∧ st.declares? = none := by
  cases h
  exact ⟨trivial, rfl⟩

theorem Start.shape {st : Option Stmt} (h : Start n k ts st k') : Shape.stmts st.toList := by
  cases h with
  | none _ => trivial
  | var _ hv => exact ⟨hv.shape, trivial⟩
  | simple hs => exact ⟨hs.shape.1, trivial⟩

theorem Shape.steps (step : Option Expr) : Shape.stmts (step.map Stmt.expr).toList := by
  cases step with
  | none => trivial
  | some e => exact ⟨trivial, trivial⟩

mutual

theorem Statement.shape {n k k' : Nat} {isOpen : Bool} {ts : List Token} {st : Stmt} :
    Statement n isOpen k ts st k' → Shape.stmt st ∧ st.declares? = none
  | .simple h => h.shape
  | .print _ _ _ => ⟨trivial, rfl⟩
  | .ret _ _ _ => ⟨trivial, rfl⟩
  | .block _ hb _ => ⟨hb.shape, rfl⟩
  | .loop _ _ _ _ hb => ⟨hb.shape, rfl⟩
  | .counted _ _ hs _ _ _ _ hb =>
    ⟨Shape.stmts_append hs.shape ⟨⟨⟨hb.shape.1, Shape.steps _⟩, rfl⟩, trivial⟩, rfl⟩
  | .branch _ _ _ _ hy => ⟨hy.shape, rfl⟩
  | .branchElse _ _ _ _ hy _ hn => ⟨⟨hy.shape, hn.shape⟩, rfl⟩

theorem Declared.shape {n k k' : Nat} {ts : List Token} {st : Stmt} :
    Declared n k ts st k' → Shape.stmt st
  | .function _ _ _ _ _ _ _ hb _ => hb.shape
  | .var _ hv => hv.shape
  | .statement h => h.shape.1

theorem Declarations.shape {n k k' : Nat} {ts : List Token} {sts : List Stmt} :
    Declarations n k ts sts k' → Shape.stmts sts
  | .nil => trivial
  | .cons hd h => ⟨hd.shape, h.shape⟩

end

/-! ## Serials -/

/-- What an operator builds has the serials of its operands, and no others. -/
def Operators.Joins (o : Operators) : Prop :=
  ∀ lhs op rhs, Serials.expr (o.build lhs op rhs) = Serials.expr lhs ++ Serials.expr rhs

theorem joins_precedence : ∀ o ∈ precedence, o.Joins := by
  intro o ho
  simp only [precedence, List.mem_cons, List.not_mem_nil, or_false] at ho
  rcases ho with rfl | rfl | rfl | rfl | rfl | rfl <;> exact fun _ _ _ => rfl

mutual

theorem Expression.between {n k k' : Nat} {ts : List Token} {e : Expr} :
    Expression n k ts e k' → Between k k' (Serials.expr e)
  | .assignment _ _ hv => (hv.between.widen (Nat.le_succ _)).append (.one _)
  | .operation ho => ho.between joins_precedence

theorem Operation.between {n k k' : Nat} {levels : List Operators} {ts : List Token} {e : Expr} :
    Operation n levels k ts e k' → (∀ o ∈ levels, o.Joins) → Between k k' (Serials.expr e)
  | .unary hu, _ => hu.between
  | .operands hl ho, hj =>
    ho.between (hj _ List.mem_cons_self) (fun o h => hj o (List.mem_cons_of_mem _ h))
      (hl.between fun o h => hj o (List.mem_cons_of_mem _ h))

/-- The serials of the left operand lie before those of the right ones. -/
theorem Operands.between {n k₀ k k' : Nat} {level : Operators} {tighter : List Operators}
    {lhs e : Expr} {ts : List Token} : Operands n level tighter lhs k ts e k' → level.Joins →
    (∀ o ∈ tighter, o.Joins) → Between k₀ k (Serials.expr lhs) → Between k₀ k' (Serials.expr e)
  | .nil, _, _, hlhs => hlhs
  | .cons _ hr hmore, hj, hjs, hlhs => by
    refine hmore.between hj hjs ?_
    rw [hj]
    exact hlhs.append (hr.between hjs)

theorem Unary.between {n k k' : Nat} {ts : List Token} {e : Expr} :
    Unary n k ts e k' → Between k k' (Serials.expr e)
  | .operator _ ha => ha.between
  | .calls hp hc => hc.between hp.between

/-- The serials of the callee lie before those of the arguments. -/
theorem Calls.between {n k₀ k k' : Nat} {callee e : Expr} {ts : List Token} :
    Calls n callee k ts e k' → Between k₀ k (Serials.expr callee) →
      Between k₀ k' (Serials.expr e)
  | .nil, hcallee => hcallee
  | .cons _ hargs _ _ hmore, hcallee => hmore.between (hcallee.append hargs.between)

theorem Arguments.between {n k k' : Nat} {ts : List Token} {args : List Expr} :
    Arguments n k ts args k' → Between k k' (Serials.exprs args)
  | .none => .nil (Nat.le_refl _)
  | .some h => h.between

theorem ArgumentList.between {n k k' : Nat} {ts : List Token} {args : List Expr} :
    ArgumentList n k ts args k' → Between k k' (Serials.exprs args)
  | .one he => he.between.append (.nil (Nat.le_refl _))
  | .more he _ hmore => he.between.append hmore.between

theorem Primary.between {n k k' : Nat} {ts : List Token} {e : Expr} :
    Primary n k ts e k' → Between k k' (Serials.expr e)
  | .false _ | .true _ | .nil _ | .literal _ => .nil (Nat.le_refl _)
  | .name _ => .one _
  | .grouping _ he _ => he.between

end

theorem Optional.between {e : Option Expr} (h : Optional n k ts e k') :
    Between k k' (Serials.optional e) := by
  cases h with
  | none => exact .nil (Nat.le_refl _)
  | some he => exact he.between

theorem Simple.between {st : Stmt} (h : Simple n k ts st k') :
    Between k k' (Serials.stmt st) := by
  cases h with
  | mk he _ => exact he.between

theorem Variable.between {st : Stmt} (h : Variable n k ts st k') :
    Between k k' (Serials.stmt st) := by
  cases h with
  | bare _ _ => exact .nil (Nat.le_refl _)
  | initialised _ _ he _ => exact he.between

theorem Start.between {st : Option Stmt} (h : Start n k ts st k') :
    Between k k' (Serials.stmts st.toList) := by
  cases h with
  | none _ => exact .nil (Nat.le_refl _)
  | var _ hv => exact hv.between.append (.nil (Nat.le_refl _))
  | simple hs => exact hs.between.append (.nil (Nat.le_refl _))

theorem serials_steps (step : Option Expr) :
    Serials.stmts (step.map Stmt.expr).toList = Serials.optional step := by
  cases step with
  | none => rfl
  | some e => exact List.append_nil _

theorem serials_condition (condition : Option Expr) :
    Serials.expr (condition.getD (.literal (.bool true))) = Serials.optional condition := by
  cases condition <;> rfl

mutual

theorem Statement.between {n k k' : Nat} {isOpen : Bool} {ts : List Token} {st : Stmt} :
    Statement n isOpen k ts st k' → Between k k' (Serials.stmt st)
  | .simple h => h.between
  | .print _ he _ => he.between
  | .ret _ ho _ => ho.between
  | .block _ hb _ => hb.between
  | .loop _ _ hc _ hb => hc.between.append hb.between
  | .counted _ _ hs hc _ hstep _ hb => by
    -- The step stands before the body in the text, and behind it in the tree.
    have hturn := (hstep.between.append hb.between).swap
    show Between _ _ (Serials.stmts (_ ++ [_]))
    rw [Serials.stmts_append]
    refine hs.between.append ?_
    show Between _ _ ((_ ++ (_ ++ Serials.stmts (Option.toList _))) ++ [])
    rw [List.append_nil, serials_steps, serials_condition]
    exact hc.between.append hturn
  | .branch _ _ hc _ hy => hc.between.append hy.between
  | .branchElse _ _ hc _ hy _ hn => hc.between.append (hy.between.append hn.between)

theorem Declared.between {n k k' : Nat} {ts : List Token} {st : Stmt} :
    Declared n k ts st k' → Between k k' (Serials.stmt st)
  | .function _ _ _ _ _ _ _ hb _ => hb.between
  | .var _ hv => hv.between
  | .statement h => h.between

theorem Declarations.between {n k k' : Nat} {ts : List Token} {sts : List Stmt} :
    Declarations n k ts sts k' → Between k k' (Serials.stmts sts)
  | .nil => .nil (Nat.le_refl _)
  | .cons hd h => hd.between.append h.between

end

/-- What derives from a program is well-formed. -/
theorem Declarations.wellformed {sts : List Stmt} (h : Declarations n k ts sts k') :
    Wellformed sts := ⟨h.shape, h.between.nodup⟩

end Scriptlet.Grammar

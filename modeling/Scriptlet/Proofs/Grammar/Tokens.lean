import Scriptlet.Proofs.Grammar.Derivation
import Scriptlet.Proofs.Tree.Tokens

/-!
# The tokens that a tree keeps

A tree keeps tokens of the text that it derives from, and no string is among them: of a string only
its value goes into the tree (`Declarations.mem_tokens`). So what holds of all tokens of a text but
its strings holds of the tokens of the tree, and this is what each rule of the grammar is asked for.
-/

namespace Scriptlet.Grammar

variable {P : Token → Prop}

/-- The tokens that are not strings satisfy a condition. -/
def Unquoted (P : Token → Prop) (ts : List Token) : Prop := ∀ t ∈ ts, t.kind ≠ .string → P t

namespace Unquoted

variable {t : Token} {ts ts' : List Token}

theorem tail (h : Unquoted P (t :: ts)) : Unquoted P ts :=
  fun t' ht' => h t' (List.mem_cons_of_mem _ ht')

theorem left (h : Unquoted P (ts ++ ts')) : Unquoted P ts :=
  fun t ht => h t (List.mem_append_left _ ht)

theorem right (h : Unquoted P (ts ++ ts')) : Unquoted P ts' :=
  fun t ht => h t (List.mem_append_right _ ht)

/-- A token of some other kind satisfies it. -/
theorem head (h : Unquoted P (t :: ts)) {kind : Kind} (hkind : t.kind = kind)
    (hne : kind ≠ .string) : P t := h t List.mem_cons_self (hkind ▸ hne)

end Unquoted

/-! ## Expressions -/

/-- An operator is no string, and what it builds has its token and those of its operands. -/
structure Operators.Keeps (o : Operators) : Prop where
  kinds : ∀ kind ∈ o.kinds, kind ≠ .string
  tokens : ∀ lhs op rhs,
    Tokens.expr (o.build lhs op rhs) = op :: (Tokens.expr lhs ++ Tokens.expr rhs)

theorem keeps_precedence : ∀ o ∈ precedence, o.Keeps := by
  intro o ho
  simp only [precedence, List.mem_cons, List.not_mem_nil, or_false] at ho
  rcases ho with rfl | rfl | rfl | rfl | rfl | rfl <;>
    exact ⟨by decide, fun _ _ _ => rfl⟩

mutual

theorem Expression.tokens {n k k' : Nat} {ts : List Token} {e : Expr} :
    Expression n k ts e k' → Unquoted P ts → ∀ t ∈ Tokens.expr e, P t
  | .assignment hname _ hvalue, h =>
    List.forall_mem_cons.2 ⟨h.head hname nofun, hvalue.tokens h.tail.tail⟩
  | .operation ho, h => ho.tokens keeps_precedence h

theorem Operation.tokens {n k k' : Nat} {levels : List Operators} {ts : List Token} {e : Expr} :
    Operation n levels k ts e k' → (∀ o ∈ levels, o.Keeps) → Unquoted P ts →
      ∀ t ∈ Tokens.expr e, P t
  | .unary hu, _, h => hu.tokens h
  | .operands hl ho, hlevels, h =>
    have ⟨hlevel, htighter⟩ := List.forall_mem_cons.1 hlevels
    ho.tokens hlevel htighter h.right (hl.tokens htighter h.left)

theorem Operands.tokens {n k k' : Nat} {level : Operators} {tighter : List Operators}
    {lhs e : Expr} {ts : List Token} : Operands n level tighter lhs k ts e k' → level.Keeps →
      (∀ o ∈ tighter, o.Keeps) → Unquoted P ts → (∀ t ∈ Tokens.expr lhs, P t) →
      ∀ t ∈ Tokens.expr e, P t
  | .nil, _, _, _, hlhs => hlhs
  | .cons hop hr hmore, hlevel, htighter, h, hlhs => by
    refine hmore.tokens hlevel htighter h.tail.right ?_
    rw [hlevel.tokens]
    exact List.forall_mem_cons.2 ⟨h.head rfl (hlevel.kinds _ hop),
      List.forall_mem_append.2 ⟨hlhs, hr.tokens htighter h.tail.left⟩⟩

theorem Unary.tokens {n k k' : Nat} {ts : List Token} {e : Expr} :
    Unary n k ts e k' → Unquoted P ts → ∀ t ∈ Tokens.expr e, P t
  | .operator hop ha, h => by
    refine List.forall_mem_cons.2 ⟨?_, ha.tokens h.tail⟩
    rcases hop with hop | hop <;> exact h.head hop nofun
  | .calls hp hc, h => hc.tokens h.right (hp.tokens h.left)

theorem Calls.tokens {n k k' : Nat} {callee e : Expr} {ts : List Token} :
    Calls n callee k ts e k' → Unquoted P ts → (∀ t ∈ Tokens.expr callee, P t) →
      ∀ t ∈ Tokens.expr e, P t
  | .nil, _, hcallee => hcallee
  | .cons _ hargs _ hright hmore, h, hcallee =>
    hmore.tokens h.tail.right.tail <| List.forall_mem_cons.2 ⟨h.tail.right.head hright nofun,
      List.forall_mem_append.2 ⟨hcallee, hargs.tokens h.tail.left⟩⟩

theorem Arguments.tokens {n k k' : Nat} {ts : List Token} {args : List Expr} :
    Arguments n k ts args k' → Unquoted P ts → ∀ t ∈ Tokens.exprs args, P t
  | .none, _ => List.forall_mem_nil _
  | .some hargs, h => hargs.tokens h

theorem ArgumentList.tokens {n k k' : Nat} {ts : List Token} {args : List Expr} :
    ArgumentList n k ts args k' → Unquoted P ts → ∀ t ∈ Tokens.exprs args, P t
  | .one he, h => List.forall_mem_append.2 ⟨he.tokens h, List.forall_mem_nil _⟩
  | .more he _ hmore, h =>
    List.forall_mem_append.2 ⟨he.tokens h.left, hmore.tokens h.right.tail⟩

theorem Primary.tokens {n k k' : Nat} {ts : List Token} {e : Expr} :
    Primary n k ts e k' → Unquoted P ts → ∀ t ∈ Tokens.expr e, P t
  | .false _, _ | .true _, _ | .nil _, _ | .literal _, _ => List.forall_mem_nil _
  | .name hname, h => List.forall_mem_singleton.2 (h.head hname nofun)
  | .grouping _ he _, h => he.tokens h.tail.left

end

/-! ## Statements -/

variable {n k k' : Nat} {ts : List Token}

theorem Optional.tokens {e : Option Expr} (he : Optional n k ts e k') (h : Unquoted P ts) :
    ∀ t ∈ Tokens.optional e, P t := by
  cases he with
  | none => exact List.forall_mem_nil _
  | some he => exact he.tokens h

theorem Simple.tokens {st : Stmt} (hst : Simple n k ts st k') (h : Unquoted P ts) :
    ∀ t ∈ Tokens.stmt st, P t := by
  cases hst with
  | mk he _ => exact he.tokens h.left

theorem Variable.tokens {st : Stmt} (hst : Variable n k ts st k') (h : Unquoted P ts) :
    ∀ t ∈ Tokens.stmt st, P t := by
  cases hst with
  | bare hname _ => exact List.forall_mem_singleton.2 (h.head hname nofun)
  | initialised hname _ he _ =>
    exact List.forall_mem_cons.2 ⟨h.head hname nofun, he.tokens h.tail.tail.left⟩

theorem Start.tokens {st : Option Stmt} (hst : Start n k ts st k') (h : Unquoted P ts) :
    ∀ st' ∈ st.toList, ∀ t ∈ Tokens.stmt st', P t := by
  cases hst with
  | none _ => exact List.forall_mem_nil _
  | var _ hv => exact List.forall_mem_singleton.2 (hv.tokens h.tail)
  | simple hs => exact List.forall_mem_singleton.2 (hs.tokens h)

theorem ParameterList.tokens {params : List Token} (hparams : ParameterList ts params)
    (h : Unquoted P ts) : ∀ t ∈ params, P t := by
  induction hparams with
  | one hname => exact List.forall_mem_singleton.2 (h.head hname nofun)
  | more hname _ _ ih => exact List.forall_mem_cons.2 ⟨h.head hname nofun, ih h.tail.tail⟩

theorem Parameters.tokens {params : List Token} (hparams : Parameters ts params)
    (h : Unquoted P ts) : ∀ t ∈ params, P t := by
  cases hparams with
  | none => exact List.forall_mem_nil _
  | some hparams => exact hparams.tokens h

/-- A loop with a header of three parts has their tokens and those of its body. -/
theorem tokens_countedLoop {start : Option Stmt} {condition step : Option Expr} {body : Stmt}
    (hstart : ∀ st ∈ start.toList, ∀ t ∈ Tokens.stmt st, P t)
    (hcondition : ∀ t ∈ Tokens.optional condition, P t)
    (hstep : ∀ t ∈ Tokens.optional step, P t) (hbody : ∀ t ∈ Tokens.stmt body, P t) :
    ∀ t ∈ Tokens.stmt (.countedLoop start condition step body), P t := by
  rw [Tokens.stmt_countedLoop]
  refine List.forall_mem_append.2 ⟨fun t ht => ?_, List.forall_mem_append.2
    ⟨hcondition, List.forall_mem_append.2 ⟨hbody, hstep⟩⟩⟩
  obtain ⟨st, hst, ht⟩ := Tokens.mem_stmts.1 ht
  exact hstart st hst t ht

mutual

theorem Statement.tokens {n k k' : Nat} {isOpen : Bool} {ts : List Token} {st : Stmt} :
    Statement n isOpen k ts st k' → Unquoted P ts → ∀ t ∈ Tokens.stmt st, P t
  | .simple hst, h => hst.tokens h
  | .print hword he _, h =>
    List.forall_mem_cons.2 ⟨h.head hword nofun, he.tokens h.tail.left⟩
  | .ret hword hvalue _, h =>
    List.forall_mem_cons.2 ⟨h.head hword nofun, hvalue.tokens h.tail.left⟩
  | .block _ hbody _, h => hbody.tokens h.tail.left
  | .loop _ _ hcondition _ hbody, h =>
    List.forall_mem_append.2 ⟨hcondition.tokens h.tail.tail.left,
      hbody.tokens h.tail.tail.right.tail⟩
  | .counted _ _ hstart hcondition _ hstep _ hbody, h =>
    have h := h.tail.tail
    have h' := h.right.right.tail
    tokens_countedLoop (hstart.tokens h.left) (hcondition.tokens h.right.left)
      (hstep.tokens h'.left) (hbody.tokens h'.right.tail)
  | .branch _ _ hcondition _ hyes, h =>
    List.forall_mem_append.2 ⟨hcondition.tokens h.tail.tail.left,
      hyes.tokens h.tail.tail.right.tail⟩
  | .branchElse _ _ hcondition _ hyes _ hno, h =>
    have h' := h.tail.tail.right.tail
    List.forall_mem_append.2 ⟨hcondition.tokens h.tail.tail.left,
      List.forall_mem_append.2 ⟨hyes.tokens h'.left, hno.tokens h'.right.tail⟩⟩

theorem Declared.tokens {n k k' : Nat} {ts : List Token} {st : Stmt} :
    Declared n k ts st k' → Unquoted P ts → ∀ t ∈ Tokens.stmt st, P t
  | .function _ hname _ hparams _ _ _ hbody _, h =>
    have h' := h.tail.tail.tail
    List.forall_mem_cons.2 ⟨h.tail.head hname nofun, List.forall_mem_append.2
      ⟨hparams.tokens h'.left, hbody.tokens h'.right.tail.tail.left⟩⟩
  | .var _ hv, h => hv.tokens h.tail
  | .statement hst, h => hst.tokens h

theorem Declarations.tokens {n k k' : Nat} {ts : List Token} {sts : List Stmt} :
    Declarations n k ts sts k' → Unquoted P ts → ∀ t ∈ Tokens.stmts sts, P t
  | .nil, _ => List.forall_mem_nil _
  | .cons hd hmore, h => List.forall_mem_append.2 ⟨hd.tokens h.left, hmore.tokens h.right⟩

end

/-- **The tokens of a tree** stand in what it derives from, and are no strings. -/
theorem Declarations.mem_tokens {sts : List Stmt} (h : Declarations n k ts sts k') :
    ∀ t ∈ Tokens.stmts sts, t ∈ ts ∧ t.kind ≠ .string :=
  h.tokens fun _ ht hkind => ⟨ht, hkind⟩

end Scriptlet.Grammar

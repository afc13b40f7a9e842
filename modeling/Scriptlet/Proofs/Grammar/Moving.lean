import Scriptlet.Proofs.Grammar.Derivation
import Scriptlet.Proofs.Tree.Alike

/-!
# Derivations of other tokens

When tokens are replaced by others of the same kinds and literals, what derived from them derives
as before, and the tree is alike (`Declarations.carried`). The likeness must be plain: names stay
the same, and what is known of a token without a mark is known of it under every mark.
-/

namespace Scriptlet

/-- Tokens without a mark are as good under every mark, and have the same literal. -/
structure Likeness.Plain (K : Likeness) : Prop where
  named : ∀ {b : Bool} {t t' : Token}, K.token false t t' → K.Named b t t'
  literal : ∀ {t t' : Token}, K.token false t t' → t'.literal = t.literal

namespace Grammar

variable {K : Likeness} {f : Token → Token}

/-- Every token is carried to one that is related. -/
def Carried (K : Likeness) (f : Token → Token) (ts : List Token) : Prop :=
  ∀ t ∈ ts, K.token false t (f t)

namespace Carried

variable {t : Token} {ts ts' : List Token}

theorem head (h : Carried K f (t :: ts)) : K.token false t (f t) := h t List.mem_cons_self

theorem tail (h : Carried K f (t :: ts)) : Carried K f ts :=
  fun t' ht' => h t' (List.mem_cons_of_mem _ ht')

theorem left (h : Carried K f (ts ++ ts')) : Carried K f ts :=
  fun t ht => h t (List.mem_append_left _ ht)

theorem right (h : Carried K f (ts ++ ts')) : Carried K f ts' :=
  fun t ht => h t (List.mem_append_right _ ht)

theorem kind (h : Carried K f (t :: ts)) {kind : Kind} (hkind : t.kind = kind) :
    (f t).kind = kind := (K.kind h.head).trans hkind

end Carried

/-! ## Expressions -/

/-- What an operator builds of expressions that are alike is alike. -/
def Operators.Carries (K : Likeness) (o : Operators) : Prop :=
  ∀ {marks : List Bool} {lhs lhs' rhs rhs' : Expr} {op op' : Token}, Expr.Alike K marks lhs lhs' →
    K.token false op op' → Expr.Alike K marks rhs rhs' →
    Expr.Alike K marks (o.build lhs op rhs) (o.build lhs' op' rhs')

theorem carries_precedence : ∀ o ∈ precedence, o.Carries K := by
  intro o ho
  simp only [precedence, List.mem_cons, List.not_mem_nil, or_false] at ho
  rcases ho with rfl | rfl | rfl | rfl | rfl | rfl
  · exact .logical
  · exact .logical
  all_goals exact .binary

mutual

theorem Expression.carried (hK : K.Plain) (marks : List Bool) {n k k' : Nat} {ts : List Token}
    {e : Expr} : Expression n k ts e k' → Carried K f ts →
      ∃ e', Expression n k (ts.map f) e' k' ∧ Expr.Alike K marks e e'
  | .assignment hname hequals hvalue, hts => by
    obtain ⟨value', hvalue', hv⟩ := hvalue.carried hK marks hts.tail.tail
    exact ⟨_, .assignment (hts.kind hname) (hts.tail.kind hequals) hvalue',
      .assign (hK.named hts.head) hv⟩
  | .operation ho, hts => by
    obtain ⟨e', ho', he⟩ := ho.carried hK marks carries_precedence hts
    exact ⟨e', .operation ho', he⟩

theorem Operation.carried (hK : K.Plain) (marks : List Bool) {n k k' : Nat}
    {levels : List Operators} {ts : List Token} {e : Expr} :
    Operation n levels k ts e k' → (∀ o ∈ levels, o.Carries K) → Carried K f ts →
      ∃ e', Operation n levels k (ts.map f) e' k' ∧ Expr.Alike K marks e e'
  | .unary hu, _, hts => by
    obtain ⟨e', hu', he⟩ := hu.carried hK marks hts
    exact ⟨e', .unary hu', he⟩
  | .operands hl ho, hlevels, hts => by
    obtain ⟨hlevel, htighter⟩ := List.forall_mem_cons.1 hlevels
    obtain ⟨lhs', hl', hlhs⟩ := hl.carried hK marks htighter hts.left
    obtain ⟨e', ho', he⟩ := ho.carried hK marks hlevel htighter hts.right hlhs
    rw [List.map_append]
    exact ⟨e', .operands hl' ho', he⟩

theorem Operands.carried (hK : K.Plain) (marks : List Bool) {n k k' : Nat} {level : Operators}
    {tighter : List Operators} {lhs lhs' e : Expr} {ts : List Token} :
    Operands n level tighter lhs k ts e k' → level.Carries K → (∀ o ∈ tighter, o.Carries K) →
      Carried K f ts → Expr.Alike K marks lhs lhs' →
      ∃ e', Operands n level tighter lhs' k (ts.map f) e' k' ∧ Expr.Alike K marks e e'
  | .nil, _, _, _, hlhs => ⟨lhs', .nil, hlhs⟩
  | .cons hop hr hmore, hlevel, htighter, hts, hlhs => by
    obtain ⟨rhs', hr', hrhs⟩ := hr.carried hK marks htighter hts.tail.left
    obtain ⟨e', hmore', he⟩ := hmore.carried hK marks hlevel htighter hts.tail.right
      (hlevel hlhs hts.head hrhs)
    rw [List.map_cons, List.map_append]
    refine ⟨e', .cons ?_ hr' hmore', he⟩
    rw [K.kind hts.head]
    exact hop

theorem Unary.carried (hK : K.Plain) (marks : List Bool) {n k k' : Nat} {ts : List Token}
    {e : Expr} : Unary n k ts e k' → Carried K f ts →
      ∃ e', Unary n k (ts.map f) e' k' ∧ Expr.Alike K marks e e'
  | .operator hop harg, hts => by
    obtain ⟨arg', harg', ha⟩ := harg.carried hK marks hts.tail
    refine ⟨_, .operator ?_ harg', .unary hts.head ha⟩
    rw [K.kind hts.head]
    exact hop
  | .calls hp hc, hts => by
    obtain ⟨callee', hp', hcallee⟩ := hp.carried hK marks hts.left
    obtain ⟨e', hc', he⟩ := hc.carried hK marks hts.right hcallee
    rw [List.map_append]
    exact ⟨e', .calls hp' hc', he⟩

theorem Calls.carried (hK : K.Plain) (marks : List Bool) {n k k' : Nat} {callee callee' e : Expr}
    {ts : List Token} : Calls n callee k ts e k' → Carried K f ts →
      Expr.Alike K marks callee callee' →
      ∃ e', Calls n callee' k (ts.map f) e' k' ∧ Expr.Alike K marks e e'
  | .nil, _, hcallee => ⟨callee', .nil, hcallee⟩
  | .cons hleft hargs hlen hright hmore, hts, hcallee => by
    obtain ⟨args', hargs', ha⟩ := hargs.carried hK marks hts.tail.left
    have hright' := hts.tail.right
    obtain ⟨e', hmore', he⟩ := hmore.carried hK marks hright'.tail (.call hcallee hright'.head ha)
    rw [List.map_cons, List.map_append]
    refine ⟨e', .cons (hts.kind hleft) hargs' ?_ (hright'.kind hright) hmore', he⟩
    rw [ha.length]
    exact hlen

theorem Arguments.carried (hK : K.Plain) (marks : List Bool) {n k k' : Nat} {ts : List Token}
    {args : List Expr} : Arguments n k ts args k' → Carried K f ts →
      ∃ args', Arguments n k (ts.map f) args' k' ∧ Exprs.Alike K marks args args'
  | .none, _ => ⟨[], .none, .nil⟩
  | .some hargs, hts => by
    obtain ⟨args', hargs', ha⟩ := hargs.carried hK marks hts
    exact ⟨args', .some hargs', ha⟩

theorem ArgumentList.carried (hK : K.Plain) (marks : List Bool) {n k k' : Nat} {ts : List Token}
    {args : List Expr} : ArgumentList n k ts args k' → Carried K f ts →
      ∃ args', ArgumentList n k (ts.map f) args' k' ∧ Exprs.Alike K marks args args'
  | .one harg, hts => by
    obtain ⟨arg', harg', ha⟩ := harg.carried hK marks hts
    exact ⟨_, .one harg', .cons ha .nil⟩
  | .more harg hcomma hmore, hts => by
    obtain ⟨arg', harg', ha⟩ := harg.carried hK marks hts.left
    obtain ⟨args', hmore', has⟩ := hmore.carried hK marks hts.right.tail
    rw [List.map_append]
    exact ⟨_, .more harg' (hts.right.kind hcomma) hmore', .cons ha has⟩

theorem Primary.carried (hK : K.Plain) (marks : List Bool) {n k k' : Nat} {ts : List Token}
    {e : Expr} : Primary n k ts e k' → Carried K f ts →
      ∃ e', Primary n k (ts.map f) e' k' ∧ Expr.Alike K marks e e'
  | .false ht, hts => ⟨_, .false (hts.kind ht), .literal⟩
  | .true ht, hts => ⟨_, .true (hts.kind ht), .literal⟩
  | .nil ht, hts => ⟨_, .nil (hts.kind ht), .literal⟩
  | .literal ht, hts => by
    rw [← K.kind hts.head] at ht
    have he := Primary.literal (n := n) (k := k) ht
    rw [hK.literal hts.head] at he
    exact ⟨_, he, .literal⟩
  | .name ht, hts => ⟨_, .name (hts.kind ht), .ref (hK.named hts.head)⟩
  | .grouping hleft hinner hright, hts => by
    obtain ⟨inner', hinner', hi⟩ := hinner.carried hK marks hts.tail.left
    rw [List.map_cons, List.map_append]
    exact ⟨_, .grouping (hts.kind hleft) hinner' (hts.tail.right.kind hright), .grouping hi⟩

end

/-! ## Parts of statements -/

section Parts

variable {n k k' : Nat} {ts : List Token}

theorem Optional.carried (hK : K.Plain) (marks : List Bool) {e : Option Expr}
    (h : Optional n k ts e k') (hts : Carried K f ts) :
    ∃ e', Optional n k (ts.map f) e' k' ∧ Option.Rel (Expr.Alike K marks) e e' := by
  cases h with
  | none => exact ⟨_, .none, .none⟩
  | some he =>
    obtain ⟨e', he', halike⟩ := he.carried hK marks hts
    exact ⟨_, .some he', .some halike⟩

theorem Simple.carried (hK : K.Plain) (marks : List Bool) {st : Stmt} (h : Simple n k ts st k')
    (hts : Carried K f ts) : ∃ st', Simple n k (ts.map f) st' k' ∧ Stmt.Alike K marks st st' := by
  cases h with
  | mk he hsemi =>
    obtain ⟨e', he', halike⟩ := he.carried hK marks hts.left
    rw [List.map_append]
    exact ⟨_, .mk he' (hts.right.kind hsemi), .expr halike⟩

theorem Variable.carried (hK : K.Plain) (marks : List Bool) {st : Stmt}
    (h : Variable n k ts st k') (hts : Carried K f ts) :
    ∃ st', Variable n k (ts.map f) st' k' ∧ Stmt.Alike K marks st st' := by
  cases h with
  | bare hname hsemi =>
    exact ⟨_, .bare (hts.kind hname) (hts.tail.kind hsemi), .var (hK.named hts.head) .none⟩
  | initialised hname hequals he hsemi =>
    have hrest := hts.tail.tail
    obtain ⟨e', he', halike⟩ := he.carried hK marks hrest.left
    rw [List.map_cons, List.map_cons, List.map_append]
    exact ⟨_, .initialised (hts.kind hname) (hts.tail.kind hequals) he' (hrest.right.kind hsemi),
      .var (hK.named hts.head) (.some halike)⟩

theorem Start.carried (hK : K.Plain) (marks : List Bool) {st : Option Stmt}
    (h : Start n k ts st k') (hts : Carried K f ts) :
    ∃ st', Start n k (ts.map f) st' k' ∧ Stmts.Alike K marks st.toList st'.toList := by
  cases h with
  | none hsemi => exact ⟨_, .none (hts.kind hsemi), .nil⟩
  | var hword hv =>
    obtain ⟨st', hv', halike⟩ := hv.carried hK marks hts.tail
    exact ⟨_, .var (hts.kind hword) hv', .cons halike .nil⟩
  | simple hs =>
    obtain ⟨st', hs', halike⟩ := hs.carried hK marks hts
    exact ⟨_, .simple hs', .cons halike .nil⟩

theorem ParameterList.carried {params : List Token} (h : ParameterList ts params)
    (hts : Carried K f ts) : ParameterList (ts.map f) (params.map f) ∧ Carried K f params := by
  induction h with
  | one hname => exact ⟨.one (hts.kind hname), hts⟩
  | more hname hcomma _ ih =>
    obtain ⟨hlist, hparams⟩ := ih hts.tail.tail
    exact ⟨.more (hts.kind hname) (hts.tail.kind hcomma) hlist,
      List.forall_mem_cons.2 ⟨hts.head, hparams⟩⟩

theorem Parameters.carried {params : List Token} (h : Parameters ts params)
    (hts : Carried K f ts) : Parameters (ts.map f) (params.map f) ∧ Carried K f params := by
  cases h with
  | none => exact ⟨.none, List.forall_mem_nil _⟩
  | some h =>
    obtain ⟨hlist, hparams⟩ := h.carried hts
    exact ⟨.some hlist, hparams⟩

theorem Carried.named (hK : K.Plain) (b : Bool) (hts : Carried K f ts) :
    List.Forall₂ (K.Named b) ts (ts.map f) := by
  rw [List.forall₂_map_right_iff, List.forall₂_same]
  exact fun t ht => hK.named (hts t ht)

/-- The turns of a counted loop. -/
theorem alike_turns {marks : List Bool} {condition condition' step step' : Option Expr}
    {body body' : Stmt} (hc : Option.Rel (Expr.Alike K marks) condition condition')
    (hbody : Stmt.Alike K (false :: marks) body body')
    (hstep : Option.Rel (Expr.Alike K (false :: marks)) step step') :
    Stmt.Alike K marks
      (.loop (condition.getD (.literal (.bool true)))
        (.block (body :: (step.map Stmt.expr).toList)))
      (.loop (condition'.getD (.literal (.bool true)))
        (.block (body' :: (step'.map Stmt.expr).toList))) := by
  refine .loop ?_ (.block false (.cons hbody ?_))
  · cases hc with
    | none => exact .literal
    | some hc => exact hc
  · cases hstep with
    | none => exact .nil
    | some hstep => exact .cons (.expr hstep) .nil

end Parts

/-! ## Statements -/

mutual

theorem Statement.carried (hK : K.Plain) (marks : List Bool) {n k k' : Nat} {isOpen : Bool}
    {ts : List Token} {st : Stmt} : Statement n isOpen k ts st k' → Carried K f ts →
      ∃ st', Statement n isOpen k (ts.map f) st' k' ∧ Stmt.Alike K marks st st'
  | .simple hs, hts => by
    obtain ⟨st', hs', halike⟩ := hs.carried hK marks hts
    exact ⟨st', .simple hs', halike⟩
  | .print hword he hsemi, hts => by
    obtain ⟨e', he', halike⟩ := he.carried hK marks hts.tail.left
    rw [List.map_cons, List.map_append]
    exact ⟨_, .print (hts.kind hword) he' (hts.tail.right.kind hsemi), .print halike⟩
  | .ret hword hvalue hsemi, hts => by
    obtain ⟨value', hvalue', halike⟩ := hvalue.carried hK marks hts.tail.left
    rw [List.map_cons, List.map_append]
    exact ⟨_, .ret (hts.kind hword) hvalue' (hts.tail.right.kind hsemi), .ret halike⟩
  | .block hleft hbody hright, hts => by
    obtain ⟨body', hbody', halike⟩ := hbody.carried hK (false :: marks) hts.tail.left
    rw [List.map_cons, List.map_append]
    exact ⟨_, .block (hts.kind hleft) hbody' (hts.tail.right.kind hright), .block false halike⟩
  | .loop hword hleft hc hright hbody, hts => by
    have hts' := hts.tail.tail
    obtain ⟨condition', hc', hcondition⟩ := hc.carried hK marks hts'.left
    obtain ⟨body', hbody', halike⟩ := hbody.carried hK marks hts'.right.tail
    rw [List.map_cons, List.map_cons, List.map_append]
    exact ⟨_, .loop (hts.kind hword) (hts.tail.kind hleft) hc' (hts'.right.kind hright) hbody',
      .loop hcondition halike⟩
  | .counted hword hleft hstart hc hsemi hstep hright hbody, hts => by
    -- The loop stands in a block of its own, and its body and step in another one.
    have hts₁ := hts.tail.tail
    have hts₂ := hts₁.right
    have hts₃ := hts₂.right.tail
    obtain ⟨start', hstart', hs⟩ := hstart.carried hK (false :: marks) hts₁.left
    obtain ⟨condition', hc', hcondition⟩ := hc.carried hK (false :: marks) hts₂.left
    obtain ⟨step', hstep', hst⟩ := hstep.carried hK (false :: false :: marks) hts₃.left
    obtain ⟨body', hbody', hb⟩ := hbody.carried hK (false :: false :: marks) hts₃.right.tail
    rw [List.map_cons, List.map_cons, List.map_append, List.map_append, List.map_cons,
      List.map_append, List.map_cons]
    exact ⟨_, .counted (hts.kind hword) (hts.tail.kind hleft) hstart' hc' (hts₂.right.kind hsemi)
      hstep' (hts₃.right.kind hright) hbody',
      .block false (hs.append (.cons (alike_turns hcondition hb hst) .nil))⟩
  | .branch hword hleft hc hright hyes, hts => by
    have hts' := hts.tail.tail
    obtain ⟨condition', hc', hcondition⟩ := hc.carried hK marks hts'.left
    obtain ⟨yes', hyes', hy⟩ := hyes.carried hK marks hts'.right.tail
    rw [List.map_cons, List.map_cons, List.map_append]
    exact ⟨_, .branch (hts.kind hword) (hts.tail.kind hleft) hc' (hts'.right.kind hright) hyes',
      .branch hcondition hy⟩
  | .branchElse hword hleft hc hright hyes hother hno, hts => by
    have hts₁ := hts.tail.tail
    have hts₂ := hts₁.right.tail
    obtain ⟨condition', hc', hcondition⟩ := hc.carried hK marks hts₁.left
    obtain ⟨yes', hyes', hy⟩ := hyes.carried hK marks hts₂.left
    obtain ⟨no', hno', hn⟩ := hno.carried hK marks hts₂.right.tail
    rw [List.map_cons, List.map_cons, List.map_append, List.map_cons, List.map_append]
    exact ⟨_, .branchElse (hts.kind hword) (hts.tail.kind hleft) hc' (hts₁.right.kind hright) hyes'
      (hts₂.right.kind hother) hno', .branches hcondition hy hn⟩

theorem Declared.carried (hK : K.Plain) (marks : List Bool) {n k k' : Nat} {ts : List Token}
    {st : Stmt} : Declared n k ts st k' → Carried K f ts →
      ∃ st', Declared n k (ts.map f) st' k' ∧ Stmt.Alike K marks st st'
  | .function hword hname hleft hparams hlen hright hopen hbody hclose, hts => by
    have hts₁ := hts.tail.tail.tail
    have hts₂ := hts₁.right
    obtain ⟨hparams', hcarried⟩ := hparams.carried hts₁.left
    obtain ⟨body', hbody', halike⟩ := hbody.carried hK (false :: marks) hts₂.tail.tail.left
    rw [List.map_cons, List.map_cons, List.map_cons, List.map_append, List.map_cons, List.map_cons,
      List.map_append]
    refine ⟨_, .function (hts.kind hword) (hts.tail.kind hname) (hts.tail.tail.kind hleft) hparams'
      ?_ (hts₂.kind hright) (hts₂.tail.kind hopen) hbody' (hts₂.tail.tail.right.kind hclose),
      .function false (hK.named hts.tail.head) (K.lexeme_false hts.tail.head)
        (hcarried.named hK false) halike⟩
    rw [List.length_map]
    exact hlen
  | .var hword hv, hts => by
    obtain ⟨st', hv', halike⟩ := hv.carried hK marks hts.tail
    exact ⟨st', .var (hts.kind hword) hv', halike⟩
  | .statement h, hts => by
    obtain ⟨st', h', halike⟩ := h.carried hK marks hts
    exact ⟨st', .statement h', halike⟩

/-- **Derivations carry over to related tokens.** -/
theorem Declarations.carried (hK : K.Plain) (marks : List Bool) {n k k' : Nat} {ts : List Token}
    {sts : List Stmt} : Declarations n k ts sts k' → Carried K f ts →
      ∃ sts', Declarations n k (ts.map f) sts' k' ∧ Stmts.Alike K marks sts sts'
  | .nil, _ => ⟨[], .nil, .nil⟩
  | .cons hd h, hts => by
    obtain ⟨st', hd', hst⟩ := hd.carried hK marks hts.left
    obtain ⟨sts', h', hsts⟩ := h.carried hK marks hts.right
    rw [List.map_append]
    exact ⟨_, .cons hd' h', .cons hst hsts⟩

end

end Grammar

end Scriptlet

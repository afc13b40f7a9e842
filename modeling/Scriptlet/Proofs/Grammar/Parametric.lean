import Mathlib.Data.List.Forall2
import Scriptlet.Proofs.Grammar.Soundness
import Scriptlet.Proofs.Tree.Wellformed

/-!
# What all readings keep

A property of trees that every rule of the grammar keeps holds of every tree that is read, also of
those that are left over from a text that does not fit the grammar. The same is true of a relation
between two readings of the same tokens that begin with different serials. `Rules` is such a
relation, with a clause for each rule of the grammar, and `Program.read_kept` says that all readings
keep it. A property is a relation of every reading to itself.

**Kept by a reader** (`Reader.Kept`). On cursors that differ in their serials alone the two readers
end in the same way, again on such cursors, and their results are related.
-/

namespace Scriptlet.Grammar

/-- Whether a kind is an operator with two operands that are both evaluated. -/
def isBinary (k : Kind) : Bool :=
  productLevel.fits k || sumLevel.fits k || comparisonLevel.fits k || equalityLevel.fits k

/-- Whether a kind is the operator of a conjunction or disjunction. -/
def isLogical (k : Kind) : Bool := conjunctionLevel.fits k || disjunctionLevel.fits k

/-- What may hold of the tokens of a text, and between the serials, the expressions and the
statements of two readings of it, so that every rule of the grammar keeps it. -/
structure Rules where
  token : Token → Prop
  serial : Nat → Nat → Prop
  expr : Expr → Expr → Prop
  stmt : Stmt → Stmt → Prop
  succ : ∀ {k k' : Nat}, serial k k' → serial (k + 1) (k' + 1)
  bool : ∀ b, expr (.literal (.bool b)) (.literal (.bool b))
  nil : expr (.literal .nil) (.literal .nil)
  literal : ∀ {t : Token}, token t → t.kind = .number ∨ t.kind = .string →
    expr (.literal t.literal) (.literal t.literal)
  ref : ∀ {t : Token} {k k' : Nat}, token t → serial k k' → expr (.ref t k) (.ref t k')
  /-- What is related to a reference is a reference with the same name. -/
  target : ∀ {e e' : Expr} {t : Token} {k : Nat}, expr e e' →
    (e = .ref t k → ∃ k', e' = .ref t k') ∧ (e' = .ref t k → ∃ k', e = .ref t k')
  assign : ∀ {t : Token} {i i' k k' : Nat} {e e' : Expr}, expr (.ref t i) (.ref t i') →
    expr e e' → serial k k' → expr (.assign t e k) (.assign t e' k')
  binary : ∀ {t : Token} {lhs lhs' rhs rhs' : Expr}, expr lhs lhs' → token t →
    isBinary t.kind = true → expr rhs rhs' → expr (.binary lhs t rhs) (.binary lhs' t rhs')
  logical : ∀ {t : Token} {lhs lhs' rhs rhs' : Expr}, expr lhs lhs' → token t →
    isLogical t.kind = true → expr rhs rhs' → expr (.logical lhs t rhs) (.logical lhs' t rhs')
  unary : ∀ {t : Token} {e e' : Expr}, token t → isUnary t.kind = true → expr e e' →
    expr (.unary t e) (.unary t e')
  grouping : ∀ {e e' : Expr}, expr e e' → expr (.grouping e) (.grouping e')
  call : ∀ {t : Token} {f f' : Expr} {es es' : List Expr}, expr f f' → token t →
    List.Forall₂ expr es es' → expr (.call f t es) (.call f' t es')
  simple : ∀ {e e' : Expr}, expr e e' → stmt (.expr e) (.expr e')
  print : ∀ {t : Token} {e e' : Expr}, token t → expr e e' → stmt (.print t e) (.print t e')
  var : ∀ {t : Token} {e e' : Option Expr}, token t → Option.Rel expr e e' →
    stmt (.var t e) (.var t e')
  block : ∀ {sts sts' : List Stmt}, List.Forall₂ stmt sts sts' → stmt (.block sts) (.block sts')
  branch : ∀ {e e' : Expr} {yes yes' : Stmt}, expr e e' → stmt yes yes' → yes.declares? = none →
    stmt (.branch e yes none) (.branch e' yes' none)
  branchElse : ∀ {e e' : Expr} {yes yes' no no' : Stmt}, expr e e' → stmt yes yes' →
    yes.declares? = none → stmt no no' → no.declares? = none →
    stmt (.branch e yes (some no)) (.branch e' yes' (some no'))
  loop : ∀ {e e' : Expr} {st st' : Stmt}, expr e e' → stmt st st' → st.declares? = none →
    stmt (.loop e st) (.loop e' st')
  function : ∀ {t : Token} {ps : List Token} {sts sts' : List Stmt}, token t →
    (∀ p ∈ ps, token p) → List.Forall₂ stmt sts sts' →
    stmt (.function t ps sts) (.function t ps sts')
  ret : ∀ {t : Token} {e e' : Option Expr}, token t → Option.Rel expr e e' →
    stmt (.ret t e) (.ret t e')

variable {K : Rules} {α β : Type}

/-- The relation of statements that declare nothing. -/
def Rules.plain (K : Rules) (st st' : Stmt) : Prop := K.stmt st st' ∧ st.declares? = none

/-- Cursors that differ in their serials alone. -/
structure Cursor.Abreast (K : Rules) (c c' : Cursor) : Prop where
  tokens : ∀ t ∈ c.rest, K.token t
  serial : K.serial c.serial c'.serial
  rest : c'.rest = c.rest
  stop : c'.stop = c.stop
  turns : c'.turns = c.turns
  issues : c'.issues = c.issues

theorem Cursor.Abreast.next {c c' : Cursor} (h : c.Abreast K c') : c'.next = c.next := by
  unfold Cursor.next
  rw [h.rest, h.stop]

/-! ## Kept by a reader -/

namespace Reader

/-- On cursors abreast the two readers end abreast, and in the same way. -/
def Kept (K : Rules) (R : α → β → Prop) (r : Reader α) (r' : Reader β) : Prop :=
  ∀ c c' : Cursor, c.Abreast K c' →
    match r c, r' c' with
    | .ok a c₁, .ok a' c₁' => R a a' ∧ c₁.Abreast K c₁'
    | .error e c₁, .error e' c₁' => e' = e ∧ c₁.Abreast K c₁'
    | _, _ => False

variable {R S : α → β → Prop} {r : Reader α} {r' : Reader β}

theorem Kept.pure {a : α} {a' : β} (h : R a a') :
    Kept K R (Pure.pure a : Reader α) (Pure.pure a' : Reader β) := fun _ _ hc => ⟨h, hc⟩

theorem Kept.throw (e : Setback) :
    Kept K R (MonadExcept.throw e : Reader α) (MonadExcept.throw e : Reader β) :=
  fun _ _ hc => ⟨rfl, hc⟩

theorem Kept.bind {γ δ : Type} {T : γ → δ → Prop} {f : α → Reader γ} {f' : β → Reader δ}
    (h : Kept K R r r') (hf : ∀ a a', R a a' → Kept K T (f a) (f' a')) :
    Kept K T (r >>= f) (r' >>= f') := by
  intro c c' hc
  have hr := h c c' hc
  show match EStateM.bind r f c, EStateM.bind r' f' c' with
    | .ok a c₁, .ok a' c₁' => T a a' ∧ c₁.Abreast K c₁'
    | .error e c₁, .error e' c₁' => e' = e ∧ c₁.Abreast K c₁'
    | _, _ => False
  unfold EStateM.bind
  cases ho : r c with
  | ok a c₁ =>
    cases ho' : r' c' with
    | ok a' c₁' =>
      rw [ho, ho'] at hr
      exact hf a a' hr.1 c₁ c₁' hr.2
    | error e' c₁' =>
      rw [ho, ho'] at hr
      exact hr.elim
  | error e c₁ =>
    cases ho' : r' c' with
    | ok a' c₁' =>
      rw [ho, ho'] at hr
      exact hr.elim
    | error e' c₁' =>
      rw [ho, ho'] at hr
      exact hr

theorem Kept.mono (h : Kept K R r r') (hRS : ∀ a a', R a a' → S a a') : Kept K S r r' := by
  intro c c' hc
  have hr := h c c' hc
  cases ho : r c <;> cases ho' : r' c' <;> rw [ho, ho'] at hr
  · exact ⟨hRS _ _ hr.1, hr.2⟩
  · exact hr
  · exact hr
  · exact hr

theorem Kept.map {γ δ : Type} {T : γ → δ → Prop} {f : α → γ} {f' : β → δ} (h : Kept K R r r')
    (hf : ∀ a a', R a a' → T (f a) (f' a')) : Kept K T (f <$> r) (f' <$> r') :=
  Kept.bind h fun a a' ha => Kept.pure (hf a a' ha)

/-- A reader that looks at the tokens and issues alone, and changes nothing. -/
theorem Kept.look {f : Cursor → α} (hf : ∀ c c' : Cursor, c.Abreast K c' → f c' = f c) :
    Kept K Eq (fun c => .ok (f c) c) fun c => .ok (f c) c :=
  fun c c' hc => ⟨(hf c c' hc).symm, hc⟩

theorem kept_nextKind? : Kept K Eq nextKind? nextKind? :=
  Kept.look fun _ _ hc => by rw [hc.rest]

theorem kept_sees (k : Kind) : Kept K Eq (sees k) (sees k) :=
  Kept.look fun _ _ hc => by rw [hc.rest]

theorem kept_turns : Kept K Eq turns turns := Kept.look fun _ _ hc => hc.turns

/-- The same token is taken by both, and it fits. -/
def Taken (K : Rules) (fits : Kind → Bool) (t t' : Option Token) : Prop :=
  t' = t ∧ ∀ u, t = some u → K.token u ∧ fits u.kind = true

theorem kept_takeIf (fits : Kind → Bool) :
    Kept K (Taken K fits) (takeIf fits) (takeIf fits) := by
  rintro c ⟨rest', stop', turns', serial', issues'⟩ hc
  obtain ⟨htokens, hserial, rfl, rfl, rfl, rfl⟩ := hc
  unfold takeIf
  cases hrest : c.rest with
  | nil => exact ⟨⟨rfl, nofun⟩, by rw [hrest]; exact nofun, hserial, by simp [hrest], rfl, rfl, rfl⟩
  | cons t rest =>
    rw [hrest] at htokens
    obtain ⟨ht, htail⟩ := List.forall_mem_cons.1 htokens
    by_cases hfits : fits t.kind = true
    · simp only [hfits, if_true]
      refine ⟨⟨rfl, ?_⟩, htail, hserial, rfl, rfl, rfl, rfl⟩
      rintro _ ⟨⟩
      exact ⟨ht, hfits⟩
    · simp only [hfits]
      exact ⟨⟨rfl, nofun⟩, by rw [hrest]; exact htokens, hserial, by simp [hrest], rfl, rfl, rfl⟩

theorem kept_take? (k : Kind) : Kept K (Taken K (· == k)) (take? k) (take? k) := kept_takeIf _

theorem kept_takes (k : Kind) : Kept K Eq (takes k) (takes k) :=
  Kept.bind (kept_take? k) fun _ _ h => Kept.pure (by rw [h.1])

theorem kept_complain (t : Token) (cause : Issue.Cause) :
    Kept K Eq (complain t cause) (complain t cause) :=
  fun _ _ hc => ⟨rfl, hc.tokens, hc.serial, hc.rest, hc.stop, hc.turns,
    congrArg (Array.push · _) hc.issues⟩

theorem kept_complainHere (cause : Issue.Cause) :
    Kept K Eq (complainHere cause) (complainHere cause) := by
  intro c c' hc
  unfold complainHere
  rw [hc.next]
  exact kept_complain c.next cause c c' hc

theorem kept_misfit (cause : Issue.Cause) :
    Kept K R (misfit cause : Reader α) (misfit cause : Reader β) :=
  Kept.bind (kept_complainHere cause) fun _ _ _ => Kept.throw .misfit

theorem kept_require (k : Kind) (what : String) :
    Kept K (fun t t' => t' = t ∧ K.token t) (require k what) (require k what) := by
  refine Kept.bind (kept_take? k) ?_
  rintro _ t ⟨rfl, ht⟩
  cases t with
  | none => exact kept_misfit _
  | some t => exact Kept.pure ⟨rfl, (ht t rfl).1⟩

theorem kept_newSerial : Kept K K.serial newSerial newSerial :=
  fun _ _ hc => ⟨hc.serial, hc.tokens, K.succ hc.serial, hc.rest, hc.stop, hc.turns, hc.issues⟩

/-- A choice that both make alike. -/
theorem Kept.choose {b b' : Bool} {s : Reader α} {s' : Reader β} (hb : b = b')
    (h : Kept K R r r') (h' : Kept K R s s') :
    Kept K R (if b = true then r else s) (if b' = true then r' else s') := by
  subst hb
  cases b with
  | true => exact h
  | false => exact h'

/-- A choice by whether the next token is of some kind. -/
theorem Kept.ifTakes {k : Kind} {s : Reader α} {s' : Reader β} (h : Kept K R r r')
    (h' : Kept K R s s') :
    Kept K R (takes k >>= fun b => if b = true then r else s)
      (takes k >>= fun b => if b = true then r' else s') :=
  Kept.bind (kept_takes k) fun _ _ hb => Kept.choose hb h h'

/-- A choice by the next token. -/
theorem Kept.matchTakeIf {fits : Kind → Bool} {f : Option Token → Reader α}
    {f' : Option Token → Reader β}
    (hf : ∀ t, K.token t → fits t.kind = true → Kept K R (f (some t)) (f' (some t)))
    (hn : Kept K R (f none) (f' none)) :
    Kept K R (takeIf fits >>= f) (takeIf fits >>= f') := by
  refine Kept.bind (kept_takeIf fits) ?_
  rintro _ t ⟨rfl, ht⟩
  cases t with
  | none => exact hn
  | some t => exact hf t (ht t rfl).1 (ht t rfl).2

end Reader

open Reader

/-! ## Expressions -/

/-- The readers for what is nested keep the relation. -/
structure Nested.Keeps (K : Rules) (nested : Nested) : Prop where
  expression : Kept K K.expr nested.expression nested.expression
  unary : Kept K K.expr nested.unary nested.unary
  statement : Kept K K.plain nested.statement nested.statement
  declaration : Kept K (Option.Rel K.stmt) nested.declaration nested.declaration

variable {nested : Nested}

theorem kept_entriesFrom {R : α → β → Prop} {what : String} {entry : Reader α}
    {entry' : Reader β} (h : Kept K R entry entry') : ∀ fuel count,
    Kept K (List.Forall₂ R) (entriesFrom what entry fuel count)
      (entriesFrom what entry' fuel count) := by
  intro fuel
  induction fuel with
  | zero => exact fun _ => Kept.pure .nil
  | succ fuel ih =>
    intro count
    have hrest : Kept K (List.Forall₂ R)
        (do
          let first ← entry
          if ← Reader.takes (.mark .comma) then
            return first :: (← entriesFrom what entry fuel (count + 1))
          else return [first])
        (do
          let first ← entry'
          if ← Reader.takes (.mark .comma) then
            return first :: (← entriesFrom what entry' fuel (count + 1))
          else return [first]) := by
      refine Kept.bind h fun first first' hfirst => Kept.ifTakes ?_ (Kept.pure (.cons hfirst .nil))
      exact Kept.bind (ih (count + 1)) fun _ _ hmore => Kept.pure (.cons hfirst hmore)
    unfold entriesFrom
    split
    · exact Kept.bind (kept_complainHere _) fun _ _ _ => hrest
    · exact hrest

theorem kept_entries {R : α → β → Prop} {what : String} {entry : Reader α} {entry' : Reader β}
    (h : Kept K R entry entry') :
    Kept K (List.Forall₂ R) (entries what entry) (entries what entry') := by
  refine Kept.bind (kept_sees _) fun _ _ hb => Kept.choose hb (Kept.pure .nil) ?_
  refine Kept.bind kept_turns ?_
  rintro fuel _ rfl
  exact kept_entriesFrom h fuel 0

theorem kept_primary (h : nested.Keeps K) : Kept K K.expr (primary nested) (primary nested) := by
  unfold primary
  refine Kept.ifTakes (Kept.pure (K.bool false)) <| Kept.ifTakes (Kept.pure (K.bool true)) <|
    Kept.ifTakes (Kept.pure K.nil) <|
    Kept.matchTakeIf (fun t ht hkind => Kept.pure (K.literal ht ?_)) <|
    Kept.matchTakeIf (fun t ht _ =>
      Kept.bind kept_newSerial fun _ _ hk => Kept.pure (K.ref ht hk)) <|
    Kept.ifTakes (Kept.bind h.expression fun _ _ he =>
      Kept.bind (kept_require _ _) fun _ _ _ => Kept.pure (K.grouping he)) (kept_misfit _)
  simpa using hkind

theorem kept_callsFrom (h : nested.Keeps K) : ∀ fuel callee callee', K.expr callee callee' →
    Kept K K.expr (callsFrom nested fuel callee) (callsFrom nested fuel callee') := by
  intro fuel
  induction fuel with
  | zero => exact fun _ _ hcallee => Kept.pure hcallee
  | succ fuel ih =>
    intro callee callee' hcallee
    refine Kept.ifTakes (Kept.bind (kept_entries h.expression) fun _ _ hargs => ?_)
      (Kept.pure hcallee)
    refine Kept.bind (kept_require _ _) ?_
    rintro _ paren ⟨rfl, hparen⟩
    exact ih _ _ (K.call hcallee hparen hargs)

theorem kept_unary (h : nested.Keeps K) : Kept K K.expr (unary nested) (unary nested) := by
  unfold unary call
  refine Kept.matchTakeIf (fun op hop hkind => Kept.bind h.unary fun _ _ he =>
    Kept.pure (K.unary hop hkind he)) ?_
  refine Kept.bind (kept_primary h) fun _ _ hcallee => Kept.bind kept_turns ?_
  rintro fuel _ rfl
  exact kept_callsFrom h fuel _ _ hcallee

theorem kept_leftAssociative {level : Level} {operand : Reader Expr}
    (hbuild : ∀ {t : Token} {lhs lhs' rhs rhs' : Expr}, K.expr lhs lhs' → K.token t →
      level.fits t.kind = true → K.expr rhs rhs' →
      K.expr (level.build lhs t rhs) (level.build lhs' t rhs'))
    (h : Kept K K.expr operand operand) :
    Kept K K.expr (leftAssociative level operand) (leftAssociative level operand) := by
  have hfrom : ∀ fuel lhs lhs', K.expr lhs lhs' →
      Kept K K.expr (operandsFrom level operand fuel lhs)
        (operandsFrom level operand fuel lhs') := by
    intro fuel
    induction fuel with
    | zero => exact fun _ _ hlhs => Kept.pure hlhs
    | succ fuel ih =>
      intro lhs lhs' hlhs
      exact Kept.matchTakeIf (fun op hop hkind => Kept.bind h fun _ _ hrhs =>
        ih _ _ (hbuild hlhs hop hkind hrhs)) (Kept.pure hlhs)
  refine Kept.bind h fun _ _ hlhs => Kept.bind kept_turns ?_
  rintro fuel _ rfl
  exact hfrom fuel _ _ hlhs

theorem kept_disjunction (h : nested.Keeps K) :
    Kept K K.expr (disjunction nested) (disjunction nested) := by
  have hbinary : ∀ {level : Level}, level.build = .binary →
      (∀ k, level.fits k = true → isBinary k = true) →
      ∀ {t : Token} {lhs lhs' rhs rhs' : Expr}, K.expr lhs lhs' → K.token t →
        level.fits t.kind = true → K.expr rhs rhs' →
        K.expr (level.build lhs t rhs) (level.build lhs' t rhs') := by
    intro level hb hfits t lhs lhs' rhs rhs' hlhs ht hkind hrhs
    rw [hb]
    exact K.binary hlhs ht (hfits _ hkind) hrhs
  have hlogical : ∀ {level : Level}, level.build = .logical →
      (∀ k, level.fits k = true → isLogical k = true) →
      ∀ {t : Token} {lhs lhs' rhs rhs' : Expr}, K.expr lhs lhs' → K.token t →
        level.fits t.kind = true → K.expr rhs rhs' →
        K.expr (level.build lhs t rhs) (level.build lhs' t rhs') := by
    intro level hb hfits t lhs lhs' rhs rhs' hlhs ht hkind hrhs
    rw [hb]
    exact K.logical hlhs ht (hfits _ hkind) hrhs
  refine kept_leftAssociative (hlogical rfl fun k hk => ?_) <|
    kept_leftAssociative (hlogical rfl fun k hk => ?_) <|
    kept_leftAssociative (hbinary rfl fun k hk => ?_) <|
    kept_leftAssociative (hbinary rfl fun k hk => ?_) <|
    kept_leftAssociative (hbinary rfl fun k hk => ?_) <|
    kept_leftAssociative (hbinary rfl fun k hk => ?_) (kept_unary h)
  all_goals simp [isBinary, isLogical, hk]

theorem kept_expression (h : nested.Keeps K) :
    Kept K K.expr (expression nested) (expression nested) := by
  unfold expression
  refine Kept.bind (kept_disjunction h) fun target target' htarget => ?_
  refine Kept.matchTakeIf (fun equals _ _ => Kept.bind h.expression fun value value' hvalue => ?_)
    (Kept.pure htarget)
  have hother : Kept K K.expr
      (do Reader.complain equals .invalidTarget; return target)
      (do Reader.complain equals .invalidTarget; return target') :=
    Kept.bind (kept_complain _ _) fun _ _ _ => Kept.pure htarget
  cases target with
  | ref name i =>
    obtain ⟨i', rfl⟩ := (K.target htarget).1 rfl
    exact Kept.bind kept_newSerial fun _ _ hk => Kept.pure (K.assign htarget hvalue hk)
  | _ =>
    cases target' with
    | ref name i =>
      obtain ⟨i', heq⟩ := (K.target htarget).2 rfl
      cases heq
    | _ => exact hother

/-! ## Statements -/

theorem kept_semicolon (behind : String) :
    Kept K Eq (semicolon behind) (semicolon behind) :=
  Kept.map (kept_require _ _) fun _ _ _ => rfl

theorem kept_simple (h : nested.Keeps K) : Kept K K.plain (simple nested) (simple nested) :=
  Kept.bind (kept_expression h) fun _ _ he =>
    Kept.bind (kept_semicolon _) fun _ _ _ => Kept.pure ⟨K.simple he, rfl⟩

theorem kept_expressionUnless (h : nested.Keeps K) (k : Kind) :
    Kept K (Option.Rel K.expr) (expressionUnless k nested) (expressionUnless k nested) :=
  Kept.bind (kept_sees k) fun _ _ hb => Kept.choose hb (Kept.pure .none)
    (Kept.bind (kept_expression h) fun _ _ he => Kept.pure (.some he))

theorem kept_variableDeclaration (h : nested.Keeps K) :
    Kept K K.stmt (variableDeclaration nested) (variableDeclaration nested) := by
  refine Kept.bind (kept_require _ _) ?_
  rintro _ name ⟨rfl, hname⟩
  have hrest : ∀ e e', Option.Rel K.expr e e' → Kept K K.stmt
      (do semicolon "variable declaration"; return .var name e)
      (do semicolon "variable declaration"; return .var name e') := fun _ _ he =>
    Kept.bind (kept_semicolon _) fun _ _ _ => Kept.pure (K.var hname he)
  exact Kept.ifTakes (Kept.bind (Kept.map (kept_expression h) fun _ _ he => .some he) hrest)
    (Kept.bind (Kept.pure .none) hrest)

theorem kept_blockFrom (h : nested.Keeps K) : ∀ fuel,
    Kept K (List.Forall₂ K.stmt) (blockFrom nested fuel) (blockFrom nested fuel) := by
  intro fuel
  induction fuel with
  | zero => exact Kept.pure .nil
  | succ fuel ih =>
    refine Kept.bind kept_nextKind? ?_
    rintro kind _ rfl
    split
    · exact Kept.pure .nil
    · exact Kept.pure .nil
    · refine Kept.bind h.declaration fun first first' hfirst => Kept.bind ih fun _ _ hrest => ?_
      cases hfirst with
      | none => exact Kept.pure hrest
      | some hst => exact Kept.pure (.cons hst hrest)

theorem kept_block (h : nested.Keeps K) :
    Kept K (List.Forall₂ K.stmt) (block nested) (block nested) := by
  refine Kept.bind kept_turns ?_
  rintro fuel _ rfl
  exact Kept.bind (kept_blockFrom h fuel) fun _ _ hbody =>
    Kept.bind (kept_require _ _) fun _ _ _ => Kept.pure hbody

theorem kept_functionDeclaration (h : nested.Keeps K) :
    Kept K K.stmt (functionDeclaration nested) (functionDeclaration nested) := by
  refine Kept.bind (kept_require _ _) ?_
  rintro _ name ⟨rfl, hname⟩
  refine Kept.bind (kept_require _ _) fun _ _ _ => ?_
  refine Kept.bind (kept_entries (kept_require _ _)) fun params params' hparams => ?_
  have hall : params' = params ∧ ∀ p ∈ params, K.token p := by
    induction hparams with
    | nil => exact ⟨rfl, nofun⟩
    | cons hp _ ih =>
      obtain ⟨rfl, hp⟩ := hp
      obtain ⟨rfl, hps⟩ := ih
      exact ⟨rfl, List.forall_mem_cons.2 ⟨hp, hps⟩⟩
  obtain ⟨rfl, hps⟩ := hall
  refine Kept.bind (kept_require _ _) fun _ _ _ => Kept.bind (kept_require _ _) fun _ _ _ => ?_
  exact Kept.bind (kept_block h) fun _ _ hbody => Kept.pure (K.function hname hps hbody)

theorem kept_loopStart (h : nested.Keeps K) :
    Kept K (Option.Rel K.stmt) (loopStart nested) (loopStart nested) :=
  Kept.ifTakes (Kept.pure Option.Rel.none) <|
    Kept.ifTakes (Kept.map (kept_variableDeclaration h) fun _ _ hst => Option.Rel.some hst)
      (Kept.map (kept_simple h) fun _ _ hst => Option.Rel.some hst.1)

/-- A loop with a header of three parts is built by other rules. -/
theorem Rules.countedLoop {start start' : Option Stmt} {condition condition' : Option Expr}
    {step step' : Option Expr} {body body' : Stmt} (hstart : Option.Rel K.stmt start start')
    (hcondition : Option.Rel K.expr condition condition') (hstep : Option.Rel K.expr step step')
    (hbody : K.stmt body body') :
    K.plain (.countedLoop start condition step body)
      (.countedLoop start' condition' step' body') := by
  have hsteps : List.Forall₂ K.stmt (step.map Stmt.expr).toList (step'.map Stmt.expr).toList := by
    cases hstep with
    | none => exact .nil
    | some he => exact .cons (K.simple he) .nil
  have hturn := K.block (.cons hbody hsteps)
  have hholds : K.expr (condition.getD (.literal (.bool true)))
      (condition'.getD (.literal (.bool true))) := by
    cases hcondition with
    | none => exact K.bool true
    | some he => exact he
  have hloop := K.loop hholds hturn rfl
  refine ⟨K.block ?_, rfl⟩
  cases hstart with
  | none => exact .cons hloop .nil
  | some hst => exact .cons hst (.cons hloop .nil)

theorem kept_countedLoop (h : nested.Keeps K) :
    Kept K K.plain (countedLoop nested) (countedLoop nested) := by
  refine Kept.bind (kept_require _ _) fun _ _ _ => Kept.bind (kept_loopStart h) fun _ _ hstart => ?_
  refine Kept.bind (kept_expressionUnless h _) fun _ _ hcondition => ?_
  refine Kept.bind (kept_semicolon _) fun _ _ _ => ?_
  refine Kept.bind (kept_expressionUnless h _) fun _ _ hstep => ?_
  refine Kept.bind (kept_require _ _) fun _ _ _ => Kept.bind h.statement fun _ _ hbody => ?_
  exact Kept.pure (Rules.countedLoop hstart hcondition hstep hbody.1)

theorem kept_branch (h : nested.Keeps K) : Kept K K.plain (branch nested) (branch nested) := by
  refine Kept.bind (kept_require _ _) fun _ _ _ => ?_
  refine Kept.bind (kept_expression h) fun condition condition' he => ?_
  refine Kept.bind (kept_require _ _) fun _ _ _ => ?_
  refine Kept.bind h.statement fun yes yes' hyes => ?_
  have hrest : ∀ no no', Option.Rel K.plain no no' → Kept K K.plain
      (return .branch condition yes no) (return .branch condition' yes' no') := by
    intro no no' hno
    cases hno with
    | none => exact Kept.pure ⟨K.branch he hyes.1 hyes.2, rfl⟩
    | some hno => exact Kept.pure ⟨K.branchElse he hyes.1 hyes.2 hno.1 hno.2, rfl⟩
  exact Kept.ifTakes (Kept.bind (Kept.map h.statement fun _ _ hno => .some hno) hrest)
    (Kept.bind (Kept.pure .none) hrest)

theorem kept_printStatement (h : nested.Keeps K) {keyword : Token} (hk : K.token keyword) :
    Kept K K.plain (printStatement nested keyword) (printStatement nested keyword) :=
  Kept.bind (kept_expression h) fun _ _ he =>
    Kept.bind (kept_semicolon _) fun _ _ _ => Kept.pure ⟨K.print hk he, rfl⟩

theorem kept_returnStatement (h : nested.Keeps K) {keyword : Token} (hk : K.token keyword) :
    Kept K K.plain (returnStatement nested keyword) (returnStatement nested keyword) :=
  Kept.bind (kept_expressionUnless h _) fun _ _ he =>
    Kept.bind (kept_semicolon _) fun _ _ _ => Kept.pure ⟨K.ret hk he, rfl⟩

theorem kept_plainLoop (h : nested.Keeps K) :
    Kept K K.plain (plainLoop nested) (plainLoop nested) := by
  refine Kept.bind (kept_require _ _) fun _ _ _ => Kept.bind (kept_expression h) fun _ _ he => ?_
  refine Kept.bind (kept_require _ _) fun _ _ _ => Kept.bind h.statement fun _ _ hbody => ?_
  exact Kept.pure ⟨K.loop he hbody.1 hbody.2, rfl⟩

theorem kept_statement (h : nested.Keeps K) :
    Kept K K.plain (statement nested) (statement nested) := by
  unfold statement
  exact Kept.ifTakes (kept_countedLoop h) <| Kept.ifTakes (kept_branch h) <|
    Kept.matchTakeIf (fun _ ht _ => kept_printStatement h ht) <|
    Kept.matchTakeIf (fun _ ht _ => kept_returnStatement h ht) <|
    Kept.ifTakes (kept_plainLoop h) <|
    Kept.ifTakes (Kept.map (kept_block h) fun _ _ hbody => ⟨K.block hbody, rfl⟩) (kept_simple h)

theorem kept_bareDeclaration (h : nested.Keeps K) :
    Kept K K.stmt (bareDeclaration nested) (bareDeclaration nested) := by
  unfold bareDeclaration
  exact Kept.ifTakes (kept_functionDeclaration h) <| Kept.ifTakes (kept_variableDeclaration h) <|
    (kept_statement h).mono fun _ _ hst => hst.1

/-- A declaration that does not fit is skipped by both. -/
theorem kept_declaration (h : nested.Keeps K) :
    Kept K (Option.Rel K.stmt) (declaration nested) (declaration nested) := by
  intro c c' hc
  have hbare := kept_bareDeclaration h c c' hc
  unfold declaration
  cases ho : bareDeclaration nested c with
  | ok st c₁ =>
    cases ho' : bareDeclaration nested c' with
    | ok st' c₁' =>
      rw [ho, ho'] at hbare
      exact ⟨.some hbare.1, hbare.2⟩
    | error e' c₁' =>
      rw [ho, ho'] at hbare
      exact hbare.elim
  | error e c₁ =>
    cases ho' : bareDeclaration nested c' with
    | ok st' c₁' =>
      rw [ho, ho'] at hbare
      exact hbare.elim
    | error e' c₁' =>
      rw [ho, ho'] at hbare
      obtain ⟨rfl, hc₁⟩ := hbare
      cases e' with
      | tooDeep => exact ⟨rfl, hc₁⟩
      | misfit =>
        refine ⟨.none, fun t ht => hc₁.tokens t ((resume_suffix _).subset ht), hc₁.serial, ?_,
          hc₁.stop, hc₁.turns, hc₁.issues⟩
        show resume c₁'.rest = resume c₁.rest
        rw [hc₁.rest]

/-! ## Programs -/

theorem kept_readers (K : Rules) : ∀ n, (readers n).Keeps K
  | 0 => ⟨Kept.throw _, Kept.throw _, Kept.throw _, Kept.throw _⟩
  | n + 1 => by
    have h := kept_readers K n
    exact ⟨kept_expression h, kept_unary h, kept_statement h, kept_declaration h⟩

namespace Program

/-- Two programs that were read of the same tokens. -/
structure Related (K : Rules) (p p' : Program) : Prop where
  statements : List.Forall₂ K.stmt p.statements p'.statements
  issues : p'.issues = p.issues
  serial : K.serial p.serial p'.serial

theorem declarations_kept (h : nested.Keeps K) : ∀ fuel done done' (c c' : Cursor),
    c.Abreast K c' → List.Forall₂ K.stmt done done' →
    (declarations nested fuel done c).Related K (declarations nested fuel done' c') := by
  intro fuel
  induction fuel with
  | zero => exact fun _ _ _ _ hc hdone => ⟨List.rel_reverse hdone, hc.issues, hc.serial⟩
  | succ fuel ih =>
    intro done done' c c' hc hdone
    unfold declarations
    rw [hc.rest]
    split
    · exact ⟨List.rel_reverse hdone, hc.issues, hc.serial⟩
    · have hd := h.declaration c c' hc
      cases ho : nested.declaration c with
      | ok st c₁ =>
        cases ho' : nested.declaration c' with
        | ok st' c₁' =>
          rw [ho, ho'] at hd
          refine ih _ _ c₁ c₁' hd.2 ?_
          cases hd.1 with
          | none => exact hdone
          | some hst => exact .cons hst hdone
        | error e' c₁' =>
          rw [ho, ho'] at hd
          exact hd.elim
      | error e c₁ =>
        cases ho' : nested.declaration c' with
        | ok st' c₁' =>
          rw [ho, ho'] at hd
          exact hd.elim
        | error e' c₁' =>
          rw [ho, ho'] at hd
          obtain ⟨-, hc₁⟩ := hd
          refine ⟨List.rel_reverse hdone, ?_, hc₁.serial⟩
          show c₁'.issues.push (.blame c₁'.next .tooDeep) = _
          rw [hc₁.issues, hc₁.next]

/-- **All readings keep the relation.** -/
theorem read_kept (K : Rules) {depth k k' : Nat} {tokens : List Token} {stop : Token}
    (htokens : ∀ t ∈ tokens, K.token t) (hserial : K.serial k k') :
    (read depth k tokens stop).Related K (read depth k' tokens stop) :=
  declarations_kept (kept_readers K depth) _ _ _ _ _
    ⟨htokens, hserial, rfl, rfl, rfl, rfl⟩ .nil

end Program

end Scriptlet.Grammar

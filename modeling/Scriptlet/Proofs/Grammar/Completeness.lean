import Scriptlet.Proofs.Grammar.Soundness

/-!
# What derives from the grammar is read

Every reader of the grammar reads what derives from its phrase, builds the tree of the derivation
and enters no issue (`complete_readers`). With fewer levels of nesting than the derivation has, it
may also find the nesting too deep.

**What follows.** A reader looks at the token behind its phrase to see that the phrase is over. So
what follows must not continue the phrase: no operator that binds as tightly, no argument list, no
equals sign behind an expression, and no `else` behind an open statement.
-/

namespace Scriptlet.Grammar

open Reader

variable {n m k k' : Nat} {nested : Nested} {p : Prop} {c : Cursor} {ts rest : List Token}

/-! ## What follows a phrase -/

/-- What is next is neither an argument list nor an operator of one of these levels. -/
def Follows (levels : List Operators) (rest : List Token) : Prop :=
  ∀ t ∈ rest.head?, t.kind ≠ .mark .leftParen ∧ ∀ o ∈ levels, t.kind ∉ o.kinds

/-- What stands behind every expression that is not followed by an operator. -/
def closesExpression : Kind → Bool
  | .mark .rightParen | .mark .semicolon | .mark .comma => true
  | _ => false

/-- No operator belongs to two levels, and none is a parenthesis. -/
def Distinct : List Operators → Prop
  | [] => True
  | o :: tighter =>
    (∀ kind ∈ o.kinds, kind ≠ .mark .leftParen ∧ ∀ o' ∈ tighter, kind ∉ o'.kinds) ∧
      Distinct tighter

theorem distinct_precedence : Distinct precedence := by
  simp [Distinct, precedence]

theorem Follows.of_cons {o : Operators} {tighter : List Operators}
    (h : Follows (o :: tighter) rest) : Follows tighter rest :=
  fun t ht => ⟨(h t ht).1, fun o' ho' => (h t ht).2 o' (List.mem_cons_of_mem _ ho')⟩

theorem follows_of_closes (h : Begins closesExpression rest) : Follows precedence rest := by
  obtain ⟨t, rest, rfl, ht⟩ := h
  rintro _ ⟨⟩
  unfold closesExpression at ht
  split at ht
  case h_1 hk | h_2 hk | h_3 hk => simp [hk, precedence]
  case h_4 => cases ht

theorem follows_equal {equals : Token} (h : equals.kind = .mark .equal) :
    Follows precedence (equals :: rest) := by
  rintro _ ⟨⟩
  simp [h, precedence]

/-- A token that may begin something is none of a kind that may not. -/
theorem Begins.ne {fits : Kind → Bool} (h : Begins fits ts) {kind : Kind}
    (hk : fits kind = false) (rest : List Token) : ∀ t ∈ (ts ++ rest).head?, t.kind ≠ kind := by
  obtain ⟨t, ts, rfl, ht⟩ := h
  rintro _ ⟨⟩ rfl
  rw [hk] at ht
  cases ht

theorem head_ne {t : Token} {kind kind' : Kind} (h : t.kind = kind) (hne : kind ≠ kind') :
    ∀ t' ∈ (t :: rest).head?, t'.kind ≠ kind' := by
  rintro _ ⟨⟩
  rwa [h]

/-- The readers for what is nested read what derives with one level of nesting less. -/
structure Complete (n : Nat) (nested : Nested) : Prop where
  expression {m k k' : Nat} {ts rest : List Token} {e : Expr} (c : Cursor) :
    Expression m k ts e k' → Begins closesExpression rest → (ts ++ rest).length < c.turns →
      Reads (n < m + 1) (nested.expression (c.ahead (ts ++ rest) k)) e (c.ahead rest k')
  unary {m k k' : Nat} {ts rest : List Token} {e : Expr} (c : Cursor) :
    Unary m k ts e k' → Follows [] rest → (ts ++ rest).length < c.turns →
      Reads (n < m + 1) (nested.unary (c.ahead (ts ++ rest) k)) e (c.ahead rest k')
  statement {m k k' : Nat} {isOpen : Bool} {ts rest : List Token} {st : Stmt} (c : Cursor) :
    Statement m isOpen k ts st k' → (isOpen = true → NoElse rest) →
      (ts ++ rest).length < c.turns →
      Reads (n < m + 1) (nested.statement (c.ahead (ts ++ rest) k)) st (c.ahead rest k')
  declaration {m k k' : Nat} {ts rest : List Token} {st : Stmt} (c : Cursor) :
    Declared m k ts st k' → NoElse rest → (ts ++ rest).length < c.turns →
      Reads (n < m + 1) (nested.declaration (c.ahead (ts ++ rest) k)) (some st) (c.ahead rest k')

/-! ## Lists of entries -/

section Entries

variable {α : Type} {P : Nat → List Token → α → Nat → Prop} {what : String} {entry : Reader α}

/-- An entry that derives is read, if a comma or a parenthesis is behind it. -/
def EntryComplete (p : Prop) (turns : Nat) (P : Nat → List Token → α → Nat → Prop)
    (entry : Reader α) : Prop :=
  ∀ (c : Cursor) (k k' : Nat) (ts rest : List Token) (a : α), c.turns = turns → P k ts a k' →
    Begins closesExpression rest → (ts ++ rest).length < turns →
    Reads p (entry (c.ahead (ts ++ rest) k)) a (c.ahead rest k')

theorem reads_entriesFrom (hentry : EntryComplete p c.turns P entry) {as : List α}
    (h : Separated P k ts as k') (hcl : Begins closesExpression rest)
    (hcomma : ∀ t ∈ rest.head?, t.kind ≠ .mark .comma) :
    ∀ {fuel count : Nat}, (ts ++ rest).length < fuel → (ts ++ rest).length < c.turns →
      count + as.length ≤ 255 →
      Reads p (entriesFrom what entry fuel count (c.ahead (ts ++ rest) k)) as
        (c.ahead rest k') := by
  induction h with
  | one ha =>
    rintro (_ | fuel) count hfuel hroom hcount
    · exact absurd hfuel (Nat.not_lt_zero _)
    · rw [List.length_singleton] at hcount
      unfold entriesFrom
      rw [if_neg (by unfold maxEntries; omega)]
      refine .bind (hentry c _ _ _ _ _ rfl ha hcl hroom) ?_
      exact .bind (.takes_false hcomma) (.ok _ _)
  | @more k k₁ k' comma ts ts' a as ha hc _ ih =>
    rintro (_ | fuel) count hfuel hroom hcount
    · exact absurd hfuel (Nat.not_lt_zero _)
    · rw [List.append_assoc, List.cons_append] at hfuel hroom ⊢
      rw [List.length_append, List.length_cons] at hfuel hroom
      rw [List.length_cons] at hcount
      unfold entriesFrom
      rw [if_neg (by unfold maxEntries; omega)]
      have hcl' : Begins closesExpression (comma :: (ts' ++ rest)) :=
        ⟨comma, _, rfl, by rw [hc]; rfl⟩
      refine .bind (hentry c _ _ _ _ _ rfl ha hcl' (by simpa using hroom)) ?_
      refine .bind (.takes hc) ?_
      exact .bind (ih (by omega) (by omega) (by omega)) (.ok _ _)

theorem reads_entries (hentry : EntryComplete p c.turns P entry) {as : List α}
    (h : Separated P k ts as k') (hlen : as.length ≤ 255)
    (hb : ∀ t ∈ (ts ++ rest).head?, t.kind ≠ .mark .rightParen)
    (hclose : ∃ t ts', rest = t :: ts' ∧ t.kind = .mark .rightParen)
    (hroom : (ts ++ rest).length < c.turns) :
    Reads p (entries what entry (c.ahead (ts ++ rest) k)) as (c.ahead rest k') := by
  obtain ⟨t, ts', rfl, ht⟩ := hclose
  unfold entries
  refine .bind (.sees_false hb) ?_
  refine .bind .turns ?_
  refine reads_entriesFrom hentry h ⟨t, ts', rfl, by rw [ht]; rfl⟩ ?_ hroom hroom (by omega)
  rintro _ ⟨⟩
  rw [ht]
  decide

/-- No entries at all, up to a parenthesis. -/
theorem reads_entries_nil {t : Token} (ht : t.kind = .mark .rightParen) :
    Reads p (entries what entry (c.ahead (t :: rest) k)) [] (c.ahead (t :: rest) k) :=
  .bind (.sees ht) (.ok _ _)

end Entries

theorem separated_of_argumentList : ∀ {m k k' : Nat} {ts : List Token} {args : List Expr},
    ArgumentList m k ts args k' → Separated (Inner (P := Expression) m) k ts args k'
  | _, _, _, _, _, .one he => .one ⟨_, rfl, he⟩
  | _, _, _, _, _, .more he hc h => .more ⟨_, rfl, he⟩ hc (separated_of_argumentList h)

theorem separated_of_parameterList {names : List Token} (h : ParameterList ts names) (k : Nat) :
    Separated NameEntry k ts names k := by
  induction h with
  | one hn => exact .one ⟨rfl, rfl, hn⟩
  | more hn hc _ ih =>
    have hname : NameEntry k [_] _ k := ⟨rfl, rfl, hn⟩
    exact .more hname hc ih

/-! ## Expressions -/

theorem Complete.entry (h : Complete n nested) (turns : Nat) :
    EntryComplete (n < m) turns (Inner (P := Expression) m) nested.expression := by
  rintro c k k' ts rest e rfl ⟨m, rfl, he⟩ hcl hroom
  exact h.expression c he hcl hroom

theorem reads_primary (h : Complete n nested) {e : Expr} (hp : Primary m k ts e k')
    (hroom : (ts ++ rest).length < c.turns) :
    Reads (n < m) (primary nested (c.ahead (ts ++ rest) k)) e (c.ahead rest k') := by
  unfold primary
  cases hp with
  | false ht => exact .bind (.takes ht) (.ok _ _)
  | true ht =>
    refine .bind (.takes_false (head_ne ht (by decide))) ?_
    exact .bind (.takes ht) (.ok _ _)
  | nil ht =>
    refine .bind (.takes_false (head_ne ht (by decide))) ?_
    refine .bind (.takes_false (head_ne ht (by decide))) ?_
    exact .bind (.takes ht) (.ok _ _)
  | @literal _ _ t ht =>
    have hne : ∀ w, ∀ t' ∈ ([t] ++ rest).head?, t'.kind ≠ .word w := by
      rintro w _ ⟨⟩ hw
      rw [hw] at ht
      rcases ht with ht | ht <;> cases ht
    refine .bind (.takes_false (hne _)) ?_
    refine .bind (.takes_false (hne _)) ?_
    refine .bind (.takes_false (hne _)) ?_
    exact .bind (.takeIf (by rcases ht with ht | ht <;> rw [ht] <;> rfl)) (.ok _ _)
  | name ht =>
    refine .bind (.takes_false (head_ne ht (by decide))) ?_
    refine .bind (.takes_false (head_ne ht (by decide))) ?_
    refine .bind (.takes_false (head_ne ht (by decide))) ?_
    refine .bind (.takeIf_none (by rintro _ ⟨⟩; rw [ht]; rfl)) ?_
    refine .bind (.take? ht) ?_
    exact .bind .newSerial (.ok _ _)
  | @grouping m _ _ left right ts inner hl he hr =>
    rw [List.cons_append, List.append_assoc, List.singleton_append]
    refine .bind (.takes_false (head_ne hl (by decide))) ?_
    refine .bind (.takes_false (head_ne hl (by decide))) ?_
    refine .bind (.takes_false (head_ne hl (by decide))) ?_
    refine .bind (.takeIf_none (by rintro _ ⟨⟩; rw [hl]; rfl)) ?_
    refine .bind (.take?_none (head_ne hl (by decide))) ?_
    refine .bind (.takes hl) ?_
    refine .bind (h.expression c he ⟨right, rest, rfl, by rw [hr]; rfl⟩ ?_) ?_
    · simp only [List.length_append, List.length_cons] at hroom ⊢
      omega
    · exact .bind (.require hr) (.ok _ _)

theorem reads_callsFrom (h : Complete n nested) {callee e : Expr} (hf : Follows [] rest)
    (fuel : Nat) (hcalls : Calls m callee k ts e k') (hfuel : (ts ++ rest).length < fuel)
    (hroom : (ts ++ rest).length < c.turns) :
    Reads (n < m) (callsFrom nested fuel callee (c.ahead (ts ++ rest) k)) e
      (c.ahead rest k') := by
  induction fuel generalizing callee k ts with
  | zero => exact absurd hfuel (Nat.not_lt_zero _)
  | succ fuel ih =>
    unfold callsFrom
    cases hcalls with
    | nil => exact .bind (.takes_false fun t ht => (hf t ht).1) (.ok _ _)
    | @cons _ _ k₁ _ left right ts ts' _ _ _ hl hargs hlen hr hcalls =>
      rw [List.cons_append, List.append_assoc, List.cons_append] at hfuel hroom ⊢
      simp only [List.length_append, List.length_cons] at hfuel hroom
      refine .bind (.takes hl) ?_
      have hmore := ih hcalls (by simp only [List.length_append]; omega)
        (by simp only [List.length_append]; omega)
      cases hargs with
      | none =>
        refine .bind (reads_entries_nil hr) ?_
        exact .bind (.require hr) hmore
      | some hlist =>
        refine .bind (reads_entries (h.entry c.turns) (separated_of_argumentList hlist) hlen
          (hlist.begins.ne rfl _) ⟨right, _, rfl, hr⟩ ?_) ?_
        · simp only [List.length_append, List.length_cons]
          omega
        · exact .bind (.require hr) hmore

theorem isUnary_of_primary {e : Expr} (hp : Primary m k ts e k') (rest : List Token) :
    ∀ t ∈ (ts ++ rest).head?, isUnary t.kind = false := by
  cases hp with
  | literal ht => rintro _ ⟨⟩; rcases ht with ht | ht <;> rw [ht] <;> rfl
  | false ht | true ht | nil ht | name ht => rintro _ ⟨⟩; rw [ht]; rfl
  | grouping ht _ _ => rintro _ ⟨⟩; rw [ht]; rfl

theorem reads_unary (h : Complete n nested) {e : Expr} (hu : Unary m k ts e k')
    (hf : Follows [] rest) (hroom : (ts ++ rest).length < c.turns) :
    Reads (n < m) (unary nested (c.ahead (ts ++ rest) k)) e (c.ahead rest k') := by
  unfold unary call
  cases hu with
  | operator hop harg =>
    refine .bind (.takeIf (by rcases hop with hop | hop <;> rw [hop] <;> rfl)) ?_
    exact .bind (h.unary c harg hf (by simp at hroom ⊢; omega)) (.ok _ _)
  | @calls _ _ _ _ ts ts' _ _ hp hc =>
    rw [List.append_assoc] at hroom ⊢
    refine .bind (.takeIf_none (isUnary_of_primary hp _)) ?_
    refine .bind (reads_primary h hp hroom) ?_
    refine .bind .turns ?_
    rw [List.length_append] at hroom
    exact reads_callsFrom h hf _ hc (by omega) (by omega)

/-! ## Operations -/

/-- Behind an operand comes one of its operators, or what comes behind all of them. -/
theorem Operands.follows {o : Operators} {tighter : List Operators}
    (hd : Distinct (o :: tighter)) {lhs e : Expr} (h : Operands m o tighter lhs k ts e k')
    (hf : Follows (o :: tighter) rest) : Follows tighter (ts ++ rest) := by
  cases h with
  | nil => exact hf.of_cons
  | cons hop _ _ =>
    rintro _ ⟨⟩
    exact hd.1 _ hop

theorem reads_operandsFrom {o : Operators} {tighter : List Operators} {operand : Reader Expr}
    (hd : Distinct (o :: tighter))
    (hoperand : ∀ {k k' : Nat} {ts rest : List Token} {e : Expr}, Operation m tighter k ts e k' →
      Follows tighter rest → (ts ++ rest).length < c.turns →
      Reads p (operand (c.ahead (ts ++ rest) k)) e (c.ahead rest k'))
    (hf : Follows (o :: tighter) rest) {lhs e : Expr} (fuel : Nat)
    (ho : Operands m o tighter lhs k ts e k') (hfuel : (ts ++ rest).length < fuel)
    (hroom : (ts ++ rest).length < c.turns) :
    Reads p (operandsFrom o.level operand fuel lhs (c.ahead (ts ++ rest) k)) e
      (c.ahead rest k') := by
  induction fuel generalizing lhs k ts with
  | zero => exact absurd hfuel (Nat.not_lt_zero _)
  | succ fuel ih =>
    unfold operandsFrom
    cases ho with
    | nil =>
      refine .bind (.takeIf_none fun t ht => ?_) (.ok _ _)
      exact Bool.eq_false_iff.2 fun hk =>
        (hf t ht).2 o List.mem_cons_self (List.contains_iff_mem.1 hk)
    | @cons _ _ k₁ _ _ _ op ts ts' _ rhs _ hop hrhs hmore =>
      rw [List.cons_append, List.append_assoc] at hfuel hroom ⊢
      simp only [List.length_append, List.length_cons] at hfuel hroom
      refine .bind (.takeIf (List.contains_iff_mem.2 hop)) ?_
      refine .bind (hoperand hrhs (hmore.follows hd hf) ?_) (ih hmore ?_ ?_)
      all_goals
        simp only [List.length_append]
        omega

theorem reads_operation (h : Complete n nested) : ∀ {levels : List Operators}, Distinct levels →
    ∀ {k k' : Nat} {ts rest : List Token} {e : Expr}, Operation m levels k ts e k' →
      Follows levels rest → (ts ++ rest).length < c.turns →
      Reads (n < m) (operation nested levels (c.ahead (ts ++ rest) k)) e (c.ahead rest k') := by
  intro levels hd
  induction levels with
  | nil =>
    intro k k' ts rest e he hf hroom
    cases he with
    | unary hu => exact reads_unary h hu hf hroom
  | cons o tighter ih =>
    intro k k' ts rest e he hf hroom
    cases he with
    | @operands _ _ k₁ _ _ _ ts ts' lhs _ hl ho =>
      rw [List.append_assoc] at hroom ⊢
      refine .bind (ih hd.2 hl (ho.follows hd hf) hroom) ?_
      refine .bind .turns ?_
      rw [List.length_append] at hroom
      exact reads_operandsFrom hd (ih hd.2) hf _ ho (by omega) (by omega)

/-- A name is an operation without operators. -/
theorem operation_name {name : Token} (hn : name.kind = .name) :
    ∀ levels, Operation m levels k [name] (.ref name k) (k + 1)
  | [] => .unary (.calls (.name hn) .nil)
  | _ :: tighter => .operands (operation_name hn tighter) .nil

theorem reads_expression (h : Complete n nested) {e : Expr} (he : Expression m k ts e k')
    (hcl : Begins closesExpression rest) (hroom : (ts ++ rest).length < c.turns) :
    Reads (n < m) (expression nested (c.ahead (ts ++ rest) k)) e (c.ahead rest k') := by
  unfold expression
  rw [disjunction_eq]
  cases he with
  | @assignment m _ _ name equals ts value hn heq hv =>
    rw [List.cons_append, List.cons_append] at hroom ⊢
    refine .bind (reads_operation h distinct_precedence (operation_name hn precedence)
      (follows_equal heq) hroom) ?_
    simp only [List.length_cons, List.length_append] at hroom
    refine .bind (.take? heq) ?_
    refine .bind (h.expression c hv hcl ?_) ?_
    · simp only [List.length_append]
      omega
    · exact .bind .newSerial (.ok _ _)
  | operation ho =>
    refine .bind (reads_operation h distinct_precedence ho (follows_of_closes hcl) hroom) ?_
    refine .bind (.take?_none ?_) (.ok _ _)
    obtain ⟨t, rest, rfl, ht⟩ := hcl
    rintro _ ⟨⟩ hk
    rw [hk] at ht
    cases ht

/-! ## Parts of statements -/

theorem reads_semicolon {behind : String} {semi : Token} (hs : semi.kind = .mark .semicolon) :
    Reads p (semicolon behind (c.ahead (semi :: rest) k)) () (c.ahead rest k) :=
  Reads.map (f := fun _ => ()) (.require hs)

/-- A semicolon closes an expression. -/
theorem closes_semicolon {semi : Token} (hs : semi.kind = .mark .semicolon) :
    Begins closesExpression (semi :: rest) :=
  ⟨semi, rest, rfl, by rw [hs]; rfl⟩

theorem closes_rightParen {right : Token} (hr : right.kind = .mark .rightParen) :
    Begins closesExpression (right :: rest) :=
  ⟨right, rest, rfl, by rw [hr]; rfl⟩

theorem reads_simple (h : Complete n nested) {st : Stmt} (hst : Simple m k ts st k')
    (hroom : (ts ++ rest).length < c.turns) :
    Reads (n < m) (simple nested (c.ahead (ts ++ rest) k)) st (c.ahead rest k') := by
  cases hst with
  | mk he hs =>
    rw [List.append_assoc, List.singleton_append] at hroom ⊢
    refine .bind (reads_expression h he (closes_semicolon hs) hroom) ?_
    exact .bind (reads_semicolon hs) (.ok _ _)

theorem reads_expressionUnless (h : Complete n nested) {kind : Kind} {e : Option Expr}
    (he : Optional m k ts e k') {t : Token} (ht : t.kind = kind)
    (hk : closesExpression kind = true ∧ opensExpression kind = false)
    (hroom : (ts ++ t :: rest).length < c.turns) :
    Reads (n < m) (expressionUnless kind nested (c.ahead (ts ++ t :: rest) k)) e
      (c.ahead (t :: rest) k') := by
  unfold expressionUnless
  cases he with
  | none => exact .bind (.sees ht) (.ok _ _)
  | some he =>
    refine .bind (.sees_false (he.begins.ne hk.2 _)) ?_
    exact .bind (reads_expression h he ⟨t, rest, rfl, by rw [ht]; exact hk.1⟩ hroom) (.ok _ _)

theorem reads_variableDeclaration (h : Complete n nested) {st : Stmt}
    (hst : Variable m k ts st k') (hroom : (ts ++ rest).length < c.turns) :
    Reads (n < m) (variableDeclaration nested (c.ahead (ts ++ rest) k)) st
      (c.ahead rest k') := by
  unfold variableDeclaration
  cases hst with
  | bare hn hs =>
    refine .bind (.require hn) ?_
    refine .bind (.takes_false (head_ne hs (by decide))) ?_
    refine .bind (.ok _ _) ?_
    exact .bind (reads_semicolon hs) (.ok _ _)
  | initialised hn heq he hs =>
    rw [List.cons_append, List.cons_append, List.append_assoc, List.singleton_append] at hroom ⊢
    simp only [List.length_cons, List.length_append] at hroom
    refine .bind (.require hn) ?_
    refine .bind (.takes heq) ?_
    refine .bind (.map (reads_expression h he (closes_semicolon hs) ?_)) ?_
    · simp only [List.length_cons, List.length_append]
      omega
    · exact .bind (reads_semicolon hs) (.ok _ _)

theorem reads_loopStart (h : Complete n nested) {st : Option Stmt} (hst : Start m k ts st k')
    (hroom : (ts ++ rest).length < c.turns) :
    Reads (n < m) (loopStart nested (c.ahead (ts ++ rest) k)) st (c.ahead rest k') := by
  unfold loopStart
  cases hst with
  | none hs => exact .bind (.takes hs) (.ok _ _)
  | var hw hv =>
    refine .bind (.takes_false (head_ne hw (by decide))) ?_
    refine .bind (.takes hw) ?_
    exact .map (reads_variableDeclaration h hv (by simp at hroom ⊢; omega))
  | simple hs =>
    refine .bind (.takes_false (hs.begins.ne rfl _)) ?_
    refine .bind (.takes_false (hs.begins.ne rfl _)) ?_
    exact .map (reads_simple h hs hroom)

/-- Behind a declaration comes no `else`: what comes is another one, or what ends them all. -/
theorem Declarations.noElse {sts : List Stmt} (h : Declarations m k ts sts k')
    (helse : NoElse rest) : NoElse (ts ++ rest) := by
  cases h with
  | nil => exact helse
  | cons hd _ =>
    rw [List.append_assoc]
    exact hd.begins.ne rfl _

theorem reads_blockFrom (h : Complete n nested) {right : Token}
    (hr : right.kind = .mark .rightBrace) : ∀ {m k k' : Nat} {ts : List Token}
    {body : List Stmt}, Declarations m k ts body k' → ∀ {fuel : Nat},
      (ts ++ right :: rest).length < fuel → (ts ++ right :: rest).length < c.turns →
      Reads (n < m) (blockFrom nested fuel (c.ahead (ts ++ right :: rest) k)) body
        (c.ahead (right :: rest) k')
  | _, _, _, _, _, .nil, fuel + 1, _, _ => by
    unfold blockFrom
    refine .bind .nextKind? ?_
    rw [hr]
    exact .ok _ _
  | m + 1, k, k', _, _, @Declarations.cons _ _ k₁ _ ts ts' st sts hd hmore, fuel + 1, hfuel,
      hroom => by
    rw [List.append_assoc] at hfuel hroom ⊢
    obtain ⟨t, ts₀, rfl, ht⟩ := hd.begins
    rw [List.cons_append, List.length_cons, List.length_append] at hfuel
    have helse : NoElse (ts' ++ right :: rest) := hmore.noElse (head_ne hr (by decide))
    unfold blockFrom
    refine .bind .nextKind? ?_
    generalize hk : some t.kind = kind
    split
    · cases hk
    · rw [Option.some.inj hk] at ht
      cases ht
    · refine .bind (h.declaration c hd helse hroom) ?_
      refine .bind (reads_blockFrom h hr hmore (by omega) ?_) (.ok _ _)
      rw [List.length_append] at hroom
      omega

theorem reads_block (h : Complete n nested) {right : Token} (hr : right.kind = .mark .rightBrace)
    {body : List Stmt} (hb : Declarations m k ts body k')
    (hroom : (ts ++ right :: rest).length < c.turns) :
    Reads (n < m) (block nested (c.ahead (ts ++ right :: rest) k)) body (c.ahead rest k') := by
  unfold block
  refine .bind .turns ?_
  refine .bind (reads_blockFrom h hr hb hroom hroom) ?_
  exact .bind (.require hr) (.ok _ _)

/-! ## Statements -/

theorem nameEntry_complete (turns : Nat) :
    EntryComplete p turns NameEntry (require .name "parameter name") := by
  rintro c k k' ts rest t rfl ⟨rfl, rfl, ht⟩ _ _
  exact .require ht

theorem reads_functionDeclaration (h : Complete n nested)
    {name left right leftBrace rightBrace : Token} {ts' params : List Token} {body : List Stmt}
    (hn : name.kind = .name) (hl : left.kind = .mark .leftParen) (hps : Parameters ts params)
    (hlen : params.length ≤ 255) (hr : right.kind = .mark .rightParen)
    (hlb : leftBrace.kind = .mark .leftBrace) (hb : Declarations m k ts' body k')
    (hrb : rightBrace.kind = .mark .rightBrace)
    (hroom : (ts ++ right :: leftBrace :: (ts' ++ rightBrace :: rest)).length < c.turns) :
    Reads (n < m) (functionDeclaration nested (c.ahead (name :: left ::
      (ts ++ right :: leftBrace :: (ts' ++ rightBrace :: rest))) k)) (.function name params body)
      (c.ahead rest k') := by
  unfold functionDeclaration
  refine .bind (.require hn) ?_
  refine .bind (.require hl) ?_
  have hbody : Reads (n < m) (block nested (c.ahead (ts' ++ rightBrace :: rest) k)) body
      (c.ahead rest k') := by
    refine reads_block h hrb hb ?_
    simp only [List.length_append, List.length_cons] at hroom ⊢
    omega
  cases hps with
  | none =>
    refine .bind (reads_entries_nil hr) ?_
    refine .bind (.require hr) ?_
    refine .bind (.require hlb) ?_
    exact .bind hbody (.ok _ _)
  | some hps =>
    have hname : ∀ t ∈ (ts ++ right :: leftBrace :: (ts' ++ rightBrace :: rest)).head?,
        t.kind ≠ .mark .rightParen := by
      cases hps with
      | one hn | more hn _ _ => exact head_ne hn (by decide)
    refine .bind (reads_entries (nameEntry_complete c.turns) (separated_of_parameterList hps k)
      hlen hname ⟨right, _, rfl, hr⟩ hroom) ?_
    refine .bind (.require hr) ?_
    refine .bind (.require hlb) ?_
    exact .bind hbody (.ok _ _)

theorem reads_countedLoop (h : Complete n nested) {left semi right : Token}
    {k₁ k₂ k₃ : Nat} {isOpen : Bool} {ts₁ ts₂ ts₃ : List Token} {start : Option Stmt}
    {condition step : Option Expr} {body : Stmt} (hl : left.kind = .mark .leftParen)
    (hstart : Start (m + 1) k ts₁ start k₁) (hcond : Optional (m + 1) k₁ ts₂ condition k₂)
    (hs : semi.kind = .mark .semicolon) (hstep : Optional (m + 1) k₂ ts₃ step k₃)
    (hr : right.kind = .mark .rightParen) (hbody : Statement m isOpen k₃ ts body k')
    (helse : isOpen = true → NoElse rest)
    (hroom : (ts₁ ++ (ts₂ ++ semi :: (ts₃ ++ right :: (ts ++ rest)))).length < c.turns) :
    Reads (n < m + 1) (countedLoop nested (c.ahead (left ::
      (ts₁ ++ (ts₂ ++ semi :: (ts₃ ++ right :: (ts ++ rest))))) k))
      (.countedLoop start condition step body) (c.ahead rest k') := by
  unfold countedLoop
  refine .bind (.require hl) ?_
  refine .bind (reads_loopStart h hstart hroom) ?_
  simp only [List.length_append, List.length_cons] at hroom
  refine .bind (reads_expressionUnless h hcond hs (by decide) ?_) ?_
  · simp only [List.length_append, List.length_cons]
    omega
  refine .bind (reads_semicolon hs) ?_
  refine .bind (reads_expressionUnless h hstep hr (by decide) ?_) ?_
  · simp only [List.length_append, List.length_cons]
    omega
  refine .bind (.require hr) ?_
  refine .bind (h.statement c hbody helse ?_) (.ok _ _)
  simp only [List.length_append]
  omega

theorem reads_branch (h : Complete n nested) {left right : Token} {k₁ : Nat} {isOpen : Bool}
    {ts' : List Token} {condition : Expr} {yes : Stmt} (hl : left.kind = .mark .leftParen)
    (hc : Expression (m + 1) k ts condition k₁) (hr : right.kind = .mark .rightParen)
    (hyes : Statement m isOpen k₁ ts' yes k') (helse : NoElse rest)
    (hroom : (ts ++ right :: (ts' ++ rest)).length < c.turns) :
    Reads (n < m + 1) (branch nested (c.ahead (left :: (ts ++ right :: (ts' ++ rest))) k))
      (.branch condition yes none) (c.ahead rest k') := by
  unfold branch
  refine .bind (.require hl) ?_
  refine .bind (reads_expression h hc (closes_rightParen hr) hroom) ?_
  refine .bind (.require hr) ?_
  simp only [List.length_append, List.length_cons] at hroom
  refine .bind (h.statement c hyes (fun _ => helse) ?_) ?_
  · simp only [List.length_append]
    omega
  · exact .bind (.takes_false helse) (.ok _ _)

theorem reads_branchElse (h : Complete n nested) {left right other : Token} {k₁ k₂ : Nat}
    {isOpen : Bool} {ts₁ ts₂ : List Token} {condition : Expr} {yes no : Stmt}
    (hl : left.kind = .mark .leftParen) (hc : Expression (m + 1) k ts₁ condition k₁)
    (hr : right.kind = .mark .rightParen) (hyes : Statement m false k₁ ts₂ yes k₂)
    (ho : other.kind = .word .kwElse) (hno : Statement m isOpen k₂ ts no k')
    (helse : isOpen = true → NoElse rest)
    (hroom : (ts₁ ++ right :: (ts₂ ++ other :: (ts ++ rest))).length < c.turns) :
    Reads (n < m + 1) (branch nested (c.ahead (left ::
      (ts₁ ++ right :: (ts₂ ++ other :: (ts ++ rest)))) k))
      (.branch condition yes (some no)) (c.ahead rest k') := by
  unfold branch
  refine .bind (.require hl) ?_
  refine .bind (reads_expression h hc (closes_rightParen hr) hroom) ?_
  refine .bind (.require hr) ?_
  simp only [List.length_append, List.length_cons] at hroom
  -- The first branch is not open, so it leaves the `else` alone.
  refine .bind (h.statement c hyes nofun ?_) ?_
  · simp only [List.length_append, List.length_cons]
    omega
  refine .bind (.takes ho) ?_
  refine .bind (.map (h.statement c hno helse ?_)) (.ok _ _)
  simp only [List.length_append]
  omega

theorem reads_plainLoop (h : Complete n nested) {left right : Token} {k₁ : Nat} {isOpen : Bool}
    {ts' : List Token} {condition : Expr} {body : Stmt} (hl : left.kind = .mark .leftParen)
    (hc : Expression (m + 1) k ts condition k₁) (hr : right.kind = .mark .rightParen)
    (hbody : Statement m isOpen k₁ ts' body k') (helse : isOpen = true → NoElse rest)
    (hroom : (ts ++ right :: (ts' ++ rest)).length < c.turns) :
    Reads (n < m + 1) (plainLoop nested (c.ahead (left :: (ts ++ right :: (ts' ++ rest))) k))
      (.loop condition body) (c.ahead rest k') := by
  unfold plainLoop
  refine .bind (.require hl) ?_
  refine .bind (reads_expression h hc (closes_rightParen hr) hroom) ?_
  refine .bind (.require hr) ?_
  simp only [List.length_append, List.length_cons] at hroom
  refine .bind (h.statement c hbody helse ?_) (.ok _ _)
  simp only [List.length_append]
  omega

theorem reads_statement (h : Complete n nested) {isOpen : Bool} {st : Stmt}
    (hst : Statement m isOpen k ts st k') (helse : isOpen = true → NoElse rest)
    (hroom : (ts ++ rest).length < c.turns) :
    Reads (n < m) (statement nested (c.ahead (ts ++ rest) k)) st (c.ahead rest k') := by
  unfold statement
  cases hst with
  | simple hs =>
    refine .bind (.takes_false (hs.begins.ne rfl _)) ?_
    refine .bind (.takes_false (hs.begins.ne rfl _)) ?_
    refine .bind (.take?_none (hs.begins.ne rfl _)) ?_
    refine .bind (.take?_none (hs.begins.ne rfl _)) ?_
    refine .bind (.takes_false (hs.begins.ne rfl _)) ?_
    refine .bind (.takes_false (hs.begins.ne rfl _)) ?_
    exact reads_simple h hs hroom
  | print hw he hs =>
    simp only [List.cons_append, List.append_assoc, List.nil_append] at hroom ⊢
    refine .bind (.takes_false (head_ne hw (by decide))) ?_
    refine .bind (.takes_false (head_ne hw (by decide))) ?_
    refine .bind (.take? hw) ?_
    refine .bind (reads_expression h he (closes_semicolon hs) (Nat.lt_of_succ_lt hroom)) ?_
    exact .bind (reads_semicolon hs) (.ok _ _)
  | ret hw he hs =>
    simp only [List.cons_append, List.append_assoc, List.nil_append] at hroom ⊢
    refine .bind (.takes_false (head_ne hw (by decide))) ?_
    refine .bind (.takes_false (head_ne hw (by decide))) ?_
    refine .bind (.take?_none (head_ne hw (by decide))) ?_
    refine .bind (.take? hw) ?_
    refine .bind (reads_expressionUnless h he hs (by decide) (Nat.lt_of_succ_lt hroom)) ?_
    exact .bind (reads_semicolon hs) (.ok _ _)
  | block hl hb hr =>
    simp only [List.cons_append, List.append_assoc, List.nil_append] at hroom ⊢
    refine .bind (.takes_false (head_ne hl (by decide))) ?_
    refine .bind (.takes_false (head_ne hl (by decide))) ?_
    refine .bind (.take?_none (head_ne hl (by decide))) ?_
    refine .bind (.take?_none (head_ne hl (by decide))) ?_
    refine .bind (.takes_false (head_ne hl (by decide))) ?_
    refine .bind (.takes hl) ?_
    exact .map (reads_block h hr hb (Nat.lt_of_succ_lt hroom))
  | loop hw hl hc hr hbody =>
    simp only [List.cons_append, List.append_assoc] at hroom ⊢
    refine .bind (.takes_false (head_ne hw (by decide))) ?_
    refine .bind (.takes_false (head_ne hw (by decide))) ?_
    refine .bind (.take?_none (head_ne hw (by decide))) ?_
    refine .bind (.take?_none (head_ne hw (by decide))) ?_
    refine .bind (.takes hw) ?_
    exact reads_plainLoop h hl hc hr hbody helse
      (Nat.lt_of_succ_lt (Nat.lt_of_succ_lt hroom))
  | counted hw hl hstart hcond hs hstep hr hbody =>
    simp only [List.cons_append, List.append_assoc] at hroom ⊢
    refine .bind (.takes hw) ?_
    exact reads_countedLoop h hl hstart hcond hs hstep hr hbody helse
      (Nat.lt_of_succ_lt (Nat.lt_of_succ_lt hroom))
  | branch hw hl hc hr hyes =>
    simp only [List.cons_append, List.append_assoc] at hroom ⊢
    refine .bind (.takes_false (head_ne hw (by decide))) ?_
    refine .bind (.takes hw) ?_
    exact reads_branch h hl hc hr hyes (helse rfl)
      (Nat.lt_of_succ_lt (Nat.lt_of_succ_lt hroom))
  | branchElse hw hl hc hr hyes ho hno =>
    simp only [List.cons_append, List.append_assoc] at hroom ⊢
    refine .bind (.takes_false (head_ne hw (by decide))) ?_
    refine .bind (.takes hw) ?_
    exact reads_branchElse h hl hc hr hyes ho hno helse
      (Nat.lt_of_succ_lt (Nat.lt_of_succ_lt hroom))

theorem reads_bareDeclaration (h : Complete n nested) {st : Stmt} (hst : Declared m k ts st k')
    (helse : NoElse rest) (hroom : (ts ++ rest).length < c.turns) :
    Reads (n < m) (bareDeclaration nested (c.ahead (ts ++ rest) k)) st (c.ahead rest k') := by
  unfold bareDeclaration
  cases hst with
  | function hw hn hl hps hlen hr hlb hb hrb =>
    simp only [List.cons_append, List.append_assoc, List.nil_append] at hroom ⊢
    refine .bind (.takes hw) ?_
    simp only [List.length_cons, List.length_append] at hroom
    refine reads_functionDeclaration h hn hl hps hlen hr hlb hb hrb ?_
    simp only [List.length_cons, List.length_append]
    omega
  | var hw hv =>
    refine .bind (.takes_false (head_ne hw (by decide))) ?_
    refine .bind (.takes hw) ?_
    exact reads_variableDeclaration h hv (Nat.lt_of_succ_lt hroom)
  | statement hs =>
    refine .bind (.takes_false (hs.begins.ne rfl _)) ?_
    refine .bind (.takes_false (hs.begins.ne rfl _)) ?_
    exact reads_statement h hs (fun _ => helse) hroom

theorem reads_declaration (h : Complete n nested) {st : Stmt} (hst : Declared m k ts st k')
    (helse : NoElse rest) (hroom : (ts ++ rest).length < c.turns) :
    Reads (n < m) (declaration nested (c.ahead (ts ++ rest) k)) (some st) (c.ahead rest k') := by
  unfold declaration
  rcases reads_bareDeclaration h hst helse hroom with hr | ⟨hp, c', hr⟩
  · rw [hr]
    exact .ok _ _
  · rw [hr]
    exact .inr ⟨hp, c', rfl⟩

/-! ## All readers -/

theorem complete_readers : ∀ n, Complete n (readers n)
  | 0 => by
    constructor <;> intros <;> exact .tooDeep (Nat.succ_pos _)
  | n + 1 => by
    have h := complete_readers n
    have hlt : ∀ {m}, n < m → n + 1 < m + 1 := Nat.succ_lt_succ
    exact {
      expression := fun c he hcl hroom => (reads_expression h he hcl hroom).mono hlt
      unary := fun c hu hf hroom => (reads_unary h hu hf hroom).mono hlt
      statement := fun c hst helse hroom => (reads_statement h hst helse hroom).mono hlt
      declaration := fun c hd helse hroom => (reads_declaration h hd helse hroom).mono hlt }

/-! ## Programs -/

/-- What derives from a program is read: either the nesting was found too deep, or the statements
are those of the derivation. -/
theorem Program.declarations_complete (h : Complete n nested) (c : Cursor) (fuel : Nat)
    (done : List Stmt) {sts : List Stmt} (hd : Declarations m k ts sts k')
    (hfuel : ts.length < fuel) (hroom : ts.length < c.turns) :
    declarations nested fuel done (c.ahead ts k) = ⟨done.reverse ++ sts, c.issues, k'⟩ ∨
      (n < m ∧ ∃ i ∈ (declarations nested fuel done (c.ahead ts k)).issues,
        i.cause = .tooDeep) := by
  induction fuel generalizing done sts k ts m with
  | zero => exact absurd hfuel (Nat.not_lt_zero _)
  | succ fuel ih =>
    unfold declarations
    cases hd with
    | nil => exact .inl (by simp)
    | @cons _ _ k₁ _ ts ts' st sts hd hmore =>
      obtain ⟨t, ts₀, rfl, ht⟩ := hd.begins
      have helse : NoElse (ts' ++ []) := hmore.noElse (by rintro _ ⟨⟩)
      rw [List.append_nil] at helse
      have hread := h.declaration c hd helse hroom
      rw [List.cons_append, List.length_cons, List.length_append] at hfuel hroom
      rw [if_neg (by simp)]
      rcases hread with hr | ⟨hp, c', hr⟩
      · rw [hr]
        have hrest := ih (st :: done) hmore (by omega) (by omega)
        rw [List.reverse_cons, List.append_assoc] at hrest
        exact hrest
      · rw [hr]
        exact .inr ⟨hp, _, Array.mem_push_self, rfl⟩

/-- What is read of tokens of which none marks the end. -/
theorem Program.read_complete (n : Nat) (stop : Token) {sts : List Stmt}
    (h : Declarations m k ts sts k') :
    read n k ts stop = ⟨sts, #[], k'⟩ ∨
      (n < m ∧ ∃ i ∈ (read n k ts stop).issues, i.cause = .tooDeep) := by
  have hroom : ts.length < (Cursor.front k ts stop).turns := Nat.lt_succ_self _
  exact declarations_complete (complete_readers n) _ _ [] h hroom hroom

/-- Serials are only used up, also by tokens that derive from nothing. -/
theorem Program.read_serial (n k : Nat) (ts : List Token) (stop : Token) :
    k ≤ (read n k ts stop).serial :=
  (declarations_before (sound_readers n) _ [] (Cursor.front k ts stop) (Nat.lt_succ_self _)).2

theorem Program.read_sound (n k : Nat) (ts : List Token) (stop : Token)
    (h : (read n k ts stop).issues = #[]) :
    Declarations n k ts (read n k ts stop).statements (read n k ts stop).serial := by
  obtain ⟨sts, hsts, hd⟩ := declarations_sound (sound_readers n) (ts.length + 1) []
    (Cursor.front k ts stop) (Nat.lt_succ_self _) (Nat.lt_succ_self _) h
  rw [List.reverse_nil, List.nil_append] at hsts
  rw [← hsts] at hd
  exact hd

end Scriptlet.Grammar

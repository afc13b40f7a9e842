import Scriptlet.Proofs.Grammar.Soundness

/-!
# What the grammar blames

Whatever its tokens are, a reading only takes them from the front, and blames every issue on one of
them or on the one that marks the end (`Program.read_blames`). A reader that could not go on has
blamed the token that is next (`Reader.Blames`), so this is the token at fault where a declaration
begins to recover.
-/

namespace Scriptlet.Grammar

/-- An issue is blamed on one of these tokens, or on the one that marks the end. -/
def Blamed (ts : List Token) (stop : Token) (i : Issue) : Prop :=
  ∃ t cause, (t ∈ ts ∨ t = stop) ∧ i = .blame t cause

/-- A cursor in these tokens. Of the issues that are not old every one is blamed on one of them. -/
structure Cursor.Within (ts : List Token) (stop : Token) (old : Array Issue) (c : Cursor) :
    Prop where
  issues : ∀ i ∈ c.issues, i ∈ old ∨ Blamed ts stop i
  rest : c.rest <:+ ts
  stop : c.stop = stop

/-- The last issue is blamed on the token that is next. -/
def Cursor.Faults (c : Cursor) : Prop :=
  ∃ (issues : Array Issue) (cause : Issue.Cause), c.issues = issues.push (.blame c.next cause)

variable {ts : List Token} {stop : Token} {old : Array Issue} {α β : Type} {c : Cursor}

theorem Cursor.Within.next (h : c.Within ts stop old) : c.next ∈ ts ∨ c.next = stop := by
  unfold Cursor.next
  cases hrest : c.rest with
  | nil => exact .inr h.stop
  | cons t rest =>
    rw [List.headD_cons]
    exact .inl (h.rest.subset (by rw [hrest]; exact List.mem_cons_self))

/-- What is ahead of a cursor begins at some place among the tokens. -/
theorem Cursor.Within.drop (h : c.Within ts stop old) :
    ∃ e, e ≤ ts.length ∧ c.rest = ts.drop e ∧ c.next = (ts[e]?).getD stop := by
  obtain ⟨front, heq⟩ := h.rest
  refine ⟨front.length, ?_, ?_, ?_⟩
  · rw [← heq, List.length_append]
    exact Nat.le_add_right _ _
  · rw [← heq, List.drop_left]
  · unfold Cursor.next
    rw [← heq, List.getElem?_append_right (Nat.le_refl _), Nat.sub_self, h.stop]
    cases c.rest <;> rfl

namespace Reader

/-- The reader stays in the tokens and blames them alone. One that cannot go on has blamed the next
one. -/
def Blames (ts : List Token) (stop : Token) (old : Array Issue) (r : Reader α) : Prop :=
  ∀ c : Cursor, c.Within ts stop old →
    match r c with
    | .ok _ c' => c'.Within ts stop old
    | .error e c' => c'.Within ts stop old ∧ (e = .misfit → c'.Faults)

variable {r s : Reader α}

theorem Blames.pure (a : α) : Blames ts stop old (Pure.pure a : Reader α) := fun _ hc => hc

theorem Blames.tooDeep : Blames ts stop old (MonadExcept.throw .tooDeep : Reader α) :=
  fun _ hc => ⟨hc, nofun⟩

theorem Blames.bind {f : α → Reader β} (h : Blames ts stop old r)
    (hf : ∀ a, Blames ts stop old (f a)) : Blames ts stop old (r >>= f) := by
  intro c hc
  have hr := h c hc
  show match EStateM.bind r f c with | .ok _ c' => _ | .error e c' => _
  unfold EStateM.bind
  cases ho : r c with
  | ok a c₁ =>
    rw [ho] at hr
    exact hf a c₁ hr
  | error e c₁ =>
    rw [ho] at hr
    exact hr

theorem Blames.map (f : α → β) (h : Blames ts stop old r) : Blames ts stop old (f <$> r) :=
  h.bind fun a => .pure (f a)

theorem Blames.ite {p : Prop} [Decidable p] (h : Blames ts stop old r)
    (h' : Blames ts stop old s) : Blames ts stop old (if p then r else s) := by
  split
  · exact h
  · exact h'

/-- A reader that changes neither the tokens nor the issues. -/
theorem Blames.look {f : Cursor → α} {g : Cursor → Cursor}
    (hg : ∀ c, (g c).stop = c.stop ∧ (g c).rest = c.rest ∧ (g c).issues = c.issues) :
    Blames ts stop old fun c => .ok (f c) (g c) := by
  intro c hc
  obtain ⟨hstop, hrest, hissues⟩ := hg c
  exact ⟨hissues ▸ hc.issues, hrest ▸ hc.rest, hstop.trans hc.stop⟩

theorem blames_nextKind? : Blames ts stop old nextKind? := .look fun _ => ⟨rfl, rfl, rfl⟩

theorem blames_sees (k : Kind) : Blames ts stop old (sees k) := .look fun _ => ⟨rfl, rfl, rfl⟩

theorem blames_turns : Blames ts stop old turns := .look fun _ => ⟨rfl, rfl, rfl⟩

theorem blames_newSerial : Blames ts stop old newSerial := .look fun _ => ⟨rfl, rfl, rfl⟩

/-- A token that is taken was among them. -/
theorem Blames.matchTakeIf {fits : Kind → Bool} {f : Option Token → Reader α}
    (hf : ∀ t ∈ ts, Blames ts stop old (f (some t))) (hn : Blames ts stop old (f none)) :
    Blames ts stop old (takeIf fits >>= f) := by
  intro c hc
  show match EStateM.bind (takeIf fits) f c with | .ok _ c' => _ | .error e c' => _
  unfold EStateM.bind takeIf
  cases hrest : c.rest with
  | nil => exact hn c hc
  | cons t rest =>
    have hsuffix : t :: rest <:+ ts := hrest ▸ hc.rest
    cases hfits : fits t.kind with
    | true =>
      simp only [hfits, if_true]
      exact hf t (hsuffix.subset List.mem_cons_self) _
        ⟨hc.issues, (List.suffix_cons t rest).trans hsuffix, hc.stop⟩
    | false =>
      simp only [hfits, Bool.false_eq_true, if_false]
      exact hn c hc

theorem blames_take? (k : Kind) : Blames ts stop old (take? k) := by
  have htaken : Blames ts stop old (takeIf (· == k) >>= Pure.pure) :=
    .matchTakeIf (fun _ _ => .pure _) (.pure _)
  rwa [bind_pure] at htaken

theorem blames_takes (k : Kind) : Blames ts stop old (takes k) :=
  (blames_take? k).bind fun _ => .pure _

/-- A choice by whether the next token is of some kind. -/
theorem Blames.ifTakes {k : Kind} (h : Blames ts stop old r) (h' : Blames ts stop old s) :
    Blames ts stop old (takes k >>= fun b => if b = true then r else s) :=
  (blames_takes k).bind fun _ => h.ite h'

theorem blames_complain {t : Token} (ht : t ∈ ts ∨ t = stop) (cause : Issue.Cause) :
    Blames ts stop old (complain t cause) := by
  refine fun c hc => ⟨fun i hi => ?_, hc.rest, hc.stop⟩
  rcases Array.mem_push.1 hi with hi | rfl
  · exact hc.issues i hi
  · exact .inr ⟨t, cause, ht, rfl⟩

theorem blames_complainHere (cause : Issue.Cause) :
    Blames ts stop old (complainHere cause) := fun c hc => blames_complain hc.next cause c hc

theorem blames_misfit (cause : Issue.Cause) : Blames ts stop old (misfit cause : Reader α) :=
  fun c hc => ⟨blames_complain hc.next cause c hc, fun _ => ⟨c.issues, cause, rfl⟩⟩

theorem blames_require (k : Kind) (what : String) : Blames ts stop old (require k what) :=
  Blames.matchTakeIf (fun t _ => .pure t) (blames_misfit _)

end Reader

open Reader

/-! ## Expressions -/

/-- The readers for what is nested blame the tokens alone. -/
structure Nested.Blames (ts : List Token) (stop : Token) (old : Array Issue) (nested : Nested) :
    Prop where
  expression : Reader.Blames ts stop old nested.expression
  unary : Reader.Blames ts stop old nested.unary
  statement : Reader.Blames ts stop old nested.statement
  declaration : Reader.Blames ts stop old nested.declaration

variable {nested : Nested}

theorem blames_entriesFrom {what : String} {entry : Reader α}
    (h : Reader.Blames ts stop old entry) :
    ∀ fuel count, Reader.Blames ts stop old (entriesFrom what entry fuel count) := by
  intro fuel
  induction fuel with
  | zero => exact fun _ => .pure _
  | succ fuel ih =>
    intro count
    have hentry : Reader.Blames ts stop old
        (do
          let first ← entry
          if ← Reader.takes (.mark .comma) then
            return first :: (← entriesFrom what entry fuel (count + 1))
          else return [first]) :=
      h.bind fun _ => .ifTakes ((ih (count + 1)).bind fun _ => .pure _) (.pure _)
    unfold entriesFrom
    split
    · exact (blames_complainHere _).bind fun _ => hentry
    · exact hentry

theorem blames_entries {what : String} {entry : Reader α} (h : Reader.Blames ts stop old entry) :
    Reader.Blames ts stop old (entries what entry) :=
  (blames_sees _).bind fun _ => .ite (.pure _) <|
    blames_turns.bind fun fuel => blames_entriesFrom h fuel 0

variable (h : nested.Blames ts stop old)

include h

theorem blames_primary : Reader.Blames ts stop old (primary nested) := by
  unfold primary
  exact .ifTakes (.pure _) <| .ifTakes (.pure _) <| .ifTakes (.pure _) <|
    .matchTakeIf (fun _ _ => .pure _) <|
    .matchTakeIf (fun _ _ => blames_newSerial.bind fun _ => .pure _) <|
    .ifTakes (h.expression.bind fun _ => (blames_require _ _).bind fun _ => .pure _)
      (blames_misfit _)

theorem blames_callsFrom : ∀ fuel callee,
    Reader.Blames ts stop old (callsFrom nested fuel callee) := by
  intro fuel
  induction fuel with
  | zero => exact fun _ => .pure _
  | succ fuel ih =>
    exact fun _ => .ifTakes ((blames_entries h.expression).bind fun _ =>
      (blames_require _ _).bind fun _ => ih _) (.pure _)

theorem blames_unary : Reader.Blames ts stop old (unary nested) := by
  unfold unary call
  exact .matchTakeIf (fun _ _ => h.unary.bind fun _ => .pure _) <|
    (blames_primary h).bind fun _ => blames_turns.bind fun fuel => blames_callsFrom h fuel _

omit h in
theorem blames_leftAssociative (level : Level) {operand : Reader Expr}
    (h : Reader.Blames ts stop old operand) :
    Reader.Blames ts stop old (leftAssociative level operand) := by
  have hfrom : ∀ fuel lhs, Reader.Blames ts stop old (operandsFrom level operand fuel lhs) := by
    intro fuel
    induction fuel with
    | zero => exact fun _ => .pure _
    | succ fuel ih =>
      exact fun _ => .matchTakeIf (fun _ _ => h.bind fun _ => ih _) (.pure _)
  exact h.bind fun _ => blames_turns.bind fun fuel => hfrom fuel _

theorem blames_disjunction : Reader.Blames ts stop old (disjunction nested) :=
  blames_leftAssociative _ <| blames_leftAssociative _ <| blames_leftAssociative _ <|
    blames_leftAssociative _ <| blames_leftAssociative _ <| blames_leftAssociative _ <|
    blames_unary h

theorem blames_expression : Reader.Blames ts stop old (expression nested) := by
  unfold expression
  refine (blames_disjunction h).bind fun target => .matchTakeIf (fun equals hequals => ?_) (.pure _)
  refine h.expression.bind fun value => ?_
  split
  · exact blames_newSerial.bind fun _ => .pure _
  · exact (blames_complain (.inl hequals) _).bind fun _ => .pure _

/-! ## Statements -/

omit h in
theorem blames_semicolon (behind : String) : Reader.Blames ts stop old (semicolon behind) :=
  (blames_require _ _).map _

theorem blames_simple : Reader.Blames ts stop old (simple nested) :=
  (blames_expression h).bind fun _ => (blames_semicolon _).bind fun _ => .pure _

theorem blames_expressionUnless (k : Kind) :
    Reader.Blames ts stop old (expressionUnless k nested) :=
  (blames_sees k).bind fun _ => .ite (.pure _) ((blames_expression h).bind fun _ => .pure _)

theorem blames_variableDeclaration : Reader.Blames ts stop old (variableDeclaration nested) := by
  have hrest : ∀ name init, Reader.Blames ts stop old
      (do semicolon "variable declaration"; return Stmt.var name init) := fun _ _ =>
    (blames_semicolon _).bind fun _ => .pure _
  exact (blames_require _ _).bind fun name =>
    .ifTakes (((blames_expression h).map some).bind (hrest name)) (hrest name none)

theorem blames_block : Reader.Blames ts stop old (block nested) := by
  have hfrom : ∀ fuel, Reader.Blames ts stop old (blockFrom nested fuel) := by
    intro fuel
    induction fuel with
    | zero => exact .pure _
    | succ fuel ih =>
      refine blames_nextKind?.bind fun kind => ?_
      split
      · exact .pure _
      · exact .pure _
      · exact h.declaration.bind fun _ => ih.bind fun _ => .pure _
  exact blames_turns.bind fun fuel => (hfrom fuel).bind fun _ =>
    (blames_require _ _).bind fun _ => .pure _

theorem blames_functionDeclaration : Reader.Blames ts stop old (functionDeclaration nested) :=
  (blames_require _ _).bind fun _ => (blames_require _ _).bind fun _ =>
    (blames_entries (blames_require _ _)).bind fun _ => (blames_require _ _).bind fun _ =>
    (blames_require _ _).bind fun _ => (blames_block h).bind fun _ => .pure _

theorem blames_loopStart : Reader.Blames ts stop old (loopStart nested) :=
  .ifTakes (.pure _) <|
    .ifTakes ((blames_variableDeclaration h).map some) ((blames_simple h).map some)

theorem blames_countedLoop : Reader.Blames ts stop old (countedLoop nested) :=
  (blames_require _ _).bind fun _ => (blames_loopStart h).bind fun _ =>
    (blames_expressionUnless h _).bind fun _ => (blames_semicolon _).bind fun _ =>
    (blames_expressionUnless h _).bind fun _ => (blames_require _ _).bind fun _ =>
    h.statement.bind fun _ => .pure _

theorem blames_branch : Reader.Blames ts stop old (branch nested) := by
  have hrest : ∀ (condition : Expr) (yes : Stmt) no, Reader.Blames ts stop old
      (return Stmt.branch condition yes no) := fun _ _ _ => .pure _
  exact (blames_require _ _).bind fun _ => (blames_expression h).bind fun condition =>
    (blames_require _ _).bind fun _ => h.statement.bind fun yes =>
    .ifTakes ((h.statement.map some).bind (hrest condition yes)) (hrest condition yes none)

theorem blames_printStatement (keyword : Token) :
    Reader.Blames ts stop old (printStatement nested keyword) :=
  (blames_expression h).bind fun _ => (blames_semicolon _).bind fun _ => .pure _

theorem blames_returnStatement (keyword : Token) :
    Reader.Blames ts stop old (returnStatement nested keyword) :=
  (blames_expressionUnless h _).bind fun _ => (blames_semicolon _).bind fun _ => .pure _

theorem blames_plainLoop : Reader.Blames ts stop old (plainLoop nested) :=
  (blames_require _ _).bind fun _ => (blames_expression h).bind fun _ =>
    (blames_require _ _).bind fun _ => h.statement.bind fun _ => .pure _

theorem blames_statement : Reader.Blames ts stop old (statement nested) := by
  unfold statement
  exact .ifTakes (blames_countedLoop h) <| .ifTakes (blames_branch h) <|
    .matchTakeIf (fun keyword _ => blames_printStatement h keyword) <|
    .matchTakeIf (fun keyword _ => blames_returnStatement h keyword) <|
    .ifTakes (blames_plainLoop h) <|
    .ifTakes ((blames_block h).map _) (blames_simple h)

theorem blames_bareDeclaration : Reader.Blames ts stop old (bareDeclaration nested) := by
  unfold bareDeclaration
  exact .ifTakes (blames_functionDeclaration h) <| .ifTakes (blames_variableDeclaration h)
    (blames_statement h)

/-- A declaration that does not fit goes on further back in the tokens. -/
theorem blames_declaration : Reader.Blames ts stop old (declaration nested) := by
  intro c hc
  have hbare := blames_bareDeclaration h c hc
  unfold declaration
  cases ho : bareDeclaration nested c with
  | ok st c₁ =>
    rw [ho] at hbare
    exact hbare
  | error e c₁ =>
    rw [ho] at hbare
    obtain ⟨hc₁, -⟩ := hbare
    cases e with
    | tooDeep => exact ⟨hc₁, nofun⟩
    | misfit => exact ⟨hc₁.issues, (resume_suffix _).trans hc₁.rest, hc₁.stop⟩

omit h in
theorem blames_readers (ts : List Token) (stop : Token) (old : Array Issue) :
    ∀ depth, (readers depth).Blames ts stop old
  | 0 => ⟨.tooDeep, .tooDeep, .tooDeep, .tooDeep⟩
  | depth + 1 => by
    have h := blames_readers ts stop old depth
    exact ⟨blames_expression h, blames_unary h, blames_statement h, blames_declaration h⟩

/-! ## Programs -/

namespace Program

theorem declarations_blames : ∀ fuel done (c : Cursor), c.Within ts stop old →
    ∀ i ∈ (declarations nested fuel done c).issues, i ∈ old ∨ Blamed ts stop i := by
  intro fuel
  induction fuel with
  | zero => exact fun _ _ hc => hc.issues
  | succ fuel ih =>
    intro done c hc
    unfold declarations
    split
    · exact hc.issues
    · have hd := h.declaration c hc
      cases ho : nested.declaration c with
      | ok st c₁ =>
        rw [ho] at hd
        exact ih _ c₁ hd
      | error e c₁ =>
        rw [ho] at hd
        intro i hi
        rcases Array.mem_push.1 hi with hi | rfl
        · exact hd.1.issues i hi
        · exact .inr ⟨_, _, hd.1.next, rfl⟩

omit h in
/-- **Issues with the grammar** are blamed on the tokens that are read, or on the one that marks the
end. -/
theorem read_blames (depth serial : Nat) (tokens : List Token) (stop : Token) :
    ∀ i ∈ (read depth serial tokens stop).issues, Blamed tokens stop i := fun i hi =>
  (declarations_blames (blames_readers tokens stop #[] depth) _ _ _
    ⟨fun i hi => absurd hi (Array.not_mem_empty i), List.suffix_rfl, rfl⟩ i hi).resolve_left
    (Array.not_mem_empty i)

end Program

end Scriptlet.Grammar

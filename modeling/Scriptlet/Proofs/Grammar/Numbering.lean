import Mathlib.Data.List.Perm.Subperm
import Scriptlet.Proofs.Grammar.Trees

/-!
# No two references have one serial

**All references that are read have different serials** (`Program.read_between`). The text need not
fit the grammar: a declaration that is skipped has used its serials up, and the target of an
assignment loses its serial when the assignment gets one.

A reader is told which serials the trees have that were read before it, and says which ones there
are behind it (`Reader.Numbers`). New serials come from the counter alone, so it is enough to say
what a reader adds if there were none before: those in hand stay different from what it adds
(`Reader.Numbers.beside`). Leaving some out and changing their order does no harm
(`Serials.Between.sub`).
-/

namespace Scriptlet

namespace Serials

theorem Between.sub {k k' : Nat} {l l' : List Nat} (h : Between k k' l) (hl : l'.Subperm l) :
    Between k k' l' := by
  refine ⟨?_, h.le, fun i hi => h.low i (hl.subset hi), fun i hi => h.high i (hl.subset hi)⟩
  obtain ⟨same, hperm, hsub⟩ := hl
  exact hperm.nodup_iff.1 (h.nodup.sublist hsub)

theorem Between.more {k k' k'' : Nat} {l : List Nat} (h : Between k k' l) (hle : k' ≤ k'') :
    Between k k'' l :=
  ⟨h.nodup, Nat.le_trans h.le hle, h.low, fun i hi => Nat.lt_of_lt_of_le (h.high i hi) hle⟩

theorem exprs_eq_flatMap (es : List Expr) : exprs es = es.flatMap expr := by
  induction es with
  | nil => rfl
  | cons e rest ih => rw [List.flatMap_cons, ← ih, exprs]

/-- The step of a counted loop stands behind its body. -/
theorem stmt_countedLoop (start : Option Stmt) (condition step : Option Expr) (body : Stmt) :
    stmt (.countedLoop start condition step body) =
      stmts start.toList ++ (optional condition ++ (stmt body ++ optional step)) := by
  show stmts (_ ++ [_]) = _
  rw [stmts_append]
  show _ ++ ((_ ++ (_ ++ stmts (Option.toList _))) ++ []) = _
  rw [List.append_nil, Grammar.serials_steps, Grammar.serials_condition]

end Serials

namespace Grammar

open Serials (Between)

variable {α β : Type}

namespace Reader

/-- With these serials in hand, all of them different, the reader ends with those of its result,
again all different. -/
def Numbers (l : List Nat) (S : α → List Nat) (r : Reader α) : Prop :=
  ∀ k c, Between k c.serial l →
    match r c with
    | .ok a c' => Between k c'.serial (S a)
    | .error _ c' => k ≤ c'.serial

/-- A reader of what has no references. -/
abbrev Unnumbered (r : Reader α) : Prop := Numbers [] (fun _ => []) r

variable {l l' : List Nat} {S : α → List Nat} {T : β → List Nat} {r s : Reader α}
  {f : α → Reader β}

theorem Numbers.pure {a : α} (h : l = S a) : Numbers l S (Pure.pure a : Reader α) := by
  intro k c hc
  show Between k c.serial (S a)
  rwa [← h]

theorem Numbers.throw (e : Setback) : Numbers l S (MonadExcept.throw e : Reader α) :=
  fun _ _ hc => hc.le

theorem Numbers.sub (h : Numbers l S r) (hl : l.Subperm l') : Numbers l' S r :=
  fun k c hc => h k c (hc.sub hl)

theorem Numbers.bind (h : Numbers l S r) (hf : ∀ a, Numbers (S a) T (f a)) :
    Numbers l T (r >>= f) := by
  intro k c hc
  have hr := h k c hc
  show match EStateM.bind r f c with | .ok b c' => _ | .error _ c' => _
  unfold EStateM.bind
  cases ho : r c with
  | ok a c₁ =>
    rw [ho] at hr
    exact hf a k c₁ hr
  | error e c₁ =>
    rw [ho] at hr
    exact hr

theorem Numbers.ite {p : Prop} [Decidable p] (h : Numbers l S r) (h' : Numbers l S s) :
    Numbers l S (if p then r else s) := by
  split
  · exact h
  · exact h'

/-- **Serials in hand** stay different from what a reader adds to them. -/
theorem Numbers.beside (h : Numbers [] S r) (l : List Nat) : Numbers l (fun a => l ++ S a) r := by
  intro k c hc
  have hr := h c.serial c (.nil (Nat.le_refl _))
  cases ho : r c with
  | ok a c₁ =>
    rw [ho] at hr
    exact hc.append hr
  | error e c₁ =>
    rw [ho] at hr
    exact Nat.le_trans hc.le hr

/-- A reader that adds serials, and one that goes on with them. -/
theorem Numbers.next (h : Numbers [] S r) (hf : ∀ a, Numbers (l ++ S a) T (f a)) :
    Numbers l T (r >>= f) := (h.beside l).bind hf

/-- A reader whose serials are not kept, and one that goes on without them. -/
theorem Numbers.past (h : Numbers [] S r) (hf : ∀ a, Numbers l T (f a)) : Numbers l T (r >>= f) :=
  h.next fun a => (hf a).sub (List.sublist_append_left l (S a)).subperm

theorem Numbers.map (g : α → β) (h : Numbers l S r) (hg : ∀ a, T (g a) = S a) :
    Numbers l T (g <$> r) :=
  h.bind fun a => .pure (hg a).symm

/-! Readers that look at tokens and take them. -/

/-- A reader that leaves the counter as it is. -/
theorem Unnumbered.look {g : Cursor → α} {next : Cursor → Cursor}
    (hnext : ∀ c, (next c).serial = c.serial) : Unnumbered fun c => .ok (g c) (next c) := by
  intro k c hc
  show Between k (next c).serial []
  rwa [hnext c]

theorem unnumbered_nextKind? : Unnumbered nextKind? := .look fun _ => rfl

theorem unnumbered_sees (k : Kind) : Unnumbered (sees k) := .look fun _ => rfl

theorem unnumbered_turns : Unnumbered turns := .look fun _ => rfl

theorem unnumbered_complain (t : Token) (cause : Issue.Cause) : Unnumbered (complain t cause) :=
  .look fun _ => rfl

theorem unnumbered_complainHere (cause : Issue.Cause) : Unnumbered (complainHere cause) :=
  .look fun _ => rfl

theorem unnumbered_takeIf (fits : Kind → Bool) : Unnumbered (takeIf fits) := by
  intro k c hc
  unfold takeIf
  cases c.rest with
  | nil => exact hc
  | cons t rest => cases hfits : fits t.kind <;> simpa [hfits] using hc

theorem numbers_misfit (cause : Issue.Cause) : Numbers l S (misfit cause : Reader α) :=
  (unnumbered_complainHere cause).past fun _ => .throw .misfit

theorem numbers_newSerial : Numbers [] (fun k => [k]) newSerial :=
  fun _ c hc => (Between.one c.serial).widen hc.le

theorem Numbers.matchTakeIf {fits : Kind → Bool} {f : Option Token → Reader β}
    (hf : ∀ t, Numbers l T (f (some t))) (hn : Numbers l T (f none)) :
    Numbers l T (takeIf fits >>= f) :=
  (unnumbered_takeIf fits).past fun
    | some t => hf t
    | none => hn

theorem unnumbered_takes (k : Kind) : Unnumbered (takes k) :=
  (unnumbered_takeIf _).past fun _ => .pure rfl

theorem Numbers.ifTakes {k : Kind} (h : Numbers l S r) (h' : Numbers l S s) :
    Numbers l S (takes k >>= fun b => if b = true then r else s) :=
  (unnumbered_takes k).past fun _ => h.ite h'

theorem unnumbered_require (k : Kind) (what : String) : Unnumbered (require k what) :=
  .matchTakeIf (fun _ => .pure rfl) (numbers_misfit _)

end Reader

open Reader

/-! ## Expressions -/

/-- The readers for what is nested give its references different serials. -/
structure Nested.Numbers (nested : Nested) : Prop where
  expression : Reader.Numbers [] Serials.expr nested.expression
  unary : Reader.Numbers [] Serials.expr nested.unary
  statement : Reader.Numbers [] Serials.stmt nested.statement
  declaration : Reader.Numbers [] (fun st => Serials.stmts st.toList) nested.declaration

variable {nested : Nested}

theorem numbers_entries {what : String} {entry : Reader α} {S : α → List Nat}
    (h : Reader.Numbers [] S entry) :
    Reader.Numbers [] (fun as => as.flatMap S) (entries what entry) := by
  have hfrom : ∀ fuel count,
      Reader.Numbers [] (fun as => as.flatMap S) (entriesFrom what entry fuel count) := by
    intro fuel
    induction fuel with
    | zero => exact fun _ => .pure rfl
    | succ fuel ih =>
      intro count
      have hentry : Reader.Numbers [] (fun as => as.flatMap S)
          (do
            let first ← entry
            if ← Reader.takes (.mark .comma) then
              return first :: (← entriesFrom what entry fuel (count + 1))
            else return [first]) := by
        refine h.bind fun first => .ifTakes ((ih (count + 1)).next fun more => .pure ?_) (.pure ?_)
        · rw [List.flatMap_cons]
        · rw [List.flatMap_cons, List.flatMap_nil, List.append_nil]
      unfold entriesFrom
      split
      · exact (unnumbered_complainHere _).past fun _ => hentry
      · exact hentry
  exact (unnumbered_sees _).past fun _ => .ite (.pure rfl) <|
    unnumbered_turns.past fun fuel => hfrom fuel 0

variable (h : nested.Numbers)

include h

theorem numbers_primary : Reader.Numbers [] Serials.expr (primary nested) := by
  unfold primary
  exact .ifTakes (.pure rfl) <| .ifTakes (.pure rfl) <| .ifTakes (.pure rfl) <|
    .matchTakeIf (fun _ => .pure rfl) <|
    .matchTakeIf (fun _ => numbers_newSerial.bind fun _ => .pure rfl) <|
    .ifTakes (h.expression.bind fun _ => (unnumbered_require _ _).past fun _ => .pure rfl)
      (numbers_misfit _)

theorem numbers_callsFrom : ∀ fuel callee,
    Reader.Numbers (Serials.expr callee) Serials.expr (callsFrom nested fuel callee) := by
  intro fuel
  induction fuel with
  | zero => exact fun _ => .pure rfl
  | succ fuel ih =>
    refine fun callee => .ifTakes ((numbers_entries h.expression).next fun args => ?_) (.pure rfl)
    rw [← Serials.exprs_eq_flatMap]
    exact (unnumbered_require _ _).past fun paren => ih (.call callee paren args)

theorem numbers_unary : Reader.Numbers [] Serials.expr (unary nested) := by
  unfold unary call
  exact .matchTakeIf (fun _ => h.unary.bind fun _ => .pure rfl) <|
    (numbers_primary h).bind fun callee => unnumbered_turns.past fun fuel =>
    numbers_callsFrom h fuel callee

omit h in
theorem numbers_leftAssociative {level : Level} {operand : Reader Expr}
    (hbuild : ∀ lhs op rhs,
      Serials.expr (level.build lhs op rhs) = Serials.expr lhs ++ Serials.expr rhs)
    (h : Reader.Numbers [] Serials.expr operand) :
    Reader.Numbers [] Serials.expr (leftAssociative level operand) := by
  have hfrom : ∀ fuel lhs,
      Reader.Numbers (Serials.expr lhs) Serials.expr (operandsFrom level operand fuel lhs) := by
    intro fuel
    induction fuel with
    | zero => exact fun _ => .pure rfl
    | succ fuel ih =>
      refine fun lhs => .matchTakeIf (fun op => h.next fun rhs => ?_) (.pure rfl)
      rw [← hbuild lhs op rhs]
      exact ih _
  exact h.bind fun lhs => unnumbered_turns.past fun fuel => hfrom fuel lhs

theorem numbers_disjunction : Reader.Numbers [] Serials.expr (disjunction nested) :=
  numbers_leftAssociative (fun _ _ _ => rfl) <| numbers_leftAssociative (fun _ _ _ => rfl) <|
    numbers_leftAssociative (fun _ _ _ => rfl) <| numbers_leftAssociative (fun _ _ _ => rfl) <|
    numbers_leftAssociative (fun _ _ _ => rfl) <| numbers_leftAssociative (fun _ _ _ => rfl) <|
    numbers_unary h

theorem numbers_expression : Reader.Numbers [] Serials.expr (expression nested) := by
  unfold expression
  refine (numbers_disjunction h).bind fun target => .matchTakeIf (fun equals => ?_) (.pure rfl)
  refine h.expression.next fun value => ?_
  split
  · next name i =>
    -- The assignment has a serial of its own, and that of its target is left out.
    refine numbers_newSerial.next fun k => Numbers.sub (.pure rfl) ?_
    exact (List.sublist_cons_self i (Serials.expr value ++ [k])).subperm
  · refine (unnumbered_complain _ _).past fun _ => Numbers.sub (.pure rfl) ?_
    exact (List.sublist_append_left ..).subperm

/-! ## Statements -/

omit h in
theorem unnumbered_semicolon (behind : String) : Unnumbered (semicolon behind) :=
  (unnumbered_require _ _).map _ fun _ => rfl

theorem numbers_simple : Reader.Numbers [] Serials.stmt (simple nested) :=
  (numbers_expression h).bind fun _ => (unnumbered_semicolon _).past fun _ => .pure rfl

theorem numbers_expressionUnless (k : Kind) :
    Reader.Numbers [] Serials.optional (expressionUnless k nested) :=
  (unnumbered_sees k).past fun _ => .ite (.pure rfl) <|
    (numbers_expression h).bind fun _ => .pure rfl

theorem numbers_variableDeclaration :
    Reader.Numbers [] Serials.stmt (variableDeclaration nested) := by
  have hrest : ∀ name init, Reader.Numbers (Serials.optional init) Serials.stmt
      (do semicolon "variable declaration"; return Stmt.var name init) := fun _ _ =>
    (unnumbered_semicolon _).past fun _ => .pure rfl
  exact (unnumbered_require _ _).past fun name =>
    .ifTakes (((numbers_expression h).map some fun _ => rfl).bind (hrest name)) (hrest name none)

theorem numbers_block : Reader.Numbers [] Serials.stmts (block nested) := by
  have hfrom : ∀ fuel, Reader.Numbers [] Serials.stmts (blockFrom nested fuel) := by
    intro fuel
    induction fuel with
    | zero => exact .pure rfl
    | succ fuel ih =>
      refine unnumbered_nextKind?.past fun kind => ?_
      split
      · exact .pure rfl
      · exact .pure rfl
      · exact h.declaration.bind fun first => ih.next fun rest =>
          .pure (by rw [Serials.stmts_append])
  exact unnumbered_turns.past fun fuel => (hfrom fuel).bind fun _ =>
    (unnumbered_require _ _).past fun _ => .pure rfl

theorem numbers_functionDeclaration :
    Reader.Numbers [] Serials.stmt (functionDeclaration nested) :=
  (unnumbered_require _ _).past fun _ => (unnumbered_require _ _).past fun _ =>
    (numbers_entries (unnumbered_require _ _)).past fun _ => (unnumbered_require _ _).past fun _ =>
    (unnumbered_require _ _).past fun _ => (numbers_block h).bind fun _ => .pure rfl

theorem numbers_loopStart :
    Reader.Numbers [] (fun st => Serials.stmts st.toList) (loopStart nested) :=
  .ifTakes (.pure rfl) <| .ifTakes
    ((numbers_variableDeclaration h).map some fun _ => List.append_nil _)
    ((numbers_simple h).map some fun _ => List.append_nil _)

theorem numbers_countedLoop : Reader.Numbers [] Serials.stmt (countedLoop nested) := by
  refine (unnumbered_require _ _).past fun _ => (numbers_loopStart h).bind fun start =>
    (numbers_expressionUnless h _).next fun condition => (unnumbered_semicolon _).past fun _ =>
    (numbers_expressionUnless h _).next fun step => (unnumbered_require _ _).past fun _ =>
    h.statement.next fun body => Numbers.sub (.pure rfl) ?_
  rw [Serials.stmt_countedLoop, List.append_assoc, List.append_assoc]
  exact ((List.perm_append_comm.append_left _).append_left _).subperm

theorem numbers_branch : Reader.Numbers [] Serials.stmt (branch nested) := by
  have hrest : ∀ (condition : Expr) (yes : Stmt) no, Reader.Numbers
      (Serials.stmt (.branch condition yes no)) Serials.stmt
      (return Stmt.branch condition yes no) := fun _ _ _ => .pure rfl
  refine (unnumbered_require _ _).past fun _ => (numbers_expression h).bind fun condition =>
    (unnumbered_require _ _).past fun _ => h.statement.next fun yes =>
    .ifTakes ?_ (hrest condition yes none)
  exact ((h.statement.beside _).map some fun no => (List.append_assoc ..).symm).bind fun no =>
    hrest condition yes no

theorem numbers_printStatement (keyword : Token) :
    Reader.Numbers [] Serials.stmt (printStatement nested keyword) :=
  (numbers_expression h).bind fun _ => (unnumbered_semicolon _).past fun _ => .pure rfl

theorem numbers_returnStatement (keyword : Token) :
    Reader.Numbers [] Serials.stmt (returnStatement nested keyword) :=
  (numbers_expressionUnless h _).bind fun _ => (unnumbered_semicolon _).past fun _ => .pure rfl

theorem numbers_plainLoop : Reader.Numbers [] Serials.stmt (plainLoop nested) :=
  (unnumbered_require _ _).past fun _ => (numbers_expression h).bind fun _ =>
    (unnumbered_require _ _).past fun _ => h.statement.next fun _ => .pure rfl

theorem numbers_statement : Reader.Numbers [] Serials.stmt (statement nested) := by
  unfold statement
  exact .ifTakes (numbers_countedLoop h) <| .ifTakes (numbers_branch h) <|
    .matchTakeIf (fun keyword => numbers_printStatement h keyword) <|
    .matchTakeIf (fun keyword => numbers_returnStatement h keyword) <|
    .ifTakes (numbers_plainLoop h) <|
    .ifTakes ((numbers_block h).map _ fun _ => rfl) (numbers_simple h)

theorem numbers_bareDeclaration : Reader.Numbers [] Serials.stmt (bareDeclaration nested) := by
  unfold bareDeclaration
  exact .ifTakes (numbers_functionDeclaration h) <| .ifTakes (numbers_variableDeclaration h)
    (numbers_statement h)

/-- The serials of a declaration that is skipped are used up. -/
theorem numbers_declaration :
    Reader.Numbers [] (fun st => Serials.stmts st.toList) (declaration nested) := by
  intro k c hc
  have hbare := numbers_bareDeclaration h k c hc
  unfold declaration
  cases ho : bareDeclaration nested c with
  | ok st c₁ =>
    rw [ho] at hbare
    show Between k c₁.serial (Serials.stmt st ++ [])
    rwa [List.append_nil]
  | error e c₁ =>
    rw [ho] at hbare
    cases e with
    | tooDeep => exact hbare
    | misfit => exact .nil hbare

omit h in
theorem numbers_readers : ∀ depth, (readers depth).Numbers
  | 0 => ⟨.throw _, .throw _, .throw _, .throw _⟩
  | depth + 1 => by
    have h := numbers_readers depth
    exact ⟨numbers_expression h, numbers_unary h, numbers_statement h, numbers_declaration h⟩

/-! ## Programs -/

namespace Program

theorem declarations_between {k : Nat} : ∀ fuel done (c : Cursor),
    Between k c.serial (Serials.stmts done.reverse) →
    Between k (declarations nested fuel done c).serial
      (Serials.stmts (declarations nested fuel done c).statements) := by
  intro fuel
  induction fuel with
  | zero => exact fun _ _ hdone => hdone
  | succ fuel ih =>
    intro done c hdone
    unfold declarations
    split
    · exact hdone
    · have hd := h.declaration c.serial c (.nil (Nat.le_refl _))
      cases ho : nested.declaration c with
      | ok st c₁ =>
        rw [ho] at hd
        refine ih _ c₁ ?_
        have hreverse : (st.toList ++ done).reverse = done.reverse ++ st.toList := by
          cases st <;> simp
        rw [hreverse, Serials.stmts_append]
        exact hdone.append hd
      | error e c₁ =>
        rw [ho] at hd
        exact hdone.more hd

omit h in
/-- **All references that are read have different serials**, from the first one given. -/
theorem read_between (depth k : Nat) (tokens : List Token) (stop : Token) :
    Between k (read depth k tokens stop).serial
      (Serials.stmts (read depth k tokens stop).statements) :=
  declarations_between (numbers_readers depth) _ _ _ (.nil (Nat.le_refl k))

end Program

end Grammar

end Scriptlet

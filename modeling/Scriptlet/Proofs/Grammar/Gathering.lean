import Mathlib.Algebra.Order.Group.Multiset
import Scriptlet.Proofs.Grammar.Numbering
import Scriptlet.Proofs.Grammar.Recognition
import Scriptlet.Proofs.Grammar.Turns
import Scriptlet.Proofs.Tree.Tokens
import Scriptlet.Token.Scan

/-!
# Where the tokens of a tree come from

**Readers gather tokens** (`Reader.Gathers`). What a reader has taken is a stretch at the front of
the tokens ahead, and the tokens of its result are among those of the stretch and those that were in
hand before, each no more often than there. Which of them are kept, and in what order, is for the
rules of the grammar: a string gives up its token for its value, the target of an assignment hands
its token on, the value behind a target that is none is left out, and the step of a counted loop
comes behind the body.

**How deep a reader goes.** With one level of nesting less, at least one token has been taken. So a
reading of less than `n` tokens is not too deep if there are `n` levels, and this is told along.

**Programs.** A declaration that is skipped keeps none of its tokens. So what stands in the tree of
a program is gathered from stretches one behind the other, one for each statement
(`Program.declarations_gathered`). If the tokens are distinct, none stands there twice, and those of
a statement stand in front of those of the next (`Program.ofTokens?_gathers`).
-/

namespace Scriptlet.Grammar

variable {α β : Type} {deep : Prop} {n n' : Nat}

namespace Reader

/-- With less than `n` tokens ahead and these in hand, the reader takes a stretch from the front.
The tokens of its result are among those in hand and those of the stretch. The nesting is too deep
only in the case `deep`. -/
def Gathers (deep : Prop) (n : Nat) (m : Multiset Token) (S : α → Multiset Token) (r : Reader α) :
    Prop :=
  ∀ c : Cursor, c.rest.length < n →
    match r c with
    | .ok a c' => c'.stop = c.stop ∧
      ∃ stretch : List Token, c.rest = stretch ++ c'.rest ∧ S a ≤ m + stretch
    | .error e c' => c'.stop = c.stop ∧ c'.rest <:+ c.rest ∧ (e = .tooDeep → deep)

/-- A reader that keeps no token. -/
abbrev Passes (deep : Prop) (n : Nat) (r : Reader α) : Prop := Gathers deep n 0 (fun _ => 0) r

variable {m m' : Multiset Token} {S : α → Multiset Token} {T : β → Multiset Token}
  {r s : Reader α} {f : α → Reader β}

theorem Gathers.mono (h : Gathers deep n m S r) (hn : n' ≤ n) : Gathers deep n' m S r :=
  fun c hlt => h c (Nat.lt_of_lt_of_le hlt hn)

/-- With no token ahead there is nothing to show. -/
theorem Gathers.zero : Gathers deep 0 m S r := fun _ hlt => absurd hlt (Nat.not_lt_zero _)

theorem Gathers.pure {a : α} (h : S a ≤ m) : Gathers deep n m S (Pure.pure a : Reader α) := by
  refine fun c _ => ⟨rfl, [], rfl, ?_⟩
  rwa [Multiset.coe_nil, add_zero]

theorem Gathers.throw {e : Setback} (h : e = .tooDeep → deep) :
    Gathers deep n m S (MonadExcept.throw e : Reader α) := fun _ _ => ⟨rfl, List.suffix_rfl, h⟩

theorem Gathers.bind (h : Gathers deep n m S r) (hf : ∀ a, Gathers deep n (S a) T (f a)) :
    Gathers deep n m T (r >>= f) := by
  intro c hlt
  have hr := h c hlt
  show match EStateM.bind r f c with | .ok b c' => _ | .error e c' => _
  unfold EStateM.bind
  cases ho : r c with
  | error e c₁ =>
    rw [ho] at hr
    exact hr
  | ok a c₁ =>
    rw [ho] at hr
    obtain ⟨hstop, stretch, hrest, hle⟩ := hr
    have hsuffix : c₁.rest <:+ c.rest := ⟨stretch, hrest.symm⟩
    have hfa := hf a c₁ (Nat.lt_of_le_of_lt hsuffix.length_le hlt)
    dsimp only
    cases ho' : f a c₁ with
    | error e c₂ =>
      rw [ho'] at hfa
      obtain ⟨hstop', hsuffix', hdeep⟩ := hfa
      exact ⟨hstop'.trans hstop, hsuffix'.trans hsuffix, hdeep⟩
    | ok b c₂ =>
      rw [ho'] at hfa
      obtain ⟨hstop', stretch', hrest', hle'⟩ := hfa
      refine ⟨hstop'.trans hstop, stretch ++ stretch', ?_, ?_⟩
      · rw [hrest, hrest', List.append_assoc]
      · calc T b ≤ S a + stretch' := hle'
          _ ≤ m + stretch + stretch' := add_le_add_left hle _
          _ = m + ↑(stretch ++ stretch') := by rw [add_assoc, Multiset.coe_add]

theorem Gathers.weaken {S' : α → Multiset Token} (h : Gathers deep n m S r)
    (hle : ∀ a (stretch : Multiset Token), S a ≤ m + stretch → S' a ≤ m' + stretch) :
    Gathers deep n m' S' r := by
  intro c hlt
  have hr := h c hlt
  cases ho : r c with
  | error e c₁ =>
    rw [ho] at hr
    exact hr
  | ok a c₁ =>
    rw [ho] at hr
    obtain ⟨hstop, stretch, hrest, ha⟩ := hr
    exact ⟨hstop, stretch, hrest, hle a stretch ha⟩

/-- More in hand does no harm. -/
theorem Gathers.sub (h : Gathers deep n m S r) (hle : m ≤ m') : Gathers deep n m' S r :=
  h.weaken fun _ _ ha => ha.trans (add_le_add_left hle _)

/-- **Tokens in hand** stay there beside those that a reader gathers. -/
theorem Gathers.beside (h : Gathers deep n 0 S r) (m : Multiset Token) :
    Gathers deep n m (fun a => m + S a) r := by
  refine h.weaken fun a stretch ha => ?_
  rw [zero_add] at ha
  exact add_le_add_right ha m

/-- A reader that gathers tokens, and one that goes on with them. -/
theorem Gathers.next (h : Gathers deep n 0 S r) (hf : ∀ a, Gathers deep n (m + S a) T (f a)) :
    Gathers deep n m T (r >>= f) := (h.beside m).bind hf

/-- A reader whose tokens are not kept, and one that goes on without them. -/
theorem Gathers.past (h : Passes deep n r) (hf : ∀ a, Gathers deep n m T (f a)) :
    Gathers deep n m T (r >>= f) :=
  h.next fun a => (hf a).sub (add_zero m).ge

theorem Gathers.map (g : α → β) (h : Gathers deep n m S r) (hg : ∀ a, T (g a) ≤ S a) :
    Gathers deep n m T (g <$> r) := h.bind fun a => .pure (hg a)

theorem Gathers.ite {p : Prop} [Decidable p] (h : Gathers deep n m S r)
    (h' : Gathers deep n m S s) : Gathers deep n m S (if p then r else s) := by
  split
  · exact h
  · exact h'

/-! Readers that look at tokens and take them. -/

/-- A reader that stays where it is. -/
theorem Passes.look {g : Cursor → α} {next : Cursor → Cursor}
    (hnext : ∀ c, (next c).stop = c.stop ∧ (next c).rest = c.rest) :
    Passes deep n fun c => .ok (g c) (next c) := by
  intro c _
  obtain ⟨hstop, hrest⟩ := hnext c
  exact ⟨hstop, [], hrest.symm, le_refl _⟩

theorem passes_nextKind? : Passes deep n nextKind? := .look fun _ => ⟨rfl, rfl⟩

theorem passes_sees (k : Kind) : Passes deep n (sees k) := .look fun _ => ⟨rfl, rfl⟩

theorem passes_turns : Passes deep n turns := .look fun _ => ⟨rfl, rfl⟩

theorem passes_newSerial : Passes deep n newSerial := .look fun _ => ⟨rfl, rfl⟩

theorem passes_complain (t : Token) (cause : Issue.Cause) : Passes deep n (complain t cause) :=
  .look fun _ => ⟨rfl, rfl⟩

theorem passes_complainHere (cause : Issue.Cause) : Passes deep n (complainHere cause) :=
  .look fun _ => ⟨rfl, rfl⟩

theorem gathers_misfit (cause : Issue.Cause) : Gathers deep n m S (misfit cause : Reader α) :=
  (passes_complainHere cause).past fun _ => .throw nofun

/-- A token that is taken is in hand, and there is one token less ahead. -/
theorem Gathers.matchTakeIf {fits : Kind → Bool} {f : Option Token → Reader β}
    (hf : ∀ t, Gathers deep (n - 1) (m + {t}) T (f (some t))) (hn : Gathers deep n m T (f none)) :
    Gathers deep n m T (takeIf fits >>= f) := by
  intro c hlt
  have hnone := hn c hlt
  show match EStateM.bind (takeIf fits) f c with | .ok b c' => _ | .error e c' => _
  unfold EStateM.bind takeIf
  cases hrest : c.rest with
  | nil =>
    rw [hrest] at hnone
    exact hnone
  | cons t rest =>
    rw [hrest] at hnone hlt
    by_cases hfits : fits t.kind = true
    · simp only [hfits, if_true]
      have hsome := hf t { c with rest } (Nat.lt_sub_of_add_lt hlt)
      cases ho : f (some t) { c with rest } with
      | error e c₁ =>
        rw [ho] at hsome
        exact ⟨hsome.1, hsome.2.1.trans (List.suffix_cons t rest), hsome.2.2⟩
      | ok b c₁ =>
        rw [ho] at hsome
        obtain ⟨hstop, stretch, hstretch, hle⟩ := hsome
        refine ⟨hstop, t :: stretch, congrArg (t :: ·) hstretch, ?_⟩
        rw [add_assoc] at hle
        exact hle
    · simp only [hfits]
      exact hnone

/-- A token whose kind is all that matters. -/
theorem Gathers.ifTakes {k : Kind} (h : Gathers deep (n - 1) m S r) (h' : Gathers deep n m S s) :
    Gathers deep n m S (takes k >>= fun b => if b = true then r else s) := by
  rw [takes_bind]
  exact .matchTakeIf (fun t => h.sub (Multiset.le_add_right m {t})) h'

/-- A token that is taken when there is none in hand. -/
theorem Gathers.firstTakeIf {fits : Kind → Bool} {f : Option Token → Reader β}
    (hf : ∀ t, Gathers deep (n - 1) {t} T (f (some t))) (hn : Gathers deep n 0 T (f none)) :
    Gathers deep n 0 T (takeIf fits >>= f) :=
  .matchTakeIf (fun t => (hf t).sub (zero_add {t}).ge) hn

theorem gathers_require (k : Kind) (what : String) :
    Gathers deep n 0 (fun t => ↑[t]) (require k what) :=
  .firstTakeIf (fun _ => .pure (le_refl _)) (gathers_misfit _)

theorem passes_require (k : Kind) (what : String) : Passes deep n (require k what) :=
  .firstTakeIf (fun _ => .pure (Multiset.zero_le _)) (gathers_misfit _)

end Reader

open Reader

/-! ## Expressions -/

/-- The readers for what is nested gather the tokens of their results. -/
structure Nested.Gathers (deep : Prop) (n : Nat) (nested : Nested) : Prop where
  expression : Reader.Gathers deep n 0 (fun e => ↑(Tokens.expr e)) nested.expression
  unary : Reader.Gathers deep n 0 (fun e => ↑(Tokens.expr e)) nested.unary
  statement : Reader.Gathers deep n 0 (fun st => ↑(Tokens.stmt st)) nested.statement
  declaration : Reader.Gathers deep n 0 (fun st => ↑(Tokens.stmts st.toList)) nested.declaration

variable {nested : Nested}

theorem gathers_entries {what : String} {entry : Reader α} {S : α → List Token}
    (h : Reader.Gathers deep n 0 (fun a => ↑(S a)) entry) :
    Reader.Gathers deep n 0 (fun as => ↑(as.flatMap S)) (entries what entry) := by
  have hfrom : ∀ fuel count, Reader.Gathers deep n 0 (fun as => ↑(as.flatMap S))
      (entriesFrom what entry fuel count) := by
    intro fuel
    induction fuel with
    | zero => exact fun _ => .pure (le_refl _)
    | succ fuel ih =>
      intro count
      have hentry : Reader.Gathers deep n 0 (fun as => ↑(as.flatMap S))
          (do
            let first ← entry
            if ← Reader.takes (.mark .comma) then
              return first :: (← entriesFrom what entry fuel (count + 1))
            else return [first]) := by
        refine h.bind fun first => .ifTakes ?_ (.pure ?_)
        · exact ((ih (count + 1)).mono (Nat.sub_le n 1)).next fun more => .pure (le_refl _)
        · rw [List.flatMap_cons, List.flatMap_nil, List.append_nil]
      unfold entriesFrom
      split
      · exact (passes_complainHere _).past fun _ => hentry
      · exact hentry
  exact (passes_sees _).past fun _ => .ite (.pure (le_refl _)) <|
    passes_turns.past fun fuel => hfrom fuel 0

section
variable (h : nested.Gathers deep n)
include h

theorem gathers_primary :
    Reader.Gathers deep (n + 1) 0 (fun e => ↑(Tokens.expr e)) (primary nested) := by
  have hliteral : ∀ {n : Nat} (value : Literal), Reader.Gathers deep n 0
      (fun e => ↑(Tokens.expr e)) (return .literal value) := fun _ => .pure (le_refl _)
  unfold primary
  refine .ifTakes (hliteral _) <| .ifTakes (hliteral _) <| .ifTakes (hliteral _) <|
    .firstTakeIf (fun t => (hliteral t.literal).sub (Multiset.zero_le _)) <|
    .firstTakeIf (fun _ => passes_newSerial.past fun _ => .pure (le_refl _)) <|
    .ifTakes ?_ (gathers_misfit _)
  exact h.expression.bind fun _ => (passes_require _ _).past fun _ => .pure (le_refl _)

theorem gathers_callsFrom : ∀ fuel callee, Reader.Gathers deep (n + 1) ↑(Tokens.expr callee)
    (fun e => ↑(Tokens.expr e)) (callsFrom nested fuel callee) := by
  intro fuel
  induction fuel with
  | zero => exact fun _ => .pure (le_refl _)
  | succ fuel ih =>
    refine fun callee => .ifTakes ((gathers_entries h.expression).next fun args => ?_)
      (.pure (le_refl _))
    rw [← Tokens.exprs_eq_flatMap]
    refine (gathers_require _ _).next fun paren => ?_
    refine ((ih (.call callee paren args)).mono (Nat.le_succ n)).sub (le_of_eq ?_)
    -- The tree of a call begins with the token that stands at its end.
    exact add_comm ([paren] : Multiset Token) ↑(Tokens.expr callee ++ Tokens.exprs args)

theorem gathers_unary :
    Reader.Gathers deep (n + 1) 0 (fun e => ↑(Tokens.expr e)) (unary nested) := by
  unfold unary call
  refine .firstTakeIf (fun _ => h.unary.next fun _ => .pure (le_refl _)) ?_
  exact (gathers_primary h).bind fun callee => passes_turns.past fun fuel =>
    gathers_callsFrom h fuel callee

omit h in
theorem gathers_leftAssociative {level : Level} {operand : Reader Expr}
    (hbuild : ∀ lhs op rhs,
      Tokens.expr (level.build lhs op rhs) = op :: (Tokens.expr lhs ++ Tokens.expr rhs))
    (h : Reader.Gathers deep n 0 (fun e => ↑(Tokens.expr e)) operand) :
    Reader.Gathers deep n 0 (fun e => ↑(Tokens.expr e)) (leftAssociative level operand) := by
  have hfrom : ∀ fuel lhs, Reader.Gathers deep n ↑(Tokens.expr lhs) (fun e => ↑(Tokens.expr e))
      (operandsFrom level operand fuel lhs) := by
    intro fuel
    induction fuel with
    | zero => exact fun _ => .pure (le_refl _)
    | succ fuel ih =>
      refine fun lhs => .matchTakeIf (fun op => ?_) (.pure (le_refl _))
      refine (h.mono (Nat.sub_le n 1)).next fun rhs => ?_
      refine ((ih (level.build lhs op rhs)).mono (Nat.sub_le n 1)).sub (le_of_eq ?_)
      rw [hbuild, add_comm (Tokens.expr lhs : Multiset Token)]
      rfl
  exact h.bind fun lhs => passes_turns.past fun fuel => hfrom fuel lhs

theorem gathers_disjunction :
    Reader.Gathers deep (n + 1) 0 (fun e => ↑(Tokens.expr e)) (disjunction nested) :=
  gathers_leftAssociative (fun _ _ _ => rfl) <| gathers_leftAssociative (fun _ _ _ => rfl) <|
    gathers_leftAssociative (fun _ _ _ => rfl) <| gathers_leftAssociative (fun _ _ _ => rfl) <|
    gathers_leftAssociative (fun _ _ _ => rfl) <| gathers_leftAssociative (fun _ _ _ => rfl) <|
    gathers_unary h

theorem gathers_expression :
    Reader.Gathers deep (n + 1) 0 (fun e => ↑(Tokens.expr e)) (expression nested) := by
  unfold expression
  refine (gathers_disjunction h).bind fun target =>
    .matchTakeIf (fun equals => h.expression.next fun value => ?_) (.pure (le_refl _))
  split
  · next name i =>
    -- The assignment takes over the token of its target.
    refine passes_newSerial.past fun k => .pure ?_
    exact add_le_add_left (Multiset.le_add_right ↑[name] {equals}) _
  · refine (passes_complain _ _).past fun _ => .pure ?_
    exact (Multiset.le_add_right _ {equals}).trans (Multiset.le_add_right _ _)

/-! ## Statements -/

omit h in
theorem passes_semicolon (behind : String) : Passes deep n (semicolon behind) :=
  (passes_require _ _).map _ fun _ => le_refl _

theorem gathers_simple :
    Reader.Gathers deep (n + 1) 0 (fun st => ↑(Tokens.stmt st)) (simple nested) :=
  (gathers_expression h).bind fun _ => (passes_semicolon _).past fun _ => .pure (le_refl _)

theorem gathers_expressionUnless (k : Kind) : Reader.Gathers deep (n + 1) 0
    (fun e => ↑(Tokens.optional e)) (expressionUnless k nested) :=
  (passes_sees k).past fun _ => .ite (.pure (le_refl _)) <|
    (gathers_expression h).bind fun _ => .pure (le_refl _)

theorem gathers_variableDeclaration :
    Reader.Gathers deep n 0 (fun st => ↑(Tokens.stmt st)) (variableDeclaration nested) := by
  have hrest : ∀ {n : Nat} name init, Reader.Gathers deep n ↑(name :: Tokens.optional init)
      (fun st => ↑(Tokens.stmt st))
      (do semicolon "variable declaration"; return Stmt.var name init) := fun _ _ =>
    (passes_semicolon _).past fun _ => .pure (le_refl _)
  refine (gathers_require _ _).bind fun name => .ifTakes ?_ (hrest name none)
  have hinit := (gathers_expression h).mono (Nat.le_succ_of_le (Nat.sub_le n 1))
  exact (hinit.map (T := fun e => ↑(Tokens.optional e)) some fun _ => le_refl _).next (hrest name)

theorem gathers_block :
    Reader.Gathers deep n 0 (fun sts => ↑(Tokens.stmts sts)) (block nested) := by
  have hfrom : ∀ fuel,
      Reader.Gathers deep n 0 (fun sts => ↑(Tokens.stmts sts)) (blockFrom nested fuel) := by
    intro fuel
    induction fuel with
    | zero => exact .pure (le_refl _)
    | succ fuel ih =>
      refine passes_nextKind?.past fun kind => ?_
      split
      · exact .pure (le_refl _)
      · exact .pure (le_refl _)
      · refine h.declaration.bind fun first => ih.next fun rest => .pure ?_
        rw [Tokens.stmts_append, Multiset.coe_add]
  exact passes_turns.past fun fuel => (hfrom fuel).bind fun _ =>
    (passes_require _ _).past fun _ => .pure (le_refl _)

theorem gathers_functionDeclaration :
    Reader.Gathers deep n 0 (fun st => ↑(Tokens.stmt st)) (functionDeclaration nested) := by
  refine (gathers_require _ _).bind fun name => (passes_require _ _).past fun _ =>
    (gathers_entries (gathers_require _ _)).next fun params => (passes_require _ _).past fun _ =>
    (passes_require _ _).past fun _ => (gathers_block h).next fun body => .pure ?_
  rw [List.flatMap_singleton']
  exact le_refl _

theorem gathers_loopStart :
    Reader.Gathers deep n 0 (fun st => ↑(Tokens.stmts st.toList)) (loopStart nested) := by
  have hsome : ∀ st, (Tokens.stmts (some st).toList : Multiset Token) ≤ Tokens.stmt st :=
    fun st => le_of_eq (congrArg _ (List.append_nil (Tokens.stmt st)))
  exact .ifTakes (.pure (le_refl _)) <| .ifTakes
    (((gathers_variableDeclaration h).mono (by omega)).map some hsome)
    (((gathers_simple h).mono (Nat.le_succ n)).map some hsome)

theorem gathers_countedLoop :
    Reader.Gathers deep n 0 (fun st => ↑(Tokens.stmt st)) (countedLoop nested) := by
  have hoptional := fun k => (gathers_expressionUnless h k).mono (Nat.le_succ n)
  refine (passes_require _ _).past fun _ => (gathers_loopStart h).bind fun start =>
    (hoptional _).next fun condition => (passes_semicolon _).past fun _ =>
    (hoptional _).next fun step => (passes_require _ _).past fun _ =>
    h.statement.next fun body => .pure ?_
  rw [Tokens.stmt_countedLoop, ← Multiset.coe_add, ← Multiset.coe_add, ← Multiset.coe_add]
  rw [add_comm (Tokens.stmt body : Multiset Token), ← add_assoc, ← add_assoc]

theorem gathers_branch :
    Reader.Gathers deep n 0 (fun st => ↑(Tokens.stmt st)) (branch nested) := by
  have hrest : ∀ {n : Nat} (condition : Expr) (yes : Stmt) no, Reader.Gathers deep n
      ↑(Tokens.stmt (.branch condition yes no)) (fun st => ↑(Tokens.stmt st))
      (return Stmt.branch condition yes no) := fun _ _ _ => .pure (le_refl _)
  refine (passes_require _ _).past fun _ =>
    ((gathers_expression h).mono (Nat.le_succ n)).bind fun condition =>
    (passes_require _ _).past fun _ => h.statement.next fun yes =>
    .ifTakes ?_ (hrest condition yes none)
  have hboth : ∀ no, (Tokens.stmt (.branch condition yes (some no)) : Multiset Token) =
      ↑(Tokens.stmt (.branch condition yes none)) + ↑(Tokens.stmt no) :=
    fun no => congrArg Multiset.ofList (List.append_assoc ..).symm
  exact (((h.statement.mono (Nat.sub_le n 1)).beside _).map some fun no => (hboth no).le).bind
    fun no => hrest condition yes no

theorem gathers_printStatement (keyword : Token) : Reader.Gathers deep (n + 1) ↑[keyword]
    (fun st => ↑(Tokens.stmt st)) (printStatement nested keyword) :=
  (gathers_expression h).next fun _ => (passes_semicolon _).past fun _ => .pure (le_refl _)

theorem gathers_returnStatement (keyword : Token) : Reader.Gathers deep (n + 1) ↑[keyword]
    (fun st => ↑(Tokens.stmt st)) (returnStatement nested keyword) :=
  (gathers_expressionUnless h _).next fun _ => (passes_semicolon _).past fun _ =>
    .pure (le_refl _)

theorem gathers_plainLoop :
    Reader.Gathers deep n 0 (fun st => ↑(Tokens.stmt st)) (plainLoop nested) :=
  (passes_require _ _).past fun _ => ((gathers_expression h).mono (Nat.le_succ n)).bind fun _ =>
    (passes_require _ _).past fun _ => h.statement.next fun _ => .pure (le_refl _)

theorem gathers_statement :
    Reader.Gathers deep (n + 1) 0 (fun st => ↑(Tokens.stmt st)) (statement nested) := by
  unfold statement
  exact .ifTakes (gathers_countedLoop h) <| .ifTakes (gathers_branch h) <|
    .firstTakeIf (fun keyword => (gathers_printStatement h keyword).mono (Nat.le_succ n)) <|
    .firstTakeIf (fun keyword => (gathers_returnStatement h keyword).mono (Nat.le_succ n)) <|
    .ifTakes (gathers_plainLoop h) <|
    .ifTakes ((gathers_block h).map _ fun _ => le_refl _) (gathers_simple h)

theorem gathers_bareDeclaration :
    Reader.Gathers deep (n + 1) 0 (fun st => ↑(Tokens.stmt st)) (bareDeclaration nested) := by
  unfold bareDeclaration
  exact .ifTakes (gathers_functionDeclaration h) <| .ifTakes (gathers_variableDeclaration h)
    (gathers_statement h)

/-- Of a declaration that is skipped no token is kept. -/
theorem gathers_declaration : Reader.Gathers deep (n + 1) 0
    (fun st => ↑(Tokens.stmts st.toList)) (declaration nested) := by
  intro c hlt
  have hbare := gathers_bareDeclaration h c hlt
  unfold declaration
  cases ho : bareDeclaration nested c with
  | ok st c₁ =>
    rw [ho] at hbare
    obtain ⟨hstop, stretch, hrest, hle⟩ := hbare
    refine ⟨hstop, stretch, hrest, le_of_eq_of_le ?_ hle⟩
    exact congrArg _ (List.append_nil (Tokens.stmt st))
  | error e c₁ =>
    rw [ho] at hbare
    cases e with
    | tooDeep => exact hbare
    | misfit =>
      obtain ⟨hstop, hrest, -⟩ := hbare
      obtain ⟨stretch, hstretch⟩ := (resume_suffix c₁.rest).trans hrest
      exact ⟨hstop, stretch, hstretch.symm, Multiset.zero_le _⟩

end

/-- With so many levels of nesting, less tokens than that are not nested too deep. -/
theorem gathers_readers : ∀ depth n, (readers depth).Gathers (depth < n) n
  | _, 0 => ⟨.zero, .zero, .zero, .zero⟩
  | 0, n + 1 => by
    have hdeep : Setback.tooDeep = .tooDeep → 0 < n + 1 := fun _ => n.succ_pos
    exact ⟨.throw hdeep, .throw hdeep, .throw hdeep, .throw hdeep⟩
  | depth + 1, n + 1 => by
    have h := gathers_readers depth n
    rw [← Nat.succ_lt_succ_iff] at h
    exact ⟨gathers_expression h, gathers_unary h, gathers_statement h, gathers_declaration h⟩

/-! ## Programs -/

/-- Statements and stretches of tokens, one for each statement, that it is gathered from. -/
abbrev Gathered : List Stmt → List (List Token) → Prop :=
  List.Forall₂ fun st stretch => (Tokens.stmt st : Multiset Token) ≤ stretch

theorem Gathered.le {sts : List Stmt} {stretches : List (List Token)} (h : Gathered sts stretches) :
    (Tokens.stmts sts : Multiset Token) ≤ stretches.flatten := by
  induction h with
  | nil => exact le_refl _
  | @cons st stretch sts stretches hst _ ih =>
    rw [Tokens.stmts, List.flatten_cons, ← Multiset.coe_add, ← Multiset.coe_add]
    exact add_le_add hst ih

/-- What holds of tokens in the order of the stretches holds of those of two statements. -/
theorem Gathered.pairwise {R : Token → Token → Prop} {sts : List Stmt}
    {stretches : List (List Token)} (h : Gathered sts stretches)
    (hR : stretches.flatten.Pairwise R) :
    sts.Pairwise fun st st' => ∀ t ∈ Tokens.stmt st, ∀ t' ∈ Tokens.stmt st', R t t' := by
  induction h with
  | nil => exact .nil
  | @cons st stretch sts stretches hst hsts ih =>
    rw [List.flatten_cons, List.pairwise_append] at hR
    obtain ⟨-, hlater, hbetween⟩ := hR
    refine .cons (fun st' hst' t ht t' ht' => ?_) (ih hlater)
    have hsts' : t' ∈ Tokens.stmts sts := Tokens.mem_stmts.2 ⟨st', hst', ht'⟩
    exact hbetween t (Multiset.mem_of_le hst ht) t' (Multiset.mem_of_le (Gathered.le hsts) hsts')

namespace Program

/-- **The statements of a program** are gathered from stretches of its tokens, one behind the
other. Those between them belong to declarations that were skipped. -/
theorem declarations_gathered (depth : Nat) : ∀ fuel (c : Cursor),
    ∃ stretches : List (List Token), stretches.flatten.Sublist c.rest ∧
      Gathered (declarations (readers depth) fuel [] c).statements stretches := by
  intro fuel
  induction fuel with
  | zero => exact fun c => ⟨[], List.nil_sublist _, .nil⟩
  | succ fuel ih =>
    intro c
    unfold declarations
    split
    · exact ⟨[], List.nil_sublist _, .nil⟩
    · have hd := (gathers_readers depth (c.rest.length + 1)).declaration c (Nat.lt_succ_self _)
      cases ho : (readers depth).declaration c with
      | error e c₁ => exact ⟨[], List.nil_sublist _, .nil⟩
      | ok st c₁ =>
        rw [ho] at hd
        obtain ⟨-, stretch, hrest, hle⟩ := hd
        obtain ⟨stretches, hsub, hgathered⟩ := ih c₁
        dsimp only
        rw [declarations_done, hrest]
        cases st with
        | none => exact ⟨stretches, hsub.trans (List.sublist_append_right stretch _), hgathered⟩
        | some st =>
          have hst : (Tokens.stmts [st] : Multiset Token) ≤ 0 + ↑stretch := hle
          rw [Tokens.stmts, Tokens.stmts, List.append_nil, zero_add] at hst
          exact ⟨stretch :: stretches, hsub.append_left stretch, .cons hst hgathered⟩

/-- The places of distinct tokens are in their order. -/
theorem pairwise_idxOf {tokens : List Token} (h : tokens.Nodup) :
    tokens.Pairwise fun t t' => tokens.idxOf t < tokens.idxOf t' := by
  rw [List.pairwise_iff_getElem]
  intro i j hi hj hlt
  rwa [h.idxOf_getElem, h.idxOf_getElem]

/-- **Nothing is invented or duplicated** where tokens do not fit the grammar. Let the tokens be
distinct, and the last one mark the end. Whatever the others are, those in the trees that are read
stand in front of the first one that marks the end, and none stands in the trees twice. Each
statement has its tokens in front of all those of the statements behind it. No two references have
one serial. -/
theorem ofTokens?_gathers (depth serial : Nat) (tokens : List Token) (last : Token)
    (hlast : last.kind = .endOfText) (hdistinct : (tokens ++ [last]).Nodup) :
    ∃ program, ofTokens? depth serial (tokens ++ [last]) = some program ∧
      (∀ t ∈ Tokens.stmts program.statements, t ∈ front tokens) ∧
      (Tokens.stmts program.statements).Nodup ∧
      (program.statements.Pairwise fun st st' =>
        ∀ t ∈ Tokens.stmt st, ∀ t' ∈ Tokens.stmt st', tokens.idxOf t < tokens.idxOf t') ∧
      (Serials.stmts program.statements).Nodup := by
  obtain ⟨stop, hsplit⟩ := split?_append tokens hlast
  obtain ⟨stretches, hsub, hgathered⟩ :=
    declarations_gathered depth _ (Cursor.front serial (front tokens) stop)
  have htokens : tokens.Nodup := hdistinct.of_append_left
  have hfront : (front tokens).Sublist tokens := List.takeWhile_sublist _
  have hle : (Tokens.stmts (read depth serial (front tokens) stop).statements).Subperm
      (front tokens) := Multiset.coe_le.1 ((Gathered.le hgathered).trans hsub.subperm)
  refine ⟨read depth serial (front tokens) stop, by rw [ofTokens?, hsplit]; rfl,
    fun t ht => hle.subset ht, ?_, ?_, ?_⟩
  · exact Multiset.nodup_of_le (Multiset.coe_le.2 hle) (htokens.sublist hfront)
  · exact Gathered.pairwise hgathered ((pairwise_idxOf htokens).sublist (hsub.trans hfront))
  · exact (read_between depth serial (front tokens) stop).nodup

/-- A statement without its value, a counted loop, a target that is none, and a brace too many. -/
theorem ofTokens?_gathers_skipped :
    let scan := Scan.ofText "a = b; print ; for (; c; d = a) print d; a + b = c; \x7d"
    let tokens := scan.tokens.toList
    ∃ program, ofTokens? 9 0 (tokens ++ [scan.stop]) = some program ∧ program.issues.size = 3 ∧
      program.statements.length = 3 ∧ (Tokens.stmts program.statements).Nodup ∧
      (program.statements.Pairwise fun st st' =>
        ∀ t ∈ Tokens.stmt st, ∀ t' ∈ Tokens.stmt st', tokens.idxOf t < tokens.idxOf t') ∧
      (Serials.stmts program.statements).Nodup := by
  intro scan tokens
  have hdistinct : (tokens ++ [scan.stop]).Nodup := by decide +kernel
  have hread : (ofTokens? 9 0 (tokens ++ [scan.stop])).any
      (fun p => p.issues.size == 3 && p.statements.length == 3) = true := by decide +kernel
  obtain ⟨program, hprogram, -, hnodup, hpairwise, hserials⟩ :=
    ofTokens?_gathers 9 0 tokens scan.stop rfl hdistinct
  rw [hprogram, Option.any_some, Bool.and_eq_true, beq_iff_eq, beq_iff_eq] at hread
  exact ⟨program, hprogram, hread.1, hread.2, hnodup, hpairwise, hserials⟩

end Program

end Scriptlet.Grammar

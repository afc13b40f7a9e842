import Scriptlet.Proofs.Grammar.Soundness

/-!
# Turns enough

A loop of the grammar has a number of turns, which only has to be greater than the number of tokens
that are still to be read: every turn takes a token, so the loop is over before its turns are. With
turns enough it does not matter how many there are (`Program.declarations_steady`), whether the
tokens fit the grammar or not.

**Steady readers** (`Reader.Steady`). Two readers are steady below a number of tokens if, with fewer
tokens than that ahead, they do the same on cursors that differ in their turns alone. What makes the
induction go through is that every reader also says how many tokens it takes at least: an expression
or a statement takes one, and a declaration takes one if there is one, also if it does not fit and
is skipped.
-/

namespace Scriptlet.Grammar

variable {α β : Type} {n n' k k' : Nat}

/-- Cursors that differ in their turns alone, and have turns enough. -/
structure Cursor.Alike (c c' : Cursor) : Prop where
  rest : c'.rest = c.rest
  stop : c'.stop = c.stop
  serial : c'.serial = c.serial
  issues : c'.issues = c.issues
  roomy : c.Roomy
  roomy' : c'.Roomy

theorem Cursor.Alike.next {c c' : Cursor} (h : c.Alike c') : c'.next = c.next := by
  unfold Cursor.next
  rw [h.rest, h.stop]

/-- The same tokens and serial ahead of both. -/
theorem Cursor.Alike.ahead {c c' : Cursor} (h : c.Alike c') (rest : List Token) (serial : Nat)
    (hle : rest.length ≤ c.rest.length) : (c.ahead rest serial).Alike (c'.ahead rest serial) := by
  refine ⟨rfl, h.stop, rfl, h.issues, Nat.lt_of_le_of_lt hle h.roomy, ?_⟩
  have hroomy := h.roomy'
  unfold Cursor.Roomy at hroomy
  rw [h.rest] at hroomy
  exact Nat.lt_of_le_of_lt hle hroomy

/-! ## Steady readers -/

namespace Reader

/-- The same results, on cursors that differ in their turns alone. At most `m` tokens are ahead if
reading went on, and at most `l` if it did not. -/
inductive Together (m l : Nat) :
    EStateM.Result Setback Cursor α → EStateM.Result Setback Cursor α → Prop
  | ok (a : α) {c c' : Cursor} (hc : c.Alike c') (hle : c.rest.length ≤ m) :
    Together m l (.ok a c) (.ok a c')
  | error (e : Setback) {c c' : Cursor} (hc : c.Alike c') (hle : c.rest.length ≤ l) :
    Together m l (.error e c) (.error e c')

variable {m m' l l' : Nat} {r r' s s' : Reader α} {f f' : α → Reader β}

theorem Together.mono {o o' : EStateM.Result Setback Cursor α} (h : Together m l o o')
    (hm : m ≤ m') (hl : l ≤ l') : Together m' l' o o' := by
  cases h with
  | ok a hc hle => exact .ok a hc (Nat.le_trans hle hm)
  | error e hc hle => exact .error e hc (Nat.le_trans hle hl)

theorem Together.bind {c c' : Cursor} (h : Together m l (r c) (r' c'))
    (hf : ∀ a c₁ c₁', Cursor.Alike c₁ c₁' → c₁.rest.length ≤ m →
      Together m' l (f a c₁) (f' a c₁')) : Together m' l ((r >>= f) c) ((r' >>= f') c') := by
  show Together m' l (EStateM.bind r f c) (EStateM.bind r' f' c')
  unfold EStateM.bind
  generalize r c = o at h
  generalize r' c' = o' at h
  cases h with
  | ok a hc hle => exact hf a _ _ hc hle
  | error e hc hle => exact .error e hc hle

/-- With fewer than `n` tokens ahead, the two readers do the same on cursors that differ in their
turns alone. With a result they take `k` tokens at least, or all that there are. -/
def Steady (n k : Nat) (r r' : Reader α) : Prop :=
  ∀ c c' : Cursor, c.Alike c' → c.rest.length < n →
    Together (c.rest.length - k) c.rest.length (r c) (r' c')

theorem Steady.mono (h : Steady n k r r') (hn : n' ≤ n) (hk : k' ≤ k) : Steady n' k' r r' :=
  fun c c' hc hlt =>
    (h c c' hc (Nat.lt_of_lt_of_le hlt hn)).mono (Nat.sub_le_sub_left hk _) (Nat.le_refl _)

/-- What takes something takes nothing at least. -/
theorem Steady.any (h : Steady n k r r') : Steady n 0 r r' := h.mono (Nat.le_refl n) (Nat.zero_le k)

/-- Below no number of tokens there is nothing to show. -/
theorem Steady.zero : Steady 0 k r r' := fun _ _ _ hlt => absurd hlt (Nat.not_lt_zero _)

theorem Steady.pure (a : α) : Steady n 0 (Pure.pure a : Reader α) (Pure.pure a) :=
  fun _ _ hc _ => .ok a hc (Nat.le_refl _)

theorem Steady.throw (e : Setback) :
    Steady n k (MonadExcept.throw e : Reader α) (MonadExcept.throw e) :=
  fun _ _ hc _ => .error e hc (Nat.le_refl _)

/-- Readers one behind the other take what both take. -/
theorem Steady.bind (h : Steady n k r r') (hf : ∀ a, Steady n k' (f a) (f' a)) :
    Steady n (k + k') (r >>= f) (r' >>= f') := by
  intro c c' hc hlt
  refine (h c c' hc hlt).bind fun a c₁ c₁' hc₁ hle => ?_
  exact (hf a c₁ c₁' hc₁ (by omega)).mono (by omega) (by omega)

/-- A reader that takes something, and others behind it. -/
theorem Steady.first (h : Steady n k r r') (hf : ∀ a, Steady n 0 (f a) (f' a)) :
    Steady n k (r >>= f) (r' >>= f') := h.bind hf

/-- A reader in front of one that takes something. -/
theorem Steady.then (h : Steady n k' r r') (hf : ∀ a, Steady n k (f a) (f' a)) :
    Steady n k (r >>= f) (r' >>= f') := (h.bind hf).mono (Nat.le_refl n) (Nat.le_add_left k k')

theorem Steady.map (g : α → β) (h : Steady n k r r') : Steady n k (g <$> r) (g <$> r') :=
  h.first fun a => .pure (g a)

theorem Steady.ite {b : Bool} (h : Steady n k r r') (h' : Steady n k s s') :
    Steady n k (if b = true then r else s) (if b = true then r' else s') := by
  cases b with
  | true => exact h
  | false => exact h'

/-- A reader that looks at what the cursors have in common, and changes nothing. -/
theorem Steady.look {g : Cursor → α} (hg : ∀ c c' : Cursor, c.Alike c' → g c' = g c) :
    Steady n 0 (fun c => .ok (g c) c) (fun c => .ok (g c) c) := by
  intro c c' hc _
  dsimp only
  rw [hg c c' hc]
  exact .ok (g c) hc (Nat.le_refl _)

theorem steady_sees (kind : Kind) : Steady n 0 (sees kind) (sees kind) :=
  .look fun _ _ hc => by rw [hc.rest]

theorem steady_newSerial : Steady n 0 newSerial newSerial := by
  intro c c' hc _
  unfold newSerial
  rw [hc.serial]
  exact .ok c.serial ⟨hc.rest, hc.stop, rfl, hc.issues, hc.roomy, hc.roomy'⟩ (Nat.le_refl _)

theorem steady_complain (t : Token) (cause : Issue.Cause) :
    Steady n 0 (complain t cause) (complain t cause) :=
  fun _ _ hc _ => .ok () ⟨hc.rest, hc.stop, hc.serial, congrArg (Array.push · _) hc.issues,
    hc.roomy, hc.roomy'⟩ (Nat.le_refl _)

theorem steady_complainHere (cause : Issue.Cause) :
    Steady n 0 (complainHere cause) (complainHere cause) := by
  intro c c' hc hlt
  unfold complainHere
  rw [hc.next]
  exact steady_complain c.next cause c c' hc hlt

theorem steady_misfit (cause : Issue.Cause) :
    Steady n k (misfit cause : Reader α) (misfit cause) :=
  (steady_complainHere cause).then fun _ => .throw .misfit

/-- A choice by the next token. If it is taken there is one token less ahead. -/
theorem Steady.matchTakeIf {fits : Kind → Bool} {f f' : Option Token → Reader α}
    (hf : ∀ t, Steady (n - 1) (k - 1) (f (some t)) (f' (some t)))
    (hn : Steady n k (f none) (f' none)) : Steady n k (takeIf fits >>= f) (takeIf fits >>= f') := by
  intro c c' hc hlt
  have hnone := hn c c' hc hlt
  show Together _ _ (EStateM.bind (takeIf fits) f c) (EStateM.bind (takeIf fits) f' c')
  unfold EStateM.bind takeIf
  rw [hc.rest]
  cases hrest : c.rest with
  | nil =>
    rw [hrest] at hnone
    exact hnone
  | cons t rest =>
    rw [hrest] at hnone hlt
    by_cases hfits : fits t.kind = true
    · simp only [hfits, if_true]
      have hlen : (t :: rest).length = rest.length + 1 := rfl
      have halike : Cursor.Alike { c with rest } { c' with rest } := by
        have hahead := hc.ahead rest c.serial (by rw [hrest]; omega)
        exact ⟨rfl, hc.stop, hc.serial, hc.issues, hahead.roomy, hahead.roomy'⟩
      refine (hf t { c with rest } { c' with rest } halike ?_).mono ?_ ?_
      all_goals dsimp only; omega
    · simp only [hfits]
      exact hnone

/-- A choice by whether the next token is of some kind. -/
theorem Steady.ifTakes {kind : Kind} (h : Steady (n - 1) (k - 1) r r') (h' : Steady n k s s') :
    Steady n k (takes kind >>= fun b => if b = true then r else s)
      (takes kind >>= fun b => if b = true then r' else s') := by
  rw [takes_bind, takes_bind]
  exact .matchTakeIf (fun _ => h) h'

theorem steady_require (kind : Kind) (what : String) :
    Steady n 1 (require kind what) (require kind what) :=
  .matchTakeIf (fun _ => .pure _) (steady_misfit _)

/-- A loop whose turns are counted down. If every turn takes a token there are turns enough. -/
theorem Steady.loop {σ : Type} {f : Nat → σ → Reader α}
    (h : ∀ n fuel fuel', (∀ s, Steady n k (f fuel s) (f fuel' s)) →
      ∀ s, Steady (n + 1) k (f (fuel + 1) s) (f (fuel' + 1) s)) (s : σ) :
    Steady n k (turns >>= fun fuel => f fuel s) (turns >>= fun fuel => f fuel s) := by
  have hf : ∀ n fuel fuel', n ≤ fuel → n ≤ fuel' → ∀ s, Steady n k (f fuel s) (f fuel' s) := by
    intro n
    induction n with
    | zero => exact fun _ _ _ _ _ => .zero
    | succ n ih =>
      rintro (_ | fuel) (_ | fuel') hfuel hfuel'
      · exact absurd hfuel (Nat.not_succ_le_zero n)
      · exact absurd hfuel (Nat.not_succ_le_zero n)
      · exact absurd hfuel' (Nat.not_succ_le_zero n)
      · exact h n fuel fuel' (ih fuel fuel' (Nat.le_of_succ_le_succ hfuel)
          (Nat.le_of_succ_le_succ hfuel'))
  intro c c' hc _
  have hroomy' : c.rest.length < c'.turns := hc.rest ▸ hc.roomy'
  exact hf (c.rest.length + 1) c.turns c'.turns hc.roomy hroomy' s c c' hc (Nat.lt_succ_self _)

end Reader

open Reader

/-! ## Expressions -/

/-- The readers for what is nested are steady, and take a token. -/
structure Nested.Steady (nested : Nested) : Prop where
  expression : ∀ n, Reader.Steady n 1 nested.expression nested.expression
  unary : ∀ n, Reader.Steady n 1 nested.unary nested.unary
  statement : ∀ n, Reader.Steady n 1 nested.statement nested.statement
  declaration : ∀ n, Reader.Steady n 1 nested.declaration nested.declaration

variable {nested : Nested}

theorem steady_entries {what : String} {entry : Reader α}
    (h : ∀ n, Reader.Steady n 1 entry entry) (n : Nat) :
    Reader.Steady n 0 (entries what entry) (entries what entry) := by
  refine (steady_sees _).then fun _ => .ite (.pure _) ?_
  refine .loop (fun n fuel fuel' ih count => ?_) 0
  have hentry : Reader.Steady (n + 1) 0
      (do
        let first ← entry
        if ← Reader.takes (.mark .comma) then
          return first :: (← entriesFrom what entry fuel (count + 1))
        else return [first])
      (do
        let first ← entry
        if ← Reader.takes (.mark .comma) then
          return first :: (← entriesFrom what entry fuel' (count + 1))
        else return [first]) :=
    (h (n + 1)).any.first fun _ => .ifTakes ((ih (count + 1)).first fun _ => .pure _) (.pure _)
  unfold entriesFrom
  split
  · exact (steady_complainHere _).then fun _ => hentry
  · exact hentry

section
variable (h : nested.Steady)
include h

theorem steady_primary (n : Nat) : Reader.Steady n 1 (primary nested) (primary nested) := by
  unfold primary
  refine .ifTakes (.pure _) <| .ifTakes (.pure _) <| .ifTakes (.pure _) <|
    .matchTakeIf (fun t => Reader.Steady.pure _) <|
    .matchTakeIf (fun t => Reader.Steady.first steady_newSerial fun k => .pure _) <|
    .ifTakes ?_ (steady_misfit _)
  exact (h.expression _).any.first fun _ => (steady_require _ _).any.first fun _ => .pure _

theorem steady_unary (n : Nat) : Reader.Steady n 1 (unary nested) (unary nested) := by
  unfold unary call
  refine .matchTakeIf (fun op => (h.unary _).any.first fun _ => .pure _) ?_
  refine (steady_primary h n).first fun callee => .loop (fun n fuel fuel' ih callee => ?_) callee
  refine .ifTakes ((steady_entries h.expression _).then fun args => ?_) (.pure _)
  exact (steady_require _ _).any.then fun paren => ih (.call callee paren args)

theorem steady_disjunction (n : Nat) :
    Reader.Steady n 1 (disjunction nested) (disjunction nested) := by
  have hlevel : ∀ {level : Level} {operand : Reader Expr},
      (∀ n, Reader.Steady n 1 operand operand) →
      ∀ n, Reader.Steady n 1 (leftAssociative level operand) (leftAssociative level operand) := by
    intro level operand ho n
    refine (ho n).first fun lhs => .loop (fun n fuel fuel' ih lhs => ?_) lhs
    exact .matchTakeIf (fun op => (ho _).any.then fun rhs => ih _) (.pure _)
  exact hlevel (hlevel <| hlevel <| hlevel <| hlevel <| hlevel <| steady_unary h) n

theorem steady_expression (n : Nat) :
    Reader.Steady n 1 (expression nested) (expression nested) := by
  refine (steady_disjunction h n).first fun target => .matchTakeIf (fun equals => ?_) (.pure _)
  refine (h.expression _).any.first fun value => ?_
  cases target with
  | ref name i => exact steady_newSerial.first fun _ => .pure _
  | _ => exact (steady_complain _ _).first fun _ => .pure _

/-! ## Statements -/

omit h in
theorem steady_semicolon (behind : String) :
    Reader.Steady n 1 (semicolon behind) (semicolon behind) :=
  .map _ (steady_require _ _)

theorem steady_simple (n : Nat) : Reader.Steady n 1 (simple nested) (simple nested) :=
  (steady_expression h n).first fun _ => (steady_semicolon _).any.first fun _ => .pure _

theorem steady_expressionUnless (k : Kind) (n : Nat) :
    Reader.Steady n 0 (expressionUnless k nested) (expressionUnless k nested) :=
  (steady_sees k).then fun _ =>
    .ite (.pure _) ((steady_expression h n).any.first fun _ => .pure _)

theorem steady_variableDeclaration (n : Nat) :
    Reader.Steady n 1 (variableDeclaration nested) (variableDeclaration nested) := by
  refine (steady_require _ _).first fun name => ?_
  have hrest : ∀ {n : Nat} (init : Option Expr), Reader.Steady n 0
      (do semicolon "variable declaration"; return Stmt.var name init)
      (do semicolon "variable declaration"; return Stmt.var name init) :=
    fun _ => (steady_semicolon _).any.first fun _ => .pure _
  exact .ifTakes ((Steady.map some (steady_expression h _)).any.first hrest)
    ((Steady.pure none).first hrest)

omit h in
/-- A block goes on if there is a token that does not close it. -/
theorem blockFrom_cons {fuel : Nat} {c : Cursor} {t : Token} {rest : List Token}
    (hrest : c.rest = t :: rest) :
    blockFrom nested (fuel + 1) c =
      if t.kind = .mark .rightBrace then .ok [] c
      else (do
          let first ← nested.declaration
          let rest ← blockFrom nested fuel
          return first.toList ++ rest : Reader (List Stmt)) c := by
  rw [blockFrom, nextKind?_bind, hrest, List.head?_cons, Option.map_some]
  cases t.kind with
  | mark m => cases m <;> rfl
  | _ => rfl

theorem steady_block (n : Nat) : Reader.Steady n 0 (block nested) (block nested) := by
  suffices hloop : Reader.Steady n 0 (Reader.turns >>= fun fuel => blockFrom nested fuel)
      (Reader.turns >>= fun fuel => blockFrom nested fuel) from
    hloop.first fun _ => (steady_require _ _).any.first fun _ => .pure _
  refine Steady.loop (f := fun fuel _ => blockFrom nested fuel)
    (fun n fuel fuel' ih _ c c' hc hlt => ?_) ()
  cases hrest : c.rest with
  | nil =>
    have hnone : ∀ {fuel : Nat} {c : Cursor}, c.rest = [] →
        blockFrom nested (fuel + 1) c = .ok [] c := by
      intro fuel c hrest
      rw [blockFrom, nextKind?_bind, hrest]
      rfl
    rw [hnone hrest, hnone (hc.rest.trans hrest)]
    exact .ok [] hc (Nat.le_of_eq (congrArg _ hrest))
  | cons t rest =>
    have hlen : c.rest.length = rest.length + 1 := congrArg _ hrest
    rw [blockFrom_cons hrest, blockFrom_cons (hc.rest.trans hrest), ← hrest]
    split
    · exact .ok [] hc (Nat.le_refl _)
    -- A declaration takes a token if there is one, so less is ahead of those behind it.
    · refine (h.declaration _ c c' hc hlt).bind fun first c₁ c₁' hc₁ hle => ?_
      exact (((ih ()).first fun _ => .pure _) c₁ c₁' hc₁ (by omega)).mono (by omega) (by omega)

theorem steady_functionDeclaration (n : Nat) :
    Reader.Steady n 1 (functionDeclaration nested) (functionDeclaration nested) :=
  (steady_require _ _).first fun _ => (steady_require _ _).any.first fun _ =>
    (steady_entries (fun _ => steady_require _ _) n).first fun _ =>
    (steady_require _ _).any.first fun _ => (steady_require _ _).any.first fun _ =>
    (steady_block h n).first fun _ => .pure _

theorem steady_loopStart (n : Nat) :
    Reader.Steady n 0 (loopStart nested) (loopStart nested) :=
  .ifTakes (.pure _) <| .ifTakes (.map _ (steady_variableDeclaration h _).any)
    (.map _ (steady_simple h n).any)

theorem steady_countedLoop (n : Nat) :
    Reader.Steady n 1 (countedLoop nested) (countedLoop nested) :=
  (steady_require _ _).first fun _ => (steady_loopStart h n).first fun _ =>
    (steady_expressionUnless h _ n).first fun _ => (steady_semicolon _).any.first fun _ =>
    (steady_expressionUnless h _ n).first fun _ => (steady_require _ _).any.first fun _ =>
    (h.statement n).any.first fun _ => .pure _

theorem steady_branch (n : Nat) : Reader.Steady n 1 (branch nested) (branch nested) := by
  refine (steady_require _ _).first fun _ => (steady_expression h n).any.first fun condition => ?_
  refine (steady_require _ _).any.first fun _ => (h.statement n).any.first fun yes => ?_
  exact .ifTakes ((Steady.map some (h.statement _)).any.first fun _ => .pure _)
    ((Steady.pure none).first fun _ => .pure _)

theorem steady_plainLoop (n : Nat) : Reader.Steady n 1 (plainLoop nested) (plainLoop nested) :=
  (steady_require _ _).first fun _ => (steady_expression h n).any.first fun _ =>
    (steady_require _ _).any.first fun _ => (h.statement n).any.first fun _ => .pure _

theorem steady_statement (n : Nat) : Reader.Steady n 1 (statement nested) (statement nested) := by
  unfold statement
  exact .ifTakes (steady_countedLoop h _).any <| .ifTakes (steady_branch h _).any <|
    .matchTakeIf (fun _ => (steady_expression h _).any.first fun _ =>
      (steady_semicolon _).any.first fun _ => .pure _) <|
    .matchTakeIf (fun _ => (steady_expressionUnless h _ _).first fun _ =>
      (steady_semicolon _).any.first fun _ => .pure _) <|
    .ifTakes (steady_plainLoop h _).any <|
    .ifTakes (.map _ (steady_block h _)) (steady_simple h n)

/-- A declaration that does not fit is skipped with the token at fault. -/
theorem steady_declaration (n : Nat) :
    Reader.Steady n 1 (declaration nested) (declaration nested) := by
  have hbare : Reader.Steady n 1 (bareDeclaration nested) (bareDeclaration nested) := by
    unfold bareDeclaration
    exact .ifTakes (steady_functionDeclaration h _).any <|
      .ifTakes (steady_variableDeclaration h _).any (steady_statement h n)
  intro c c' hc hlt
  have hd := hbare c c' hc hlt
  unfold declaration
  generalize bareDeclaration nested c = o at hd
  generalize bareDeclaration nested c' = o' at hd
  cases hd with
  | ok st hc₁ hle => exact .ok (some st) hc₁ hle
  | @error e c₁ c₁' hc₁ hle =>
    cases e with
    | tooDeep => exact .error .tooDeep hc₁ hle
    | misfit =>
      have hresume : (resume c₁.rest).length ≤ c₁.rest.length - 1 := by
        cases c₁.rest with
        | nil => exact Nat.le_refl 0
        | cons t rest => exact (resumeAfter_suffix t rest).length_le
      have hahead := hc₁.ahead (resume c₁.rest) c₁.serial (by omega)
      dsimp only
      rw [hc₁.rest]
      exact .ok none ⟨rfl, hc₁.stop, hc₁.serial, hc₁.issues, hahead.roomy, hahead.roomy'⟩
        (by dsimp only; omega)

end

theorem steady_readers : ∀ n, (readers n).Steady
  | 0 => ⟨fun _ => .throw _, fun _ => .throw _, fun _ => .throw _, fun _ => .throw _⟩
  | n + 1 => by
    have h := steady_readers n
    exact ⟨steady_expression h, steady_unary h, steady_statement h, steady_declaration h⟩

/-! ## Programs -/

namespace Program

/-- What was done before stands in front, and changes nothing else. -/
theorem declarations_done (nested : Nested) : ∀ fuel done c,
    declarations nested fuel done c =
      { declarations nested fuel [] c with
        statements := done.reverse ++ (declarations nested fuel [] c).statements } := by
  intro fuel
  induction fuel with
  | zero => exact fun done c => by simp [declarations]
  | succ fuel ih =>
    intro done c
    unfold declarations
    split
    · simp
    · cases nested.declaration c with
      | ok st c =>
        dsimp only
        rw [ih (st.toList ++ done), ih (st.toList ++ [])]
        simp
      | error e c => simp

/-- **With turns enough it does not matter how many there are.** -/
theorem declarations_steady (h : nested.Steady) : ∀ fuel fuel' done (c c' : Cursor),
    c.Alike c' → c.rest.length < fuel → c.rest.length < fuel' →
    declarations nested fuel done c = declarations nested fuel' done c' := by
  intro fuel
  induction fuel with
  | zero => exact fun _ _ _ _ _ hlt => absurd hlt (Nat.not_lt_zero _)
  | succ fuel ih =>
    intro fuel' done c c' hc hlt hlt'
    obtain ⟨fuel', rfl⟩ := Nat.exists_eq_succ_of_ne_zero (Nat.ne_zero_of_lt hlt')
    unfold declarations
    rw [hc.rest]
    split
    · rw [hc.issues, hc.serial]
    · next hrest =>
      have hd := h.declaration _ c c' hc (Nat.lt_succ_self _)
      generalize nested.declaration c = o at hd
      generalize nested.declaration c' = o' at hd
      cases hd with
      | ok st hc₁ hle =>
        have hpos : 0 < c.rest.length := by
          simpa [List.length_pos_iff] using hrest
        exact ih fuel' _ _ _ hc₁ (by omega) (by omega)
      | error e hc₁ hle =>
        dsimp only
        rw [hc₁.issues, hc₁.next, hc₁.serial]

end Program

end Scriptlet.Grammar

import Scriptlet.Proofs.Grammar.Gathering
import Scriptlet.Proofs.Grammar.Recovery
import Scriptlet.Report

/-!
# Reading makes progress and ends

**Theorem (`Program.ofTokens?_advances`).** Whatever the tokens are, reading goes forward through
them and comes to an end.

**Places.** A cursor stands at a place of the tokens, at the latest at the first one that marks the
end (`Cursor.At`). No procedure of the grammar leads back or behind that one, whether it comes to a
result or not: what a reader gives is always ahead of it (`Procedure.forward`).

**Loops.** The loops of the grammar count their turns down, and are over when they have none left.
That this is never why they are over is said without the count: a loop is run by its single turns,
as often as it takes (`Reader.Run`). Each turn behind which there is another takes a token, so the
run is finite (`Reader.Run.of_repeats`), and it ends with what the loop of the grammar ends with.

**Progress.** With a result a declaration has taken a token if there was one, also if it did not fit
and was skipped. Without a result it was too deep, and there is no other way to fail
(`declaration_advances`).

**Recursion.** A rule that mentions one that it is a part of has taken a token before. So a reading
is too deep only if there are at least as many tokens ahead as levels.
-/

namespace Scriptlet.Grammar

variable {α β σ : Type} {n : Nat} {nested : Nested} {tokens : List Token} {p : Nat}
  {c c' : Cursor}

/-! ## Places -/

namespace Cursor

/-- The cursor stands at this place of the tokens, at the latest at the first one that marks the
end. Its loops have more turns than there are tokens in front of that one. -/
structure At (tokens : List Token) (p : Nat) (c : Cursor) : Prop where
  le : p ≤ (Program.front tokens).length
  rest : c.rest = (Program.front tokens).drop p
  stop : tokens[(Program.front tokens).length]? = some c.stop
  turns : (Program.front tokens).length < c.turns

theorem At.length (h : c.At tokens p) : c.rest.length = (Program.front tokens).length - p := by
  rw [h.rest, List.length_drop]

theorem At.roomy (h : c.At tokens p) : c.Roomy := by
  have hlength := h.length
  have hturns := h.turns
  unfold Roomy
  omega

/-- There is a token at the place, and it is the one that comes next. -/
theorem At.next (h : c.At tokens p) : tokens[p]? = some c.next := by
  unfold Cursor.next
  rw [h.rest]
  by_cases hlt : p < (Program.front tokens).length
  · have hprefix : Program.front tokens <+: tokens := List.takeWhile_prefix _
    rw [List.drop_eq_getElem_cons hlt, List.headD_cons, hprefix.getElem hlt]
    exact List.getElem?_eq_getElem _
  · obtain rfl : p = (Program.front tokens).length := Nat.le_antisymm h.le (Nat.le_of_not_lt hlt)
    rw [List.drop_length, List.headD_nil]
    exact h.stop

/-- Reading leads to a place that is not further in front. -/
theorem At.advance (h : c.At tokens p) (hc : c.Before c') : ∃ p', p ≤ p' ∧ c'.At tokens p' := by
  obtain ⟨taken, htaken⟩ := hc.rest
  have hlength := congrArg List.length htaken
  rw [List.length_append, h.length] at hlength
  refine ⟨p + taken.length, Nat.le_add_right _ _, ?_, ?_, hc.stop ▸ h.stop, hc.turns ▸ h.turns⟩
  · have hle := h.le
    omega
  · rw [← List.drop_drop, ← h.rest, ← htaken, List.drop_left]

/-- Reading begins at the first place. -/
theorem front_at (serial : Nat) {fore : List Token} {stop : Token}
    (hfore : Program.front tokens = fore) (hstop : tokens[fore.length]? = some stop) :
    (Cursor.front serial fore stop).At tokens 0 := by
  obtain rfl := hfore
  exact ⟨Nat.zero_le _, rfl, hstop, Nat.lt_succ_self _⟩

end Cursor

namespace Reader

/-- Where the reader stops, with a result or without. -/
def behind (r : Reader α) (c : Cursor) : Cursor :=
  match r c with
  | .ok _ c' | .error _ c' => c'

/-- A reader that leads forward, whatever it reads. -/
abbrev Forward (r : Reader α) : Prop := r.Gives fun _ _ _ _ _ => True

theorem Gives.forward {r : Reader α} {D : Passage α} (h : r.Gives D) : r.Forward :=
  h.mono fun _ _ _ _ _ _ => trivial

theorem Forward.bind {r : Reader α} {f : α → Reader β} (h : r.Forward)
    (hf : ∀ a, (f a).Forward) : (r >>= f).Forward := (Gives.bind h hf).forward

theorem Forward.behind {r : Reader α} (h : r.Forward) (hc : c.Roomy) :
    c.Before (r.behind c) := by
  have hr := h c hc
  unfold Reader.behind
  cases ho : r c with
  | ok a c' =>
    rw [ho] at hr
    exact hr.1
  | error e c' =>
    rw [ho] at hr
    exact hr.1

/-! ## Loops -/

/-- **The run of a loop** whose turns either go on with something or come to a result, as often as
it takes. A turn that goes on leads forward and takes a token. -/
inductive Run (turn : σ → Reader (σ ⊕ α)) : σ → Cursor → EStateM.Result Setback Cursor α → Prop
  | done {s : σ} {a : α} {c c' : Cursor} : turn s c = .ok (.inr a) c' → Run turn s c (.ok a c')
  | fail {s : σ} {e : Setback} {c c' : Cursor} : turn s c = .error e c' →
      Run turn s c (.error e c')
  | next {s s' : σ} {c c' : Cursor} {o : EStateM.Result Setback Cursor α} :
      turn s c = .ok (.inl s') c' → c.Before c' → c'.rest.length < c.rest.length →
      Run turn s' c' o → Run turn s c o

/-- If the turn goes on it has taken a token. -/
def Repeats (turn : Reader (σ ⊕ α)) : Prop :=
  ∀ c, c.Roomy → ∀ s c', turn c = .ok (.inl s) c' →
    c.Before c' ∧ c'.rest.length < c.rest.length

theorem Repeats.done (a : α) : Repeats (pure (.inr a) : Reader (σ ⊕ α)) := by
  intro c _ s c' heq
  cases heq

theorem Repeats.bind {f : β → Reader (σ ⊕ α)} {r : Reader β} (h : r.Forward)
    (hf : ∀ b, (f b).Repeats) : (r >>= f).Repeats := by
  intro c hc s c'' heq
  have hr := h c hc
  change EStateM.bind r f c = _ at heq
  unfold EStateM.bind at heq
  cases ho : r c with
  | error e c' =>
    rw [ho] at heq
    cases heq
  | ok b c' =>
    rw [ho] at hr heq
    obtain ⟨hbefore, -⟩ := hr
    obtain ⟨hbefore', hlt⟩ := hf b c' (hbefore.roomy hc) s c'' heq
    exact ⟨hbefore.trans hbefore', Nat.lt_of_lt_of_le hlt hbefore.length_le⟩

theorem Repeats.matchTakeIf {fits : Kind → Bool} {f : Option Token → Reader (σ ⊕ α)}
    (hf : ∀ t, (f (some t)).Forward) (hn : (f none).Repeats) : (takeIf fits >>= f).Repeats := by
  intro c hc s c'' heq
  change EStateM.bind (takeIf fits) f c = _ at heq
  unfold EStateM.bind takeIf at heq
  cases hrest : c.rest with
  | nil =>
    rw [hrest] at heq
    rw [← hrest]
    exact hn c hc s c'' heq
  | cons t rest =>
    rw [hrest] at heq
    by_cases hfits : fits t.kind = true
    · simp only [hfits, if_true] at heq
      have htake : c.Before { c with rest } :=
        ⟨rfl, rfl, hrest ▸ List.suffix_cons t rest, Nat.le_refl _, List.prefix_rfl⟩
      have hsome := hf t { c with rest } (htake.roomy hc)
      rw [heq] at hsome
      exact ⟨htake.trans hsome.1, Nat.lt_succ_of_le hsome.1.length_le⟩
    · simp only [hfits] at heq
      rw [← hrest]
      exact hn c hc s c'' heq

theorem Repeats.ifTakes {kind : Kind} {r s : Reader (σ ⊕ α)} (h : r.Forward) (hs : s.Repeats) :
    (takes kind >>= fun b => if b = true then r else s).Repeats := by
  rw [takes_bind]
  exact .matchTakeIf (fun _ => h) hs

/-- **Loops end by themselves.** A loop that counts its turns down does what its turns do if each
turn that goes on takes a token, and there are more turns than tokens. -/
theorem Run.of_repeats {turn : σ → Reader (σ ⊕ α)} {f : Nat → σ → Reader α}
    (hf : ∀ fuel s, f (fuel + 1) s = turn s >>= Sum.elim (f fuel) pure)
    (hturn : ∀ s, (turn s).Repeats) : ∀ fuel s (c : Cursor), c.Roomy → c.rest.length < fuel →
      Run turn s c (f fuel s c) := by
  intro fuel
  induction fuel with
  | zero => exact fun _ _ _ hlt => absurd hlt (Nat.not_lt_zero _)
  | succ fuel ih =>
    intro s c hc hlt
    rw [hf]
    show Run turn s c (EStateM.bind (turn s) _ c)
    unfold EStateM.bind
    cases ho : turn s c with
    | error e c' => exact .fail ho
    | ok o c' =>
      cases o with
      | inr a => exact .done ho
      | inl s' =>
        obtain ⟨hbefore, hless⟩ := hturn s c hc s' c' ho
        exact .next ho hbefore hless (ih s' c' (hbefore.roomy hc) (by omega))

end Reader

open Reader

/-! ## The turns of the loops -/

/-- A turn of a list of entries, behind those that stand in reverse. -/
def entriesTurn (what : String) (entry : Reader α) (done : List α) :
    Reader (List α ⊕ List α) := do
  if maxEntries ≤ done.length then Reader.complainHere (.tooMany what)
  let first ← entry
  if ← Reader.takes (.mark .comma) then return .inl (first :: done)
  else return .inr (first :: done).reverse

/-- A turn of the argument lists behind a callee. -/
def callsTurn (nested : Nested) (callee : Expr) : Reader (Expr ⊕ Expr) := do
  if ← Reader.takes (.mark .leftParen) then
    let args ← entries "arguments" nested.expression
    let paren ← Reader.require (.mark .rightParen) "')' after arguments"
    return .inl (.call callee paren args)
  else return .inr callee

/-- A turn of the operators and operands behind a left operand. -/
def operandsTurn (level : Level) (operand : Reader Expr) (lhs : Expr) :
    Reader (Expr ⊕ Expr) := do
  match ← Reader.takeIf level.fits with
  | some op =>
    let rhs ← operand
    return .inl (level.build lhs op rhs)
  | none => return .inr lhs

/-- A turn of the declarations of a block, behind those that stand in reverse. -/
def blockTurn (nested : Nested) (done : List Stmt) : Reader (List Stmt ⊕ List Stmt) := do
  match ← Reader.nextKind? with
  | none | some (.mark .rightBrace) => return .inr done.reverse
  | some _ =>
    let first ← nested.declaration
    return .inl (first.toList ++ done)

/-- A turn of the declarations of a program, behind those that stand in reverse. Nesting that is too
deep ends the loop with what there is. -/
def Program.turn (nested : Nested) (done : List Stmt) : Reader (List Stmt ⊕ List Stmt) := fun c =>
  if c.rest.isEmpty then .ok (.inr done.reverse) c
  else
    match nested.declaration c with
    | .ok st c' => .ok (.inl (st.toList ++ done)) c'
    | .error _ c' =>
      .ok (.inr done.reverse) { c' with issues := c'.issues.push (.blame c'.next .tooDeep) }

/-- The levels of precedence with the readers of their operands. -/
def folds (nested : Nested) : List (Level × Reader Expr) :=
  [(productLevel, unary nested), (sumLevel, product nested), (comparisonLevel, sum nested),
   (equalityLevel, comparison nested), (conjunctionLevel, equality nested),
   (disjunctionLevel, conjunction nested)]

theorem entriesFrom_succ (what : String) (entry : Reader α) (fuel : Nat) (done : List α) :
    (done.reverse ++ ·) <$> entriesFrom what entry (fuel + 1) done.length =
      entriesTurn what entry done >>=
        Sum.elim (fun done => (done.reverse ++ ·) <$> entriesFrom what entry fuel done.length)
          pure := by
  have hentry : (done.reverse ++ ·) <$> (do
        let first ← entry
        if ← Reader.takes (.mark .comma) then
          return first :: (← entriesFrom what entry fuel (done.length + 1))
        else return [first]) =
      (do
        let first ← entry
        if ← Reader.takes (.mark .comma) then return .inl (first :: done)
        else return .inr (first :: done).reverse : Reader (List α ⊕ List α)) >>=
        Sum.elim (fun done => (done.reverse ++ ·) <$> entriesFrom what entry fuel done.length)
          pure := by
    rw [map_bind, bind_assoc]
    refine bind_congr fun first => ?_
    rw [map_bind, bind_assoc]
    refine bind_congr fun more => ?_
    cases more <;> simp
  rw [entriesFrom, entriesTurn]
  split
  · rw [map_bind, bind_assoc]
    exact bind_congr fun _ => hentry
  · exact hentry

theorem callsFrom_succ (nested : Nested) (fuel : Nat) (callee : Expr) :
    callsFrom nested (fuel + 1) callee =
      callsTurn nested callee >>= Sum.elim (callsFrom nested fuel) pure := by
  rw [callsFrom, callsTurn, bind_assoc]
  refine bind_congr fun more => ?_
  cases more <;> simp

theorem operandsFrom_succ (level : Level) (operand : Reader Expr) (fuel : Nat) (lhs : Expr) :
    operandsFrom level operand (fuel + 1) lhs =
      operandsTurn level operand lhs >>= Sum.elim (operandsFrom level operand fuel) pure := by
  rw [operandsFrom, operandsTurn, bind_assoc]
  refine bind_congr fun op => ?_
  cases op <;> simp

theorem blockFrom_succ (nested : Nested) (fuel : Nat) (done : List Stmt) :
    (done.reverse ++ ·) <$> blockFrom nested (fuel + 1) =
      blockTurn nested done >>=
        Sum.elim (fun done => (done.reverse ++ ·) <$> blockFrom nested fuel) pure := by
  rw [blockFrom, blockTurn, map_bind, bind_assoc]
  refine bind_congr fun kind => ?_
  split
  · simp
  · simp
  · simp only [map_bind, bind_assoc]
    refine bind_congr fun first => ?_
    cases first <;> simp

/-- A block goes on if there is a token that does not close it. -/
theorem blockTurn_cons {done : List Stmt} {t : Token} {rest : List Token}
    (hrest : c.rest = t :: rest) :
    blockTurn nested done c =
      if t.kind = .mark .rightBrace then .ok (.inr done.reverse) c
      else (do
          let first ← nested.declaration
          return .inl (first.toList ++ done) : Reader (List Stmt ⊕ List Stmt)) c := by
  rw [blockTurn, nextKind?_bind, hrest, List.head?_cons, Option.map_some]
  cases t.kind with
  | mark m => cases m <;> rfl
  | _ => rfl

/-! ## The loops end -/

theorem repeats_entries {what : String} {entry : Reader α} (h : entry.Forward) (done : List α) :
    (entriesTurn what entry done).Repeats := by
  have hentry : (do
      let first ← entry
      if ← Reader.takes (.mark .comma) then return .inl (first :: done)
      else return .inr (first :: done).reverse : Reader (List α ⊕ List α)).Repeats :=
    .bind h fun _ => .ifTakes (Gives.pure _).forward (.done _)
  unfold entriesTurn
  split
  · exact .bind Gives.complainHere fun _ => hentry
  · exact hentry

theorem repeats_operands (level : Level) {operand : Reader Expr} (h : operand.Forward)
    (lhs : Expr) : (operandsTurn level operand lhs).Repeats :=
  .matchTakeIf (fun _ => h.bind fun _ => (Gives.pure _).forward) (.done _)

theorem forward_leftAssociative (level : Level) {operand : Reader Expr} (h : operand.Forward) :
    (leftAssociative level operand).Forward := by
  have hfrom : ∀ fuel lhs, (operandsFrom level operand fuel lhs).Forward := by
    intro fuel
    induction fuel with
    | zero => exact fun lhs => (Gives.pure lhs).forward
    | succ fuel ih =>
      exact fun lhs => (Gives.matchTakeIf (fun op => h.bind fun rhs => ih _)
        (Gives.pure lhs)).forward
  exact h.bind fun lhs => Gives.turns.forward.bind fun fuel => hfrom fuel lhs

/-- A list that nothing was put in front of. -/
theorem map_nil_append (r : Reader (List α)) : (([] : List α).reverse ++ ·) <$> r = r := id_map r

theorem run_entries {what : String} {entry : Reader α} (h : entry.Forward) (hc : c.Roomy) :
    Run (entriesTurn what entry) [] c (entriesFrom what entry c.turns 0 c) := by
  have hrun := Run.of_repeats
    (f := fun fuel done => (done.reverse ++ ·) <$> entriesFrom what entry fuel done.length)
    (entriesFrom_succ what entry) (repeats_entries h) c.turns [] c hc hc
  rwa [map_nil_append] at hrun

/-- All loops of one level of nesting end by themselves at this cursor. -/
structure Nested.LoopsEnd (nested : Nested) (c : Cursor) : Prop where
  parameters : Run (entriesTurn "parameters" (require .name "parameter name")) [] c
    (entriesFrom "parameters" (require .name "parameter name") c.turns 0 c)
  arguments : Run (entriesTurn "arguments" nested.expression) [] c
    (entriesFrom "arguments" nested.expression c.turns 0 c)
  calls : ∀ callee, Run (callsTurn nested) callee c (callsFrom nested c.turns callee c)
  operands : ∀ fold ∈ folds nested, ∀ lhs, Run (operandsTurn fold.1 fold.2) lhs c
    (operandsFrom fold.1 fold.2 c.turns lhs c)
  block : Run (blockTurn nested) [] c (blockFrom nested c.turns c)

section
variable (hsound : Sound n nested)
include hsound

theorem repeats_calls (callee : Expr) : (callsTurn nested callee).Repeats :=
  .ifTakes ((gives_entries hsound.expression).forward.bind fun _ =>
    Gives.require.forward.bind fun _ => (Gives.pure _).forward) (.done _)

theorem forward_folds : ∀ fold ∈ folds nested, fold.2.Forward := by
  have hunary : (unary nested).Forward := (gives_unary hsound).forward
  have hproduct : (product nested).Forward := forward_leftAssociative _ hunary
  have hsum : (sum nested).Forward := forward_leftAssociative _ hproduct
  have hcomparison : (comparison nested).Forward := forward_leftAssociative _ hsum
  have hequality : (equality nested).Forward := forward_leftAssociative _ hcomparison
  have hconjunction : (conjunction nested).Forward := forward_leftAssociative _ hequality
  intro fold hfold
  simp only [folds, List.mem_cons, List.not_mem_nil, or_false] at hfold
  rcases hfold with rfl | rfl | rfl | rfl | rfl | rfl
  · exact hunary
  · exact hproduct
  · exact hsum
  · exact hcomparison
  · exact hequality
  · exact hconjunction

variable (hsteady : nested.Steady)
include hsteady

/-- A declaration with a result has taken a token if there was one. -/
theorem declaration_takes {st : Option Stmt} (hc : c.Roomy)
    (heq : nested.declaration c = .ok st c') :
    c.Before c' ∧ (c.rest ≠ [] → c'.rest.length < c.rest.length) := by
  have hgives := hsound.declaration c hc
  have htogether := hsteady.declaration (c.rest.length + 1) c c ⟨rfl, rfl, rfl, rfl, hc, hc⟩
    (Nat.lt_succ_self _)
  rw [heq] at hgives htogether
  refine ⟨hgives.1, fun hrest => ?_⟩
  have hpos : 0 < c.rest.length := List.length_pos_iff.2 hrest
  cases htogether with
  | ok _ _ hle => omega

theorem repeats_block (done : List Stmt) : (blockTurn nested done).Repeats := by
  intro c hc s c' heq
  cases hrest : c.rest with
  | nil =>
    rw [blockTurn, nextKind?_bind, hrest] at heq
    cases heq
  | cons t rest =>
    rw [blockTurn_cons hrest] at heq
    rw [← hrest]
    split at heq
    · cases heq
    · change EStateM.bind nested.declaration _ c = _ at heq
      unfold EStateM.bind at heq
      cases ho : nested.declaration c with
      | error e c₁ =>
        rw [ho] at heq
        cases heq
      | ok st c₁ =>
        rw [ho] at heq
        cases heq
        exact (declaration_takes hsound hsteady hc ho).imp_right fun h => h (by simp [hrest])

theorem loopsEnd (hc : c.Roomy) : nested.LoopsEnd c where
  parameters := run_entries Gives.require.forward hc
  arguments := run_entries hsound.expression.forward hc
  calls callee :=
    Run.of_repeats (callsFrom_succ nested) (repeats_calls hsound) c.turns callee c hc hc
  operands fold hfold lhs := Run.of_repeats (operandsFrom_succ fold.1 fold.2)
    (repeats_operands fold.1 (forward_folds hsound fold hfold)) c.turns lhs c hc hc
  block := by
    have hrun := Run.of_repeats
      (f := fun fuel done => (done.reverse ++ ·) <$> blockFrom nested fuel)
      (blockFrom_succ nested) (repeats_block hsound hsteady) c.turns [] c hc hc
    rwa [map_nil_append] at hrun

end

/-! ## The procedures -/

/-- The procedures of the grammar with these readers for what is nested. -/
inductive Procedure (nested : Nested) : {α : Type} → Reader α → Prop
  | takeIf (fits : Kind → Bool) : Procedure nested (Reader.takeIf fits)
  | require (k : Kind) (what : String) : Procedure nested (Reader.require k what)
  | resume : Procedure nested fun c => .ok () { c with rest := resume c.rest }
  | primary : Procedure nested (primary nested)
  | arguments : Procedure nested (entries "arguments" nested.expression)
  | call : Procedure nested (call nested)
  | unary : Procedure nested (unary nested)
  | fold {fold : Level × Reader Expr} : fold ∈ folds nested →
      Procedure nested (leftAssociative fold.1 fold.2)
  | expression : Procedure nested (expression nested)
  | simple : Procedure nested (simple nested)
  | variableDeclaration : Procedure nested (variableDeclaration nested)
  | block : Procedure nested (block nested)
  | functionDeclaration : Procedure nested (functionDeclaration nested)
  | countedLoop : Procedure nested (countedLoop nested)
  | branch : Procedure nested (branch nested)
  | printStatement (keyword : Token) : Procedure nested (printStatement nested keyword)
  | returnStatement (keyword : Token) : Procedure nested (returnStatement nested keyword)
  | plainLoop : Procedure nested (plainLoop nested)
  | statement : Procedure nested (statement nested)
  | bareDeclaration : Procedure nested (bareDeclaration nested)
  | declaration : Procedure nested (declaration nested)

theorem Procedure.forward (hsound : Sound n nested) {r : Reader α} (hr : Procedure nested r) :
    r.Forward := by
  cases hr with
  | takeIf fits => exact Gives.takeIf.forward
  | require k what => exact Gives.require.forward
  | resume =>
    exact fun c _ => ⟨⟨rfl, rfl, resume_suffix c.rest, Nat.le_refl _, List.prefix_rfl⟩,
      fun _ => trivial⟩
  | primary => exact (gives_primary hsound).forward
  | arguments => exact (gives_entries hsound.expression).forward
  | call =>
    exact (gives_primary hsound).forward.bind fun callee => Gives.turns.forward.bind fun fuel =>
      (gives_callsFrom hsound fuel callee).forward
  | unary => exact (gives_unary hsound).forward
  | fold hfold => exact forward_leftAssociative _ (forward_folds hsound _ hfold)
  | expression => exact (gives_expression hsound).forward
  | simple => exact (gives_simple hsound).forward
  | variableDeclaration => exact (gives_variableDeclaration hsound).forward
  | block => exact (gives_block hsound).forward
  | functionDeclaration => exact (gives_functionDeclaration hsound).forward
  | countedLoop => exact (gives_countedLoop hsound).forward
  | branch => exact (gives_branch hsound).forward
  | printStatement keyword => exact (gives_printStatement hsound keyword).forward
  | returnStatement keyword => exact (gives_returnStatement hsound keyword).forward
  | plainLoop => exact (gives_plainLoop hsound).forward
  | statement => exact (gives_statement hsound).forward
  | bareDeclaration => exact (gives_bareDeclaration hsound).forward
  | declaration => exact (gives_declaration hsound).forward

/-- A declaration fails in one way only. -/
theorem declaration_error {e : Setback} (h : declaration nested c = .error e c') :
    e = .tooDeep := by
  unfold declaration at h
  split at h
  · cases h
  · cases h
  · cases h
    rfl

/-- **A declaration makes progress** at every place but the end, whether it fits the grammar or is
skipped. It is too deep only if there are more tokens ahead than levels. -/
theorem declaration_advances (level : Nat) (h : c.At tokens p) :
    match declaration (readers level) c with
    | .ok _ c' => ∃ p', c'.At tokens p' ∧ p ≤ p' ∧ (p < (Program.front tokens).length → p < p')
    | .error e _ => e = .tooDeep ∧ p + level < (Program.front tokens).length := by
  have hgathers := gathers_declaration (gathers_readers level c.rest.length) c (Nat.lt_succ_self _)
  have hlength := h.length
  cases ho : declaration (readers level) c with
  | ok st c' =>
    obtain ⟨hbefore, htakes⟩ := declaration_takes (sound_readers (level + 1))
      (steady_readers (level + 1)) h.roomy ho
    obtain ⟨p', hle, hp'⟩ := h.advance hbefore
    refine ⟨p', hp', hle, fun hlt => ?_⟩
    have hless := htakes (List.ne_nil_of_length_pos (by omega))
    have hlength' := hp'.length
    omega
  | error e c' =>
    obtain rfl := declaration_error ho
    rw [ho] at hgathers
    have hdeep := hgathers.2.2 rfl
    exact ⟨rfl, by omega⟩

/-- What reading does from a place on, with so many levels for what is nested: loops end by
themselves, no procedure leads back or behind the first token that marks the end, and a declaration
makes progress. -/
structure Cursor.Advances (tokens : List Token) (level p : Nat) (c : Cursor) : Prop where
  loops : (readers level).LoopsEnd c
  procedures : ∀ {α : Type} {r : Reader α}, Procedure (readers level) r →
    ∃ p', p ≤ p' ∧ (r.behind c).At tokens p' ∧ tokens[p']? = some (r.behind c).next
  declaration : match declaration (readers level) c with
    | .ok _ c' => ∃ p', c'.At tokens p' ∧ p ≤ p' ∧ (p < (Program.front tokens).length → p < p')
    | .error e _ => e = .tooDeep ∧ p + level < (Program.front tokens).length

theorem Cursor.At.advances (level : Nat) (h : c.At tokens p) : c.Advances tokens level p where
  loops := loopsEnd (sound_readers level) (steady_readers level) h.roomy
  procedures hr := by
    obtain ⟨p', hle, hp'⟩ := h.advance ((hr.forward (sound_readers level)).behind h.roomy)
    exact ⟨p', hle, hp', hp'.next⟩
  declaration := declaration_advances level h

/-! ## Programs -/

namespace Program

theorem repeats_program (hsound : Sound n nested) (hsteady : nested.Steady) (done : List Stmt) :
    (turn nested done).Repeats := by
  intro c hc s c' heq
  unfold turn at heq
  split at heq
  · cases heq
  · next hrest =>
    split at heq
    · next st c₁ ho =>
      cases heq
      refine (declaration_takes hsound hsteady hc ho).imp_right fun h => h fun hnil => ?_
      exact hrest (List.isEmpty_iff.2 hnil)
    · cases heq

/-- The declarations of a program are a loop that ends by itself. -/
theorem declarations_run (hsound : Sound n nested) (hsteady : nested.Steady) :
    ∀ fuel done (c : Cursor), c.Roomy → c.rest.length < fuel →
    ∃ stop, c.Before stop ∧
      Run (turn nested) done c (.ok (declarations nested fuel done c).statements stop) ∧
      stop.issues = (declarations nested fuel done c).issues ∧
      stop.serial = (declarations nested fuel done c).serial := by
  intro fuel
  induction fuel with
  | zero => exact fun _ _ _ hlt => absurd hlt (Nat.not_lt_zero _)
  | succ fuel ih =>
    intro done c hc hlt
    have hrepeats := repeats_program hsound hsteady done c hc
    by_cases hend : c.rest.isEmpty = true
    · have hturn : turn nested done c = .ok (.inr done.reverse) c := if_pos hend
      rw [declarations, if_pos hend]
      exact ⟨c, .refl c, .done hturn, rfl, rfl⟩
    · have hd := hsound.declaration c hc
      cases ho : nested.declaration c with
      | ok st c₁ =>
        have hturn : turn nested done c = .ok (.inl (st.toList ++ done)) c₁ := by
          rw [turn, if_neg hend, ho]
        obtain ⟨hbefore, hless⟩ := hrepeats _ _ hturn
        obtain ⟨stop, hstop, hrun, hissues⟩ :=
          ih (st.toList ++ done) c₁ (hbefore.roomy hc) (by omega)
        rw [declarations, if_neg hend, ho]
        exact ⟨stop, hbefore.trans hstop, .next hturn hbefore hless hrun, hissues⟩
      | error e c₁ =>
        rw [ho] at hd
        rw [declarations, if_neg hend, ho]
        have hturn : turn nested done c = .ok (.inr done.reverse)
            { c₁ with issues := c₁.issues.push (.blame c₁.next .tooDeep) } := by
          rw [turn, if_neg hend, ho]
        refine ⟨_, ?_, .done hturn, rfl, rfl⟩
        exact ⟨hd.1.stop, hd.1.turns, hd.1.rest, hd.1.serial, hd.1.issues.trans (by simp)⟩

/-- The token behind the front is the first one that marks the end. -/
theorem getElem?_front (tokens : List Token) :
    tokens[(front tokens).length]? = tokens.find? fun t => t.kind == .endOfText := by
  induction tokens with
  | nil => rfl
  | cons t rest ih =>
    unfold front at ih ⊢
    by_cases hend : (t.kind == .endOfText) = true
    · simp [hend]
    · simp [hend, ih]

theorem split?_front {fore : List Token} {stop : Token} (h : split? tokens = some (fore, stop)) :
    fore = front tokens ∧ tokens[(front tokens).length]? = some stop := by
  unfold split? at h
  dsimp only at h
  split at h
  · obtain ⟨stop', hfind, heq⟩ := Option.map_eq_some_iff.1 h
    obtain ⟨rfl, rfl⟩ := Prod.mk.inj heq
    exact ⟨rfl, (getElem?_front tokens).trans hfind⟩
  · cases h

/-- **Reading makes progress and ends.** Let the last token mark the end. Whatever the others are,
something is read of them, by a loop that ends by itself from any cursor at the first place, however
many turns that has. The issues may fill a report, and nothing else can go wrong. From every place
on, with any number of levels for what is nested, loops end by themselves, procedures only lead
forward and never behind the first token that marks the end, and declarations make progress. -/
theorem ofTokens?_advances (depth serial : Nat) (tokens : List Token) (last : Token)
    (hlast : last.kind = .endOfText) :
    (∃ program, ofTokens? depth serial (tokens ++ [last]) = some program ∧
      (∀ start : Cursor, start.At (tokens ++ [last]) 0 → start.serial = serial →
        start.issues = #[] → ∃ stop p, stop.At (tokens ++ [last]) p ∧
          Run (turn (readers depth)) [] start (.ok program.statements stop) ∧
          stop.issues = program.issues ∧ stop.serial = program.serial) ∧
      ∀ r r' : Report, r.enterAll program.issues.toList = .error r' → r'.full = true) ∧
    ∀ (level p : Nat) (c : Cursor), c.At (tokens ++ [last]) p →
      c.Advances (tokens ++ [last]) level p := by
  obtain ⟨stop, hsplit⟩ := split?_append tokens hlast
  obtain ⟨hfront, hstop⟩ := split?_front hsplit
  refine ⟨⟨read depth serial (front tokens) stop, by rw [ofTokens?, hsplit]; rfl, ?_, ?_⟩,
    fun level p c hc => hc.advances level⟩
  · intro start hstart hserial hissues
    have halike : (Cursor.front serial (front tokens) stop).Alike start :=
      ⟨hstart.rest.trans hfront.symm, Option.some.inj (hstart.stop.symm.trans hstop), hserial,
        hissues, Nat.lt_succ_self _, hstart.roomy⟩
    have hread : read depth serial (front tokens) stop =
        declarations (readers depth) (start.rest.length + 1) [] start :=
      declarations_steady (steady_readers depth) _ _ [] _ _ halike (Nat.lt_succ_self _)
        (halike.rest ▸ Nat.lt_succ_self _)
    obtain ⟨stop', hbefore, hrun, hends⟩ := declarations_run (sound_readers depth)
      (steady_readers depth) _ [] start hstart.roomy (Nat.lt_succ_self _)
    obtain ⟨p, -, hp⟩ := hstart.advance hbefore
    rw [hread]
    exact ⟨stop', p, hp, hrun, hends⟩
  · intro r r' hr
    obtain ⟨hsize, k, rfl⟩ := Report.enterAll_eq_error hr
    exact beq_iff_eq.2 hsize

/-- Parameters that go on with a brace, values and operands that are missing, a target that is none,
and a block without an end: each is an issue, and all tokens are read. -/
theorem ofTokens?_advances_malformed :
    let c := Cursor.ofText "fun f(a, \x7b print ; \x7d return ) a = (b; \x7b"
    let tokens := c.rest ++ [c.stop]
    (∃ program stop, ofTokens? 9 0 tokens = some program ∧ program.issues.size = 5 ∧
      Run (turn (readers 9)) [] c (.ok program.statements stop) ∧
      stop.issues = program.issues) ∧
    ∃ c' p, declaration (readers 8) c = .ok none c' ∧ c'.At tokens p ∧ 0 < p := by
  intro c tokens
  have hfront : front tokens = c.rest := by decide +kernel
  have hstart : c.At tokens 0 := Cursor.front_at 0 hfront List.getElem?_concat_length
  have hcount : (ofTokens? 9 0 tokens).any (fun p => p.issues.size == 5) = true := by
    decide +kernel
  have hfaulty : (bareDeclaration (readers 8)).faultyRest? c = some (c.rest.drop 5) := by
    decide +kernel
  obtain ⟨⟨program, hprogram, hruns, -⟩, hadvances⟩ := ofTokens?_advances 9 0 c.rest c.stop rfl
  obtain ⟨stop, -, -, hrun, hissues, -⟩ := hruns c hstart rfl rfl
  have hdeclaration := (hadvances 8 0 c hstart).declaration
  rw [hprogram, Option.any_some, beq_iff_eq] at hcount
  obtain ⟨c₁, hmisfit, -⟩ := Reader.of_faultyRest? hfaulty
  have hskipped : declaration (readers 8) c = .ok none { c₁ with rest := resume c₁.rest } := by
    unfold declaration
    rw [hmisfit]
  rw [hskipped] at hdeclaration
  obtain ⟨p, hp, -, hlt⟩ := hdeclaration
  exact ⟨⟨program, stop, hprogram, hcount, hrun, hissues⟩, _, p, hskipped, hp,
    hlt (by decide +kernel)⟩

end Program

end Scriptlet.Grammar

import Scriptlet.Proofs.Binding.Levels
import Scriptlet.Proofs.Session.Limit
import Scriptlet.Proofs.Token.Seam

/-!
# Room for binding

The names of a program are bound where there is room for some number of levels of its tree. If the
tree has no more of them, the room does not matter (`Session.prepareWithin_eq`). If it has, the text
does not become ready: its preparation halts, at the latest where the room ends
(`Session.prepareWithin_tooDeep`). Nothing else halts it but a full report.

**Flat texts.** The grammar has a limit for what is nested in the text, not for the tree. Each of
the calls in `f()()()` is a level of the tree, and their number is not limited
(`Session.tooDeep_chain`).
-/

namespace Scriptlet

namespace Report

open Binding (steps within_steps_iff logOf_steps logOf_takeWhile)

variable {levels : Nat} {r : Report} {known : List String} {program : List Stmt}

/-- The steps on the levels that there is room for. -/
theorem takeWhile_steps (levels : Nat) (program : List Stmt) :
    (steps program).takeWhile (·.level ≤ levels) = steps program ↔
      Levels.stmts program ≤ levels := by
  rw [List.takeWhile_eq_self_iff, ← within_steps_iff]
  exact forall₂_congr fun _ _ => decide_eq_true_iff

/-- Where there is room for the tree, it is bound as if there was no end to the room. -/
theorem bindWithin_eq_bind (h : Levels.stmts program ≤ levels) :
    r.bindWithin levels known program = r.bind known program := by
  unfold bindWithin bind
  dsimp only
  rw [(takeWhile_steps levels program).2 h, logOf_steps]
  exact if_neg fun hshort => absurd hshort.2 (Nat.lt_irrefl _)

/-- Where there is no room for the tree, its binding halts. -/
theorem halt_bindWithin (h : levels < Levels.stmts program) :
    (r.bindWithin levels known program).halt = some .tooDeep ∨
      (r.bindWithin levels known program).halt = some .tooManyIssues := by
  have hfront := logOf_takeWhile known program (·.level ≤ levels)
  have hshort : ((steps program).takeWhile (·.level ≤ levels)).length < (steps program).length := by
    refine lt_of_le_of_ne (List.takeWhile_prefix _).length_le fun heq => ?_
    exact absurd ((takeWhile_steps levels program).1 ((List.takeWhile_prefix _).eq_of_length heq))
      (Nat.not_le.2 h)
  unfold bindWithin
  dsimp only
  split
  · exact .inl rfl
  · next hhalt =>
    -- The intake has halted by itself.
    rw [not_and_or, or_iff_left (not_not.2 hshort), Option.isNone_iff_eq_none] at hhalt
    obtain ⟨halt, heq⟩ := Option.ne_none_iff_exists'.1 hhalt
    by_cases hfull : halt = .tooManyIssues
    · exact .inr (hfull ▸ heq)
    · refine absurd heq (Intake.take_halt hfull (fun _ hmem => ?_) (Option.some_ne_none _).symm)
      exact Binding.unbalanced_not_mem_log _ _ (Array.mem_toList_iff.1 (hfront.subset hmem))

/-- Where there is no room for the tree and nothing is wrong with the names, the binding goes down
to the end of the room. -/
theorem halt_bindWithin_of_clean (h : levels < Levels.stmts program)
    (hclean : ∀ e ∈ (Binding.log known program).toList, e.isTrouble = false) :
    (r.bindWithin levels known program).halt = some .tooDeep := by
  have hfront := logOf_takeWhile known program (·.level ≤ levels)
  have htaken := (Intake.take_of_clean ⟨r, #[], none⟩ fun e he => hclean e (hfront.subset he)).halt
  refine (halt_bindWithin h).resolve_right fun hhalt => ?_
  unfold bindWithin at hhalt
  dsimp only at hhalt
  split at hhalt
  · cases hhalt
  · exact absurd (hhalt.symm.trans htaken) (Option.some_ne_none _)

end Report

namespace Session

variable {levels : Nat} {s : Session} {r : Report} {text : String}
  {bind bind' : Report → List String → List Stmt → Intake}

/-! ## Preparing where there is room -/

/-- A text without issues in its tokens and its grammar whose tree has more levels than these. -/
def TooDeep (levels : Nat) (s : Session) (text : String) : Prop :=
  (Scan.ofText text).issues = #[] ∧ (s.reading text).issues = #[] ∧
    levels < Levels.stmts (s.reading text).statements

/-- A text is rejected for its tokens or its grammar, whatever binds the names of its program, or
its end is that of the binding. -/
theorem prepareBy_cases (s : Session) (r : Report) (text : String) :
    let clean := r.sick = false ∧ (Scan.ofText text).issues = #[] ∧ (s.reading text).issues = #[]
    (¬clean ∧ ∃ p s' r', (∀ bind, s.prepareBy bind r text = (p, s', r')) ∧
        (p = .halted .tooManyIssues ∨ ∃ phase, p = .trouble phase)) ∨
      clean ∧ ∃ r₁, ∀ bind, s.prepareBy bind r text =
        (bound { s with serial := (s.reading text).serial } (s.reading text).statements
          (bind r₁ s.globals.keys (s.reading text).statements)).outcome := by
  intro clean
  unfold prepareBy
  dsimp only
  cases hscan : (r.attach text).enterAll (Scan.ofText text).issues.toList with
  | error r₁ =>
    refine .inl ⟨fun hclean => ?_, _, _, _, fun _ => rfl, .inl rfl⟩
    rw [hclean.2.1] at hscan
    cases hscan
  | ok r₁ =>
    dsimp only
    cases hparse : (r₁.note _).enterAll (s.readProgram (Scan.ofText text)).issues.toList with
    | error r₂ =>
      refine .inl ⟨fun hclean => ?_, _, _, _, fun _ => rfl, .inl rfl⟩
      rw [show (s.readProgram (Scan.ofText text)).issues = #[] from hclean.2.2] at hparse
      cases hparse
    | ok r₂ =>
      have hsick : r₂.sick = false ↔ clean := by
        constructor
        · intro hsick
          obtain ⟨hr₁, hread⟩ := nil_of_enterAll hparse hsick
          obtain ⟨hr, hscanned⟩ := nil_of_enterAll hscan (by rwa [Report.sick_note] at hr₁)
          exact ⟨hr, hscanned, hread⟩
        · rintro ⟨hr, hscanned, hread⟩
          rw [hscanned] at hscan
          rw [show (s.readProgram (Scan.ofText text)).issues = #[] from hread] at hparse
          cases hscan
          cases hparse
          rwa [Report.sick_note]
      dsimp only
      cases hcase : r₂.sick with
      | true =>
        refine .inl ⟨fun hclean => ?_, _, _, _, fun _ => if_pos rfl, .inr ⟨_, rfl⟩⟩
        exact Bool.noConfusion ((hsick.2 hclean).symm.trans hcase)
      | false =>
        let parsed := toString (s.reading text).statements.length
        refine .inr ⟨hsick.1 hcase, r₂.note ("Parsed " ++ parsed ++ " statements."), fun bind => ?_⟩
        rw [outcome_bound]
        rfl

/-- Where there is room for the tree of a text, the text is prepared as if there was no end to the
room. -/
theorem prepareWithin_eq (h : ¬TooDeep levels s text) :
    s.prepareWithin levels r text = s.prepare r text := by
  unfold prepareWithin prepare
  rcases prepareBy_cases s r text with ⟨-, p, s', r', hp, -⟩ | ⟨⟨-, hscan, hread⟩, r₁, hp⟩
  · rw [hp, hp]
  · rw [hp, hp, Report.bindWithin_eq_bind (Nat.not_lt.1 fun hlt => h ⟨hscan, hread, hlt⟩)]

/-- **Where the room ends, so does the preparation.** A text whose tree has too many levels does not
become ready. -/
theorem prepareWithin_tooDeep (h : TooDeep levels s text) (program : List Stmt) :
    (s.prepareWithin levels r text).1 ≠ .ready program := by
  unfold prepareWithin
  rcases prepareBy_cases s r text with ⟨-, p, s', r', hp, hcases⟩ | ⟨-, r₁, hp⟩
  · rw [hp]
    rcases hcases with rfl | ⟨phase, rfl⟩ <;> exact nofun
  · rw [hp]
    intro hready
    rcases Report.halt_bindWithin h.2.2 with hhalt | hhalt
    · exact nomatch hready.symm.trans ((prepared_bound _ _).2 hhalt)
    · exact nomatch hready.symm.trans ((prepared_bound _ _).2 hhalt)

/-- A preparation halts where the report is full, or where the room ends. -/
theorem prepareWithin_halted {halt : Halt} (h : (s.prepareWithin levels r text).1 = .halted halt) :
    halt = .tooManyIssues ∨ halt = .tooDeep ∧ TooDeep levels s text := by
  by_cases hdeep : TooDeep levels s text
  · unfold prepareWithin at h
    rcases prepareBy_cases s r text with ⟨-, p, s', r', hp, hcases⟩ | ⟨-, r₁, hp⟩
    · rw [hp] at h
      rcases hcases with rfl | ⟨phase, rfl⟩
      · exact .inl (Prepared.halted.inj h).symm
      · cases h
    · rw [hp] at h
      have hhalt := (prepared_bound _ _).1 h
      rcases Report.halt_bindWithin hdeep.2.2 with heq | heq
      · exact .inr ⟨Option.some.inj (hhalt.symm.trans heq), hdeep⟩
      · exact .inl (Option.some.inj (hhalt.symm.trans heq))
  · rw [prepareWithin_eq hdeep] at h
    exact .inl (prepare_halted h)

/-- If nothing is wrong with a text but that its tree has too many levels, its preparation halts
where the room ends. -/
theorem prepareWithin_of_clean (h : TooDeep levels s text) (hr : r.sick = false)
    (hclean : ∀ e ∈ (Binding.log s.globals.keys (s.reading text).statements).toList,
      e.isTrouble = false) : (s.prepareWithin levels r text).1 = .halted .tooDeep := by
  unfold prepareWithin
  rcases prepareBy_cases s r text with ⟨hnot, -⟩ | ⟨-, r₁, hp⟩
  · exact absurd ⟨hr, h.1, h.2.1⟩ hnot
  · rw [hp]
    exact (prepared_bound _ _).2 (Report.halt_bindWithin_of_clean h.2.2 hclean)

/-- Without an end to the room such a text is ready to run. -/
theorem ready_of_tooDeep (h : TooDeep levels s text) (hr : r.sick = false)
    (hclean : ∀ e ∈ (Binding.log s.globals.keys (s.reading text).statements).toList,
      e.isTrouble = false) : ∃ program s' r', s.prepare r text = (.ready program, s', r') := by
  have hread : s.reading text = ⟨(s.reading text).statements, #[], (s.reading text).serial⟩ := by
    rw [← h.2.1]
  obtain ⟨r', hp, -, -⟩ := prepare_of_clean h.1 hread hclean hr
  exact ⟨_, _, r', hp⟩

/-! ## Flat texts -/

/-- A name, and behind it so many empty lists of arguments. -/
def chainOf (calls : Nat) : List String := "f" :: List.replicate calls "()"

theorem chainOf_succ (calls : Nat) : chainOf (calls + 1) = chainOf calls ++ ["()"] := by
  unfold chainOf
  rw [List.replicate_succ', List.cons_append]

/-- So many calls as a text: what a function returns is called, what this returns, and so on. -/
def chain (calls : Nat) : String := "\n".intercalate (chainOf calls ++ [";"])

end Session

/-- One more call of what is returned. -/
theorem Grammar.Calls.snoc {n k k' : Nat} {callee e : Expr} {ts : List Token} {left right : Token}
    (hleft : left.kind = .mark .leftParen) (hright : right.kind = .mark .rightParen) :
    Calls n callee k ts e k' → Calls n callee k (ts ++ [left, right]) (.call e right []) k'
  | .nil => .cons hleft .none (Nat.zero_le _) hright .nil
  | .cons hl hargs hlength hr h => by
    rw [List.cons_append, List.append_assoc, List.cons_append]
    exact .cons hl hargs hlength hr (h.snoc hleft hright)

namespace Session

/-- Tokens of calls in a row, and the tree that they build. -/
structure Chained (calls : Nat) (f : Token) (ts : List Token) (e : Expr) : Prop where
  name : f.kind = .name
  derives : Grammar.Calls 1 (.ref f 0) 1 ts e 1
  levels : Levels.expr e = calls + 1
  /-- The walk comes by nothing but the name. -/
  walk : ∀ w, Binding.expr e w = Binding.expr (.ref f 0) w

theorem scan_chainOf (calls : Nat) :
    (Scan.ofText ("\n".intercalate (chainOf calls))).issues = #[] ∧
      ∃ f ts e, (Scan.ofText ("\n".intercalate (chainOf calls))).tokens.toList = f :: ts ∧
        Chained calls f ts e := by
  induction calls with
  | zero =>
    let f : Token := ⟨.name, "f", .nil, 1, 0⟩
    refine ⟨by decide +kernel, f, [], .ref f 0, by decide +kernel, ?_⟩
    exact ⟨rfl, .nil, rfl, fun _ => rfl⟩
  | succ calls ih =>
    obtain ⟨hissues, f, ts, e, htokens, h⟩ := ih
    let left : Token := ⟨.mark .leftParen, "(", .nil, 1, 0⟩
    let right : Token := ⟨.mark .rightParen, ")", .nil, 1, 1⟩
    have hpair : (Scan.ofText "()").issues = #[] ∧ (Scan.ofText "()").tokens = #[left, right] := by
      decide +kernel
    obtain ⟨hissues', htokens'⟩ := Scan.ofText_join hissues hpair.1
    rw [chainOf_succ]
    refine ⟨hissues', f, _, _, ?_, ⟨h.name, h.derives.snoc (Token.kind_below (chainOf calls) left)
      (Token.kind_below (chainOf calls) right), ?_, fun w => h.walk w⟩⟩
    · rw [htokens', Array.toList_append, htokens, hpair.2, Array.toList_map]
      rfl
    · simp [Levels.expr, Levels.exprs, h.levels]

/-- Calls in a row are an expression. -/
theorem Chained.expression {calls : Nat} {f : Token} {ts : List Token} {e : Expr}
    (h : Chained calls f ts e) : Grammar.Expression 1 0 (f :: ts) e 1 := by
  have hunary : Grammar.Unary 1 0 ([f] ++ ts) e 1 := .calls (.name h.name) h.derives
  have hoperation : ∀ levels, Grammar.Operation 1 levels 0 (f :: ts) e 1 := by
    intro levels
    induction levels with
    | nil => exact .unary hunary
    | cons level tighter ih =>
      have hnone : Grammar.Operation 1 (level :: tighter) 0 (f :: ts ++ []) e 1 := .operands ih .nil
      rwa [List.append_nil] at hnone
  exact .operation (hoperation _)

/-- Calls in a row are a program without issues. The first names a global, and with it the walk
comes by all names. -/
theorem reading_chain (calls : Nat) : (Scan.ofText (chain calls)).issues = #[] ∧
    ∃ f ts e, fresh.reading (chain calls) = ⟨[.expr e], #[], 1⟩ ∧ Chained calls f ts e := by
  obtain ⟨hissues, f, ts, e, htokens, h⟩ := scan_chainOf calls
  let semi : Token := ⟨.mark .semicolon, ";", .nil, 1, 0⟩
  have hsemi : (Scan.ofText ";").issues = #[] ∧ (Scan.ofText ";").tokens = #[semi] := by
    decide +kernel
  obtain ⟨hissues', htokens'⟩ := Scan.ofText_join hissues hsemi.1
  refine ⟨hissues', f, ts, e, ?_, h⟩
  have hderives : Grammar.Declarations 2 0 (Scan.ofText (chain calls)).tokens.toList
      [.expr e] 1 := by
    have hstatement := Grammar.Declarations.cons (.statement (.simple (.mk h.expression
      (Token.kind_below (chainOf calls) semi)))) .nil
    unfold chain
    rw [htokens', Array.toList_append, htokens, hsemi.2, Array.toList_map]
    rw [List.append_nil] at hstatement
    exact hstatement
  rcases Grammar.Program.read_complete Grammar.maxDepth (Scan.ofText (chain calls)).stop hderives
    with heq | ⟨hlt, -⟩
  · exact heq
  · exact absurd hlt (by decide)

/-- **The grammar does not keep trees within any number of levels.** Nothing is wrong with calls in
a row, but their tree has more levels than there are calls. -/
theorem tooDeep_chain {levels calls : Nat} (hcalls : levels ≤ calls) :
    TooDeep levels fresh (chain calls) ∧
      ∀ e ∈ (Binding.log fresh.globals.keys (fresh.reading (chain calls)).statements).toList,
        e.isTrouble = false := by
  obtain ⟨hissues, f, ts, e, hread, h⟩ := reading_chain calls
  unfold TooDeep
  rw [hread]
  refine ⟨⟨hissues, rfl, ?_⟩, fun event hevent => ?_⟩
  · simp only [Levels.stmts, Levels.stmt, h.levels]
    omega
  · have hlog : (Binding.log fresh.globals.keys [.expr e]).toList =
        [.reference ⟨0, f, false, none⟩] := congrArg (fun w => w.log.toList) (h.walk _)
    rw [hlog, List.mem_singleton] at hevent
    rw [hevent]
    rfl

end Session

end Scriptlet

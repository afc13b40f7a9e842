import Scriptlet.Proofs.Session.Faults

/-!
# The limit of a report only truncates

A text is prepared once with a report that never gives up, and once with a report of limit `m`.

**Theorem (`Session.prepare_truncates`).** If the first finds fewer than `m` issues, both end alike.
Otherwise the second gives up, its issues are the first `m` of the first, and the references that
it has recorded until then are a prefix of those that the first records.

The two preparations are in the same state, but for the limit, until the second gives up. From then
on the first only adds to what it has. The issue that meets the limit may be entered in any phase;
each phase has a lemma that says so of itself (`Report.enterAll_limited`, `Intake.take_limited`),
and `Session.Truncates` is what they have in common.
-/

namespace Scriptlet

open Binding (Event Reference)

/-! ## Entries -/

namespace Report

/-- The same report with another limit. -/
def limited (r : Report) (m : Nat) : Report := { r with limit := m }

/-- A report that has given up, and one that has not: the issues of the first are the first `m` of
the other. -/
structure Cuts (m : Nat) (r' r : Report) : Prop where
  size : r'.issues.size = m
  front : r'.issues.toList <+: r.issues.toList

variable {m : Nat} {r r' : Report}

theorem note_limited (r : Report) (m : Nat) (line : String) :
    (r.limited m).note line = (r.note line).limited m := by
  unfold note
  split <;> split <;> first | rfl | contradiction

@[simp]
theorem issues_note (r : Report) (line : String) : (r.note line).issues = r.issues := by
  unfold note
  split <;> rfl

@[simp]
theorem limit_note (r : Report) (line : String) : (r.note line).limit = r.limit := by
  unfold note
  split <;> rfl

theorem Cuts.extend {r₂ : Report} (h : r'.Cuts m r) (hr : r.issues.toList <+: r₂.issues.toList) :
    r'.Cuts m r₂ := ⟨h.size, h.front.trans hr⟩

/-- A report without a limit takes all entries. -/
theorem enterAll_unlimited (hr : r.limit = 0) (is : List Issue) :
    ∃ r', r.enterAll is = .ok r' ∧ r'.limit = 0 := by
  induction is generalizing r with
  | nil => exact ⟨r, rfl, hr⟩
  | cons i rest ih =>
    have hfull : (r.enter i).full = false := by simp [full, enter, hr]
    rw [enterAll, hfull, if_neg Bool.false_ne_true]
    exact ih hr

/-- Entries go the same way with a limit until they meet it. -/
theorem enterAll_limited {is : List Issue} (hm : r.issues.size < m) (h : r.enterAll is = .ok r') :
    ((r.limited m).enterAll is = .ok (r'.limited m) ∧ r'.issues.size < m) ∨
      ∃ r'', (r.limited m).enterAll is = .error r'' ∧ r''.Cuts m r' := by
  induction is generalizing r with
  | nil =>
    obtain rfl := Except.ok.inj h
    exact .inl ⟨rfl, hm⟩
  | cons i rest ih =>
    have hsize : (r.enter i).issues.size = r.issues.size + 1 := by simp [enter]
    have hstep : ((r.limited m).enter i) = (r.enter i).limited m := rfl
    simp only [enterAll] at h
    split at h
    · cases h
    · rw [enterAll, hstep]
      by_cases hfull : (r.enter i).issues.size = m
      · refine .inr ⟨(r.enter i).limited m, if_pos (beq_iff_eq.2 hfull), hfull, ?_⟩
        rw [enterAll_eq_ok h]
        simp [limited]
      · have hnot : ((r.enter i).limited m).full = false := beq_eq_false_iff_ne.2 hfull
        rw [hnot, if_neg Bool.false_ne_true]
        exact ih (by omega) h

end Report

/-! ## Logs -/

namespace Intake

/-- The same intake with another limit. -/
def limited (i : Intake) (m : Nat) : Intake := { i with report := i.report.limited m }

variable {m : Nat} {i : Intake}

/-- Issues are only added. -/
theorem take_issues (i : Intake) (es : List Event) :
    i.report.issues.toList <+: (i.take es).report.issues.toList := by
  induction es generalizing i with
  | nil => exact List.prefix_rfl
  | cons e rest ih =>
    cases e with
    | reference r => exact ih { i with references := i.references.push r }
    | declaredBefore first =>
      have hnote := ih { i with report := i.report.note (Report.firstDeclared first) }
      rw [Report.issues_note] at hnote
      exact hnote
    | unbalanced => exact List.prefix_rfl
    | issue issue =>
      have hentered : i.report.issues.toList <+: (i.report.enter issue).issues.toList := by
        simp [Report.enter]
      simp only [take]
      split
      · exact hentered
      · exact hentered.trans (ih { i with report := i.report.enter issue })

/-- A report without a limit takes every issue of a log. -/
theorem take_issue_unlimited (hi : i.report.limit = 0) (issue : Issue) (rest : List Event) :
    i.take (.issue issue :: rest) =
      Intake.take { i with report := i.report.enter issue } rest := by
  have hfull : (i.report.enter issue).full = false := by simp [Report.full, Report.enter, hi]
  rw [take, hfull, if_neg Bool.false_ne_true]

/-- A report without a limit never gives up. -/
theorem take_unlimited (hi : i.report.limit = 0) (hhalt : i.halt ≠ some .tooManyIssues)
    (es : List Event) : (i.take es).halt ≠ some .tooManyIssues := by
  induction es generalizing i with
  | nil => exact hhalt
  | cons e rest ih =>
    cases e with
    | reference r => exact ih hi hhalt
    | declaredBefore first =>
      exact ih (i := { i with report := i.report.note _ }) (by simpa using hi) hhalt
    | unbalanced => exact nofun
    | issue issue =>
      rw [take_issue_unlimited hi]
      exact ih hi hhalt

/-- A log is taken the same way with a limit until an issue meets it. -/
theorem take_limited (hi : i.report.limit = 0) (hm : i.report.issues.size < m) (es : List Event) :
    ((i.limited m).take es = (i.take es).limited m ∧ (i.take es).report.issues.size < m) ∨
      (((i.limited m).take es).halt = some .tooManyIssues ∧
        ((i.limited m).take es).report.Cuts m (i.take es).report ∧
        ((i.limited m).take es).references.toList <+: (i.take es).references.toList) := by
  induction es generalizing i with
  | nil => exact .inl ⟨rfl, hm⟩
  | cons e rest ih =>
    cases e with
    | reference r => exact ih (i := { i with references := i.references.push r }) hi hm
    | declaredBefore first =>
      let noted : Intake := { i with report := i.report.note (Report.firstDeclared first) }
      have hnoted : (i.limited m).take (.declaredBefore first :: rest) =
          (noted.limited m).take rest := by
        show Intake.take { i with report := (i.report.limited m).note _ } rest = _
        rw [Report.note_limited]
        rfl
      rw [hnoted]
      exact ih (i := noted) (by simpa [noted] using hi) (by simpa [noted] using hm)
    | unbalanced => exact .inl ⟨rfl, hm⟩
    | issue issue =>
      let entered : Intake := { i with report := i.report.enter issue }
      have hsize : entered.report.issues.size = i.report.issues.size + 1 := by
        simp [entered, Report.enter]
      rw [take_issue_unlimited hi]
      by_cases hfull : entered.report.issues.size = m
      · -- This issue meets the limit; without one the log is taken to its end.
        have hcut : (i.limited m).take (.issue issue :: rest) =
            { entered.limited m with halt := some .tooManyIssues } := by
          rw [take]
          exact if_pos (beq_iff_eq.2 hfull)
        rw [hcut]
        obtain ⟨taken, -, htaken⟩ := take_references entered rest
        refine .inr ⟨rfl, ⟨hfull, take_issues entered rest⟩, ?_⟩
        exact htaken ▸ List.prefix_append _ _
      · have hgoes : (i.limited m).take (.issue issue :: rest) = (entered.limited m).take rest := by
          rw [take]
          exact if_neg (mt beq_iff_eq.1 hfull)
        rw [hgoes]
        exact ih (i := entered) hi (by omega)

end Intake

/-! ## Phases -/

namespace Session

/-- How a preparation has ended, and the references that it has recorded. -/
structure Recording where
  prepared : Prepared
  session : Session
  report : Report
  references : List Reference

/-- How a preparation ends behind the binding of the names of a program. -/
def bound (s : Session) (program : List Stmt) (i : Intake) : Recording :=
  let s := { s with depths := i.references.foldl Binding.record s.depths }
  match i.halt with
  | some halt => ⟨.halted halt, s, i.report, i.references.toList⟩
  | none =>
    if i.report.sick then ⟨.trouble .resolve, s, i.report, i.references.toList⟩
    else
      let count := toString i.references.size
      ⟨.ready program, s, i.report.note ("Resolved " ++ count ++ " references."),
        i.references.toList⟩

/-- How a preparation ends behind the grammar; `lexical` says whether the tokens had issues. -/
def parsed (s : Session) (lexical : Bool) (program : List Stmt) (r : Report) : Recording :=
  if r.sick then ⟨.trouble (if lexical then .scan else .parse), s, r, []⟩
  else
    let r := r.note ("Parsed " ++ toString program.length ++ " statements.")
    s.bound program (r.bind s.globals.keys program)

/-- How a preparation ends behind the cutting into tokens. -/
def scanned (s : Session) (scan : Scan) (r : Report) : Recording :=
  let lexical := r.sick
  let r := r.note ("Scanned " ++ toString scan.listing.size ++ " tokens.")
  let program := s.readProgram scan
  let s := { s with serial := program.serial }
  match r.enterAll program.issues.toList with
  | .error r => ⟨.halted .tooManyIssues, s, r, []⟩
  | .ok r => s.parsed lexical program.statements r

/-- The preparation of a text, phase by phase. -/
def recording (s : Session) (r : Report) (text : String) : Recording :=
  let scan := Scan.ofText text
  match (r.attach text).enterAll scan.issues.toList with
  | .error r => ⟨.halted .tooManyIssues, s, r, []⟩
  | .ok r => s.scanned scan r

/-- What a preparation gives. -/
def Recording.outcome (r : Recording) : Prepared × Session × Report :=
  (r.prepared, r.session, r.report)

theorem outcome_bound (s : Session) (program : List Stmt) (i : Intake) :
    (s.bound program i).outcome =
      let s := { s with depths := i.references.foldl Binding.record s.depths }
      match i.halt with
      | some halt => (.halted halt, s, i.report)
      | none =>
        if i.report.sick then (.trouble .resolve, s, i.report)
        else
          let count := toString i.references.size
          (.ready program, s, i.report.note ("Resolved " ++ count ++ " references.")) := by
  unfold bound
  dsimp only
  cases i.halt with
  | some halt => rfl
  | none =>
    dsimp only
    split <;> rfl

theorem prepare_eq_recording (s : Session) (r : Report) (text : String) :
    s.prepare r text = (s.recording r text).outcome := by
  unfold prepare prepareBy recording
  dsimp only
  cases (r.attach text).enterAll (Scan.ofText text).issues.toList with
  | error r => rfl
  | ok r =>
    unfold scanned
    dsimp only
    cases (r.note _).enterAll (s.readProgram (Scan.ofText text)).issues.toList with
    | error r => rfl
    | ok r =>
      unfold parsed
      dsimp only
      split
      · rfl
      · refine .trans ?_ (outcome_bound ..).symm
        rfl

theorem depths_bound (s : Session) (program : List Stmt) (i : Intake) :
    (s.bound program i).session.depths =
      (s.bound program i).references.foldl Binding.record s.depths := by
  unfold bound
  dsimp only
  cases i.halt with
  | some halt => exact (Array.foldl_toList ..).symm
  | none =>
    dsimp only
    split <;> exact (Array.foldl_toList ..).symm

/-- The references that a preparation records are those that its session keeps. -/
theorem depths_recording (s : Session) (r : Report) (text : String) :
    (s.recording r text).session.depths =
      (s.recording r text).references.foldl Binding.record s.depths := by
  unfold recording
  dsimp only
  cases (r.attach text).enterAll (Scan.ofText text).issues.toList with
  | error r => rfl
  | ok r =>
    unfold scanned
    dsimp only
    cases (r.note _).enterAll (s.readProgram (Scan.ofText text)).issues.toList with
    | error r => rfl
    | ok r =>
      unfold parsed
      dsimp only
      split
      · rfl
      · exact depths_bound ..

/-! ## The limit in every phase -/

/-- The same end of a preparation with another limit. -/
def Recording.limited (r : Recording) (m : Nat) : Recording :=
  { r with report := r.report.limited m }

/-- How a preparation with a limit relates to one that never gives up: they end alike, or the first
has given up, and the other has only added to what is there then. -/
structure Truncates (m : Nat) (r' r : Recording) : Prop where
  unending : r.prepared ≠ .halted .tooManyIssues
  alike_or_cut : (r' = r.limited m ∧ r.report.issues.size < m) ∨
    (r'.prepared = .halted .tooManyIssues ∧ r'.report.Cuts m r.report ∧
      r'.references <+: r.references)

variable {m : Nat} (s : Session) (program : List Stmt)

theorem issues_bound (i : Intake) : (s.bound program i).report.issues = i.report.issues := by
  unfold bound
  dsimp only
  split
  · rfl
  · split
    · rfl
    · exact Report.issues_note ..

theorem references_bound (i : Intake) :
    (s.bound program i).references = i.references.toList := by
  unfold bound
  dsimp only
  split
  · rfl
  · split <;> rfl

theorem prepared_bound {i : Intake} {halt : Halt} :
    (s.bound program i).prepared = .halted halt ↔ i.halt = some halt := by
  unfold bound
  dsimp only
  split
  · next halt' heq => rw [heq]; exact ⟨fun h => by cases h; rfl, fun h => by cases h; rfl⟩
  · next heq => rw [heq]; split <;> exact ⟨nofun, nofun⟩

theorem bound_limited (i : Intake) (m : Nat) :
    s.bound program (i.limited m) = (s.bound program i).limited m := by
  have hsick : (i.report.limited m).sick = i.report.sick := rfl
  unfold bound Intake.limited
  dsimp only
  cases i.halt with
  | some halt => rfl
  | none =>
    dsimp only
    rw [hsick]
    split
    · rfl
    · rw [Report.note_limited]
      rfl

theorem bound_truncates {i : Intake} (hi : i.report.limit = 0) (hm : i.report.issues.size < m)
    (hhalt : i.halt = none) (es : List Event) :
    Truncates m (s.bound program ((i.limited m).take es)) (s.bound program (i.take es)) := by
  have hnever := Intake.take_unlimited hi (hhalt ▸ nofun) es
  refine ⟨mt (prepared_bound s program).1 hnever, ?_⟩
  rcases Intake.take_limited hi hm es with ⟨hsame, hsize⟩ | ⟨hcut, hreport, hrefs⟩
  · rw [hsame, bound_limited, issues_bound]
    exact .inl ⟨rfl, hsize⟩
  · rw [references_bound, references_bound]
    refine .inr ⟨(prepared_bound s program).2 hcut, ⟨?_, ?_⟩, hrefs⟩
    · rw [issues_bound]
      exact hreport.size
    · rw [issues_bound, issues_bound]
      exact hreport.front

variable {r : Report}

theorem issues_parsed (lexical : Bool) (r : Report) :
    r.issues.toList <+: (s.parsed lexical program r).report.issues.toList := by
  unfold parsed
  split
  · exact List.prefix_rfl
  · let noted := r.note ("Parsed " ++ toString program.length ++ " statements.")
    have htaken := Intake.take_issues ⟨noted, #[], none⟩
      (Binding.log s.globals.keys program).toList
    rw [Report.issues_note] at htaken
    rw [issues_bound]
    exact htaken

theorem parsed_truncates (lexical : Bool) (hr : r.limit = 0) (hm : r.issues.size < m) :
    Truncates m (s.parsed lexical program (r.limited m)) (s.parsed lexical program r) := by
  have hsick : (r.limited m).sick = r.sick := rfl
  unfold parsed
  rw [hsick, Report.note_limited]
  split
  · exact ⟨nofun, .inl ⟨rfl, hm⟩⟩
  · exact bound_truncates s program (i := ⟨r.note _, #[], none⟩) (by simpa using hr)
      (by simpa using hm) rfl _

theorem issues_enterAll {r' : Report} {is : List Issue} (h : r.enterAll is = .ok r') :
    r.issues.toList <+: r'.issues.toList := by
  rw [Report.enterAll_eq_ok h]
  simp

theorem issues_scanned (scan : Scan) (r : Report) :
    r.issues.toList <+: (s.scanned scan r).report.issues.toList := by
  unfold scanned
  dsimp only
  split
  · next r' heq =>
    obtain ⟨-, n, rfl⟩ := Report.enterAll_eq_error heq
    simp
  · next r' heq =>
    have hentered := issues_enterAll heq
    rw [Report.issues_note] at hentered
    exact hentered.trans (issues_parsed ..)

theorem scanned_truncates (scan : Scan) (hr : r.limit = 0) (hm : r.issues.size < m) :
    Truncates m (s.scanned scan (r.limited m)) (s.scanned scan r) := by
  have hsick : (r.limited m).sick = r.sick := rfl
  let noted := r.note ("Scanned " ++ toString scan.listing.size ++ " tokens.")
  obtain ⟨entered, hfree, hentered⟩ := Report.enterAll_unlimited (r := noted)
    (by simpa [noted] using hr) (s.readProgram scan).issues.toList
  unfold scanned
  dsimp only
  rw [hsick, Report.note_limited, hfree]
  rcases Report.enterAll_limited (by simpa [noted] using hm) hfree with
    ⟨hgoes, hsize⟩ | ⟨r', hstops, hcut⟩
  · rw [hgoes]
    exact parsed_truncates _ _ _ hentered hsize
  · rw [hstops]
    have hunending := (parsed_truncates { s with serial := (s.readProgram scan).serial }
      (s.readProgram scan).statements r.sick hentered (Nat.lt_succ_self _)).unending
    exact ⟨hunending, .inr ⟨rfl, hcut.extend (issues_parsed ..), List.nil_prefix⟩⟩

theorem recording_truncates (verbose : Bool) (text : String) (hm : 1 ≤ m) :
    Truncates m (s.recording (.fresh m verbose) text) (s.recording (.fresh 0 verbose) text) := by
  let attached := (Report.fresh 0 verbose).attach text
  have hlimited : (Report.fresh m verbose).attach text = attached.limited m := rfl
  obtain ⟨entered, hfree, hentered⟩ := Report.enterAll_unlimited (r := attached) rfl
    (Scan.ofText text).issues.toList
  unfold recording
  dsimp only
  rw [hlimited, hfree]
  rcases Report.enterAll_limited (r := attached) hm hfree with
    ⟨hgoes, hsize⟩ | ⟨r', hstops, hcut⟩
  · rw [hgoes]
    exact scanned_truncates s _ hentered hsize
  · rw [hstops]
    have hunending := (scanned_truncates s (Scan.ofText text) hentered
      (Nat.lt_succ_self _)).unending
    exact ⟨hunending, .inr ⟨rfl, hcut.extend (issues_scanned ..), List.nil_prefix⟩⟩

/-- The references that the preparation of a text records, in order. -/
def recorded (r : Report) (text : String) : List Reference := (s.recording r text).references

/-- The depths that a session keeps of a text are those of the references that are recorded. -/
theorem depths_prepare (r : Report) (text : String) :
    (s.prepare r text).2.1.depths = (s.recorded r text).foldl Binding.record s.depths := by
  rw [prepare_eq_recording]
  exact depths_recording s r text

/-- **The limit only truncates.** Without a limit a preparation never gives up. If it finds fewer
issues than the limit, it ends in the same way with the limit, and the report differs in the limit
alone. Otherwise it gives up with the limit: the issues are the first of all, as many as the limit
says, and the references recorded by then are the first of all. References are recorded in the
table of depths that the session keeps. -/
theorem prepare_truncates (verbose : Bool) (text : String) (hm : 1 ≤ m) :
    let free := s.prepare (.fresh 0 verbose) text
    let bound := s.prepare (.fresh m verbose) text
    (∀ halt, free.1 ≠ .halted halt) ∧
      (free.2.2.issues.size < m →
        bound = (free.1, free.2.1, free.2.2.limited m) ∧
          bound.2.2.messages = free.2.2.messages) ∧
      (m ≤ free.2.2.issues.size →
        bound.1 = .halted .tooManyIssues ∧
          bound.2.2.issues.toList = free.2.2.issues.toList.take m ∧
          s.recorded (.fresh m verbose) text <+: s.recorded (.fresh 0 verbose) text) ∧
      bound.2.1.depths = (s.recorded (.fresh m verbose) text).foldl Binding.record s.depths ∧
      free.2.1.depths = (s.recorded (.fresh 0 verbose) text).foldl Binding.record s.depths := by
  intro free bound
  have hfree : free = (s.recording (.fresh 0 verbose) text).outcome := prepare_eq_recording ..
  have hbound : bound = (s.recording (.fresh m verbose) text).outcome := prepare_eq_recording ..
  obtain ⟨hunending, hcases⟩ := recording_truncates s verbose text hm
  refine ⟨fun halt hhalt => ?_, ?_⟩
  · obtain rfl := prepare_halted hhalt
    rw [hfree] at hhalt
    exact hunending hhalt
  rw [← and_assoc]
  refine ⟨?_, depths_prepare .., depths_prepare ..⟩
  rw [hfree, hbound]
  rcases hcases with ⟨halike, hsize⟩ | ⟨hhalt, hcut, hrefs⟩
  · rw [halike]
    exact ⟨fun _ => ⟨rfl, rfl⟩, fun hle => absurd hsize (Nat.not_lt.2 hle)⟩
  · have hlength := hcut.front.length_le
    rw [Array.length_toList, Array.length_toList, hcut.size] at hlength
    refine ⟨fun hlt => absurd hlt (Nat.not_lt.2 hlength), fun _ => ⟨hhalt, ?_, hrefs⟩⟩
    have hfront := List.prefix_iff_eq_take.1 hcut.front
    rwa [Array.length_toList, hcut.size] at hfront

/-- With a limit of two, binding ends at the second declaration of a variable, behind the reference
in the initialiser of the first. Without a limit there is one more issue. -/
theorem prepare_truncates_redeclared :
    1 ≤ 2 ∧
      (fresh.prepare (.fresh 0 false)
          "\x7b var a = a; var a = a; var a; \x7d").2.2.issues.size = 3 ∧
      (fresh.prepare (.fresh 2 false) "\x7b var a = a; var a = a; var a; \x7d").1 =
        .halted .tooManyIssues ∧
      (fresh.prepare (.fresh 2 false)
          "\x7b var a = a; var a = a; var a; \x7d").2.2.issues.toList =
        (fresh.prepare (.fresh 0 false)
          "\x7b var a = a; var a = a; var a; \x7d").2.2.issues.toList.take 2 ∧
      fresh.recorded (.fresh 2 false) "\x7b var a = a; var a = a; var a; \x7d" <+:
        fresh.recorded (.fresh 0 false) "\x7b var a = a; var a = a; var a; \x7d" := by
  have hsize : (fresh.prepare (.fresh 0 false)
      "\x7b var a = a; var a = a; var a; \x7d").2.2.issues.size = 3 := by decide +kernel
  obtain ⟨-, -, hcut, -, -⟩ := prepare_truncates fresh false
    "\x7b var a = a; var a = a; var a; \x7d" (show 1 ≤ 2 by decide)
  exact ⟨by decide, hsize, hcut (hsize ▸ by decide)⟩

end Session

end Scriptlet

import Scriptlet.Proofs.Session.Entering
import Scriptlet.Proofs.Session.Outline

/-!
# Rejected lines leave no trace

A line that is rejected, or that fills the report, uses up serials and leaves depths on record for
references that are never followed, and nothing else. So a session does the same without it: every
other line has the same answer (`Session.Answer`), and at the end the outlines of the two sessions
are the same (`Session.rejected_vanish`).
-/

namespace Scriptlet

/-! ## Reports -/

namespace Report

variable {r r' : Report}

/-- Reports that differ in what was told alone. -/
def Accords (r r' : Report) : Prop := ∃ transcript, r' = { r with transcript }

theorem Accords.sick (h : r.Accords r') : r'.sick = r.sick := by
  obtain ⟨_, rfl⟩ := h
  rfl

/-- Notes are only told. -/
theorem Accords.note (h : r.Accords r') (line line' : String) :
    (r.note line).Accords (r'.note line') := by
  obtain ⟨_, rfl⟩ := h
  unfold Report.note
  dsimp only
  split
  · exact ⟨_, rfl⟩
  · exact ⟨_, rfl⟩

theorem Accords.enter (h : r.Accords r') (i : Issue) : (r.enter i).Accords (r'.enter i) := by
  obtain ⟨_, rfl⟩ := h
  exact ⟨_, rfl⟩

theorem Accords.enterCrash (h : r.Accords r') (c : Crash) :
    (r.enterCrash c).Accords (r'.enterCrash c) := by
  obtain ⟨_, rfl⟩ := h
  exact ⟨_, rfl⟩

theorem Accords.full (h : r.Accords r') : r'.full = r.full := by
  obtain ⟨_, rfl⟩ := h
  rfl

/-- Both reports fill up, or neither does. -/
theorem Accords.enterAll (h : r.Accords r') (is : List Issue) :
    (∃ a a', r.enterAll is = .ok a ∧ r'.enterAll is = .ok a' ∧ a.Accords a') ∨
      ∃ a a', r.enterAll is = .error a ∧ r'.enterAll is = .error a' ∧ a.Accords a' := by
  induction is generalizing r r' with
  | nil => exact .inl ⟨r, r', rfl, rfl, h⟩
  | cons i rest ih =>
    have hi := h.enter i
    simp only [Report.enterAll, hi.full]
    split
    · exact .inr ⟨_, _, rfl, rfl, hi⟩
    · exact ih hi

/-- The limit and the verbosity of a report do not change. -/
structure Continues (r r' : Report) : Prop where
  limit : r'.limit = r.limit
  verbose : r'.verbose = r.verbose

theorem Continues.refl (r : Report) : r.Continues r := ⟨rfl, rfl⟩

theorem Continues.trans {r'' : Report} (h : r.Continues r') (h' : r'.Continues r'') :
    r.Continues r'' := ⟨h'.limit.trans h.limit, h'.verbose.trans h.verbose⟩

/-- Before a text is prepared, nothing is left of what reports said of others. -/
theorem Continues.accords {r₀ : Report} (h : r₀.Continues r) (h' : r₀.Continues r')
    (text : String) : (r.reset.attach text).Accords (r'.reset.attach text) := by
  obtain ⟨limit, verbose, issues, crash, source, transcript⟩ := r
  obtain ⟨limit', verbose', issues', crash', source', transcript'⟩ := r'
  obtain ⟨rfl, rfl⟩ := h
  obtain ⟨rfl, rfl⟩ := h'
  exact ⟨transcript', rfl⟩

end Report

namespace Intake

/-- The logs of a program under two relabelings lead to the same complaints. -/
theorem take_accords {i i' : Intake} (g g' : Relabeling) (es : List Binding.Event)
    (hreport : i.report.Accords i'.report) (hhalt : i'.halt = i.halt) :
    (i.take (es.map g.event)).report.Accords (i'.take (es.map g'.event)).report ∧
      (i'.take (es.map g'.event)).halt = (i.take (es.map g.event)).halt := by
  induction es generalizing i i' with
  | nil => exact ⟨hreport, hhalt⟩
  | cons e rest ih =>
    cases e with
    | reference ref => exact ih (i := { i with references := _ }) hreport hhalt
    | declaredBefore first => exact ih (i := { i with report := _ }) (hreport.note _ _) hhalt
    | unbalanced => exact ⟨hreport, rfl⟩
    | issue issue =>
      have hi := hreport.enter issue
      simp only [List.map_cons, Relabeling.event, Intake.take, hi.full]
      split
      · exact ⟨hi, rfl⟩
      · exact ih (i := { i with report := _ }) hi hhalt

end Intake

/-! ## Preparing -/

/-- Two texts that have become the same, but for the serials of a program. -/
inductive Prepared.Alike : Prepared → Prepared → Prop
  | ready {program program' : List Stmt} : Alike (.ready program) (.ready program')
  | trouble (phase : Phase) : Alike (.trouble phase) (.trouble phase)
  | halted (halt : Halt) : Alike (.halted halt) (.halted halt)

namespace Session

variable {s s' t t' : Session} {r r' r₀ : Report} {text : String}

/-- What is read of a text is bound in two sessions with the same complaints. -/
theorem bind_accords (hkeys : s.globals.keys = t.globals.keys) (hr : r.Accords r')
    (text : String) :
    (r.bind s.globals.keys (s.reading text).statements).report.Accords
        (r'.bind t.globals.keys (t.reading text).statements).report ∧
      (r'.bind t.globals.keys (t.reading text).statements).halt =
        (r.bind s.globals.keys (s.reading text).statements).halt := by
  unfold Report.bind
  rw [reading_shifted s, reading_shifted t, Binding.log_relabeled, Binding.log_relabeled, hkeys]
  exact Intake.take_accords _ _ _ hr rfl

/-- What becomes of texts whose names have been bound with the same complaints. -/
theorem verdict_alike {i i' : Intake} (hreport : i.report.Accords i'.report)
    (hhalt : i'.halt = i.halt) (program program' : List Stmt) (u u' : Session)
    (line line' : String) :
    let end₁ : Prepared × Session × Report :=
      match i.halt with
      | some halt => (.halted halt, u, i.report)
      | none =>
        if i.report.sick then (.trouble .resolve, u, i.report)
        else (.ready program, u, i.report.note line)
    let end₂ : Prepared × Session × Report :=
      match i'.halt with
      | some halt => (.halted halt, u', i'.report)
      | none =>
        if i'.report.sick then (.trouble .resolve, u', i'.report)
        else (.ready program', u', i'.report.note line')
    end₁.1.Alike end₂.1 ∧ end₁.2.2.Accords end₂.2.2 := by
  dsimp only
  rw [hhalt, hreport.sick]
  cases i.halt with
  | some halt => exact ⟨.halted halt, hreport⟩
  | none =>
    dsimp only
    split
    · exact ⟨.trouble _, hreport⟩
    · exact ⟨.ready, hreport.note _ _⟩

/-- A text is accepted in both of two sessions with the same globals, or in neither, and with the
same complaints. -/
theorem prepare_alike (hkeys : s.globals.keys = t.globals.keys)
    (hr : (r.attach text).Accords (r'.attach text)) :
    (s.prepare r text).1.Alike (t.prepare r' text).1 ∧
      (s.prepare r text).2.2.Accords (t.prepare r' text).2.2 := by
  have hissues : (t.readProgram (Scan.ofText text)).issues =
      (s.readProgram (Scan.ofText text)).issues := by
    show (t.reading text).issues = (s.reading text).issues
    rw [reading_shifted, reading_shifted s]
  unfold prepare prepareBy
  dsimp only
  rcases hr.enterAll (Scan.ofText text).issues.toList with ⟨a, a', ha, ha', haa⟩ |
    ⟨a, a', ha, ha', haa⟩
  · rw [ha, ha']
    dsimp only
    rw [hissues, haa.sick]
    rcases (haa.note _ _).enterAll (s.readProgram (Scan.ofText text)).issues.toList with
      ⟨b, b', hb, hb', hbb⟩ | ⟨b, b', hb, hb', hbb⟩
    · rw [hb, hb']
      dsimp only
      rw [hbb.sick]
      split
      · exact ⟨.trouble _, hbb⟩
      · obtain ⟨hreport, hhalt⟩ := bind_accords hkeys (hbb.note
          ("Parsed " ++ toString (s.reading text).statements.length ++ " statements.")
          ("Parsed " ++ toString (t.reading text).statements.length ++ " statements.")) text
        exact verdict_alike hreport hhalt _ _ _ _ _ _
    · rw [hb, hb']
      exact ⟨.halted _, hbb⟩
  · rw [ha, ha']
    exact ⟨.halted _, haa⟩

theorem continues_prepare (s : Session) (r : Report) (text : String) :
    r.Continues (s.prepare r text).2.2 :=
  have h := s.prepare_enters r text
  ⟨h.limit, h.verbose⟩

theorem continues_runLine (host : Host) (s : Session) (r : Report) (line : String) :
    r.Continues (s.runLine host r line).2.2 := by
  have hreset : r.Continues r.reset := ⟨rfl, rfl⟩
  have hprepare := hreset.trans (continues_prepare s r.reset line)
  unfold runLine runText carryOut interpret
  rcases hp : s.prepare r.reset line with ⟨p, s', r'⟩
  rw [hp] at hprepare
  cases p with
  | trouble _ | halted _ => exact hprepare
  | ready program =>
    refine Report.Continues.trans hprepare ?_
    dsimp only
    split <;> exact ⟨rfl, rfl⟩

/-! ## Lines -/

theorem ending_keeping (f : Nat → Nat) (ending : Ending) :
    (Relabeling.keeping f).ending ending = ending := by
  cases ending with
  | finished => rfl
  | stopped stop => cases stop <;> rfl

variable {times : Nat → Float} {line : String}

/-- Two sessions with the same outline do the same with a line. -/
theorem runLine_alike (times : Nat → Float) (line : String)
    (hs : (Limits.grown (· < s.serial)).heap s.machine.heap)
    (ht : (Limits.grown (· < t.serial)).heap t.machine.heap) (houtline : s.outline = t.outline)
    (hr : r₀.Continues r) (hr' : r₀.Continues r') :
    (s.runLine (Host.telling times) r line).1 = (t.runLine (Host.telling times) r' line).1 ∧
      (s.runLine (Host.telling times) r line).2.1.outline =
        (t.runLine (Host.telling times) r' line).2.1.outline ∧
      (s.runLine (Host.telling times) r line).2.2.Accords
        (t.runLine (Host.telling times) r' line).2.2 := by
  have hkeys := keys_of_outline houtline
  obtain ⟨halike, haccords⟩ := prepare_alike hkeys (hr.accords hr' line)
  unfold runLine runText carryOut
  rcases hp : s.prepare r.reset line with ⟨p, s', r₁⟩
  rcases hp' : t.prepare r'.reset line with ⟨p', t', r₁'⟩
  rw [hp, hp'] at halike haccords
  have houtline' : s'.outline = t'.outline := by
    rw [outline_prepare hs hp, outline_prepare ht hp', houtline]
  cases halike with
  | trouble phase => exact ⟨rfl, houtline', haccords⟩
  | halted halt => exact ⟨rfl, houtline', haccords⟩
  | @ready program program' =>
    have hprogram := (ready_of_prepare hp).outline_eq (ready_of_prepare hp') hkeys
    obtain ⟨hending, hmachine⟩ :=
      Machine.run_of_outline times houtline' hprogram enoughFuel maxCalls
    have hkept : ∀ d e, ((Relabeling.keeping id).outline d).ending e = e :=
      fun _ e => ending_keeping _ e
    rw [hkept, hkept] at hending
    unfold interpret
    dsimp only
    rcases hrun : s'.machine.run (.following s'.depths (Host.telling times)) enoughFuel maxCalls
      program with ⟨ending, m⟩
    rcases hrun' : t'.machine.run (.following t'.depths (Host.telling times)) enoughFuel maxCalls
      program' with ⟨ending', m'⟩
    rw [hrun, hrun'] at hending hmachine
    obtain rfl : ending = ending' := hending
    refine ⟨rfl, hmachine, ?_⟩
    dsimp only
    split
    · exact haccords.enterCrash _
    · exact haccords

/-! ## Answers -/

/-- What a session answers to a line: what has become of it, what it has printed, what there is to
complain about, and whether the session is outside of all blocks and calls behind it. -/
structure Answer where
  outcome : Outcome
  printed : List String
  issues : Array Issue
  crash : Option Crash
  atGlobals : Bool

/-- The answer of a session, with a report on the line before, to the next line. -/
def answer (host : Host) (before : Session × Report) (line : String) : Answer :=
  let (outcome, s, r) := before.1.runLine host before.2 line
  ⟨outcome, s.machine.printed.toList.drop before.1.machine.printed.size, r.issues, r.crash,
    s.atGlobals⟩

/-- Two sessions with the same outline have the same answer to a line. -/
theorem answer_alike (hs : (Limits.grown (· < s.serial)).heap s.machine.heap)
    (ht : (Limits.grown (· < t.serial)).heap t.machine.heap) (houtline : s.outline = t.outline)
    (hr : r₀.Continues r) (hr' : r₀.Continues r') :
    answer (Host.telling times) (s, r) line = answer (Host.telling times) (t, r') line := by
  obtain ⟨houtcome, houtline', hreport⟩ :=
    runLine_alike times line hs ht houtline hr hr'
  have hbefore : s.machine.printed = t.machine.printed := by
    rw [← printed_outline, houtline, printed_outline]
  have hprinted : (s.runLine (Host.telling times) r line).2.1.machine.printed =
      (t.runLine (Host.telling times) r' line).2.1.machine.printed := by
    rw [← printed_outline, houtline', printed_outline]
  have hhere : (s.runLine (Host.telling times) r line).2.1.machine.here =
      (t.runLine (Host.telling times) r' line).2.1.machine.here := by
    rw [← here_outline, houtline', here_outline]
  obtain ⟨_, hreport⟩ := hreport
  unfold answer atGlobals
  dsimp only
  rw [houtcome, hbefore, hprinted, hhere, hreport]

/-- Whether a text was not run. -/
def Outcome.rejects : Outcome → Bool
  | ran _ => false
  | rejected _ | halted _ => true

/-! ## Sessions without their rejected lines -/

/-- Lines that are marked, whether they are kept or not. -/
def allLines (marks : List (String × Bool)) : List String := marks.map Prod.fst

/-- Those of marked lines that are kept. -/
def keptLines (marks : List (String × Bool)) : List String := (marks.filter Prod.snd).map Prod.fst

theorem continues_afterLines (host : Host) (r : Report) (lines : List String) :
    r.Continues (afterLines host r lines).2 := by
  induction lines using List.reverseRecOn with
  | nil => exact .refl r
  | append_singleton lines line ih =>
    rw [afterLines_append]
    exact ih.trans (continues_runLine ..)

/-- A line that is rejected leaves the machine. -/
theorem runLine_rejected {host : Host} (h : (s.runLine host r line).1.rejects = true) :
    ∃ p s' r', s.prepare r.reset line = (p, s', r') ∧ (s.runLine host r line).2.1 = s' := by
  rcases hp : s.prepare r.reset line with ⟨p, s', r'⟩
  refine ⟨p, s', r', rfl, ?_⟩
  unfold runLine runText carryOut at h ⊢
  rw [hp] at h ⊢
  cases p with
  | ready program => cases h
  | trouble _ | halted _ => rfl

/-- Every line that is left out is rejected where it stands among all. -/
def Dropped (host : Host) (r : Report) (marks : List (String × Bool)) : Prop :=
  ∀ before line after, marks = before ++ (line, false) :: after →
    (answer host (afterLines host r (allLines before)) line).outcome.rejects = true

theorem Dropped.front {host : Host} {marks after : List (String × Bool)}
    (h : Dropped host r (marks ++ after)) : Dropped host r marks := by
  rintro before line rest rfl
  exact h before line (rest ++ after) (by simp)

/-- Without its rejected lines a session has the same outline. -/
theorem outline_keptLines {marks : List (String × Bool)}
    (h : Dropped (Host.telling times) r marks) :
    (afterLines (Host.telling times) r (allLines marks)).1.outline =
      (afterLines (Host.telling times) r (keptLines marks)).1.outline := by
  induction marks using List.reverseRecOn with
  | nil => rfl
  | append_singleton marks mark ih =>
    obtain ⟨line, kept⟩ := mark
    have hall : allLines (marks ++ [(line, kept)]) = allLines marks ++ [line] := by
      simp [allLines]
    rw [hall, afterLines_append]
    cases kept with
    | true =>
      have hkept : keptLines (marks ++ [(line, true)]) = keptLines marks ++ [line] := by
        simp [keptLines]
      rw [hkept, afterLines_append]
      exact (runLine_alike times line (grown_afterLines _) (grown_afterLines _) (ih h.front)
        (continues_afterLines ..) (continues_afterLines ..)).2.1
    | false =>
      have hkept : keptLines (marks ++ [(line, false)]) = keptLines marks := by simp [keptLines]
      rw [hkept, ← ih h.front]
      obtain ⟨p, s', r', hp, hs'⟩ := runLine_rejected (h marks line [] rfl)
      rw [hs']
      exact outline_prepare (grown_afterLines _) hp

/-- **Rejected lines leave no trace.** Leave out any lines of a session that are rejected: every
other line has the same answer, and at the end there are the same globals, with the same values but
for the serials in their functions. A line that is left out had printed nothing and changed no
binding, and the session was outside of all blocks and calls behind it. -/
theorem rejected_vanish (times : Nat → Float) (r : Report) (marks : List (String × Bool))
    (h : Dropped (Host.telling times) r marks) :
    (∀ before line after, marks = before ++ (line, true) :: after →
      answer (Host.telling times) (afterLines (Host.telling times) r (allLines before)) line =
        answer (Host.telling times) (afterLines (Host.telling times) r (keptLines before)) line) ∧
    (afterLines (Host.telling times) r (allLines marks)).1.outline =
      (afterLines (Host.telling times) r (keptLines marks)).1.outline ∧
    (afterLines (Host.telling times) r (allLines marks)).1.globals.keys =
      (afterLines (Host.telling times) r (keptLines marks)).1.globals.keys ∧
    ∀ before line after, marks = before ++ (line, false) :: after →
      (answer (Host.telling times)
        (afterLines (Host.telling times) r (allLines before)) line).printed = [] ∧
      (answer (Host.telling times)
        (afterLines (Host.telling times) r (allLines before)) line).atGlobals = true ∧
      (afterLines (Host.telling times) r (allLines (before ++ [(line, false)]))).1.machine =
        (afterLines (Host.telling times) r (allLines before)).1.machine := by
  refine ⟨?_, outline_keptLines h, keys_of_outline (outline_keptLines h), ?_⟩
  · rintro before line after rfl
    have houtline := outline_keptLines h.front
    exact answer_alike (grown_afterLines _) (grown_afterLines _) houtline
      (continues_afterLines ..) (continues_afterLines ..)
  · rintro before line after rfl
    obtain ⟨p, s', r', hp, hs'⟩ := runLine_rejected (h before line after rfl)
    have hmachine := prepare_machine hp
    have houtside : (afterLines (Host.telling times) r (allLines before)).1.machine.Outside _ :=
      outside_afterLines (allLines before)
    have hhere := houtside.here
    have hall : allLines (before ++ [(line, false)]) = allLines before ++ [line] := by
      simp [allLines]
    rw [hall, afterLines_append]
    unfold answer atGlobals
    dsimp only
    rw [hs', hmachine, hhere]
    refine ⟨?_, rfl, rfl⟩
    rw [← Array.length_toList, List.drop_length]

/-- A line that does not fit the grammar and one whose names are not bound are missed by none of the
others. -/
theorem rejected_vanish_between :
    let marks := [("var a = 1;", true), ("var b = ;", false), ("\x7b var a = a; \x7d", false),
      ("print a;", true)]
    Dropped (Host.telling fun _ => 0) (.fresh 10 false) marks ∧
    answer (Host.telling fun _ => 0) (afterLines (Host.telling fun _ => 0) (.fresh 10 false)
        ["var a = 1;", "var b = ;", "\x7b var a = a; \x7d"]) "print a;" =
      answer (Host.telling fun _ => 0) (afterLines (Host.telling fun _ => 0) (.fresh 10 false)
        ["var a = 1;"]) "print a;" ∧
    (answer (Host.telling fun _ => 0) (afterLines (Host.telling fun _ => 0) (.fresh 10 false)
      ["var a = 1;"]) "print a;").printed = ["1"] := by
  intro marks
  have hdropped : Dropped (Host.telling fun _ => 0) (.fresh 10 false) marks := by
    rintro (_ | ⟨m₁, _ | ⟨m₂, _ | ⟨m₃, _ | ⟨m₄, before⟩⟩⟩⟩) line after heq <;>
      simp only [marks, List.nil_append, List.cons_append, List.cons.injEq, Prod.mk.injEq,
        Bool.true_eq_false, and_false, false_and, List.nil_eq, List.append_eq_nil_iff,
        reduceCtorEq] at heq
    · obtain ⟨rfl, ⟨rfl, -⟩, -⟩ := heq
      decide +kernel
    · obtain ⟨rfl, rfl, ⟨rfl, -⟩, -⟩ := heq
      decide +kernel
  refine ⟨hdropped, ?_, by decide +kernel⟩
  exact (rejected_vanish (fun _ => 0) (.fresh 10 false) marks hdropped).1
    [("var a = 1;", true), ("var b = ;", false), ("\x7b var a = a; \x7d", false)] "print a;" [] rfl

end Session

end Scriptlet

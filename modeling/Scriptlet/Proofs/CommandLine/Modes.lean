import Scriptlet.CommandLine.Command
import Scriptlet.Proofs.Session.Room

/-!
# The modes of the command agree

A program from a file is run, or only checked, or its tokens are listed. The modes find the same
program bad: if the tokens of a text have issues it is not ready to run, and whether it is ready
depends neither on what is done with it nor on what is told about it (`runFile_modes`).

**Room.** There is one way out besides: where there is no room for the tree of a program, the
command ends with neither of the codes that its modes agree on, whether the program was to be run or
only checked. A flat text is enough for that (`runFile_chain`).

**Telling changes nothing.** Two reports that agree in everything but what they tell, and what they
need to tell it, take the same entries and fill up with the same one (`Report.Agrees.enterAll`). So
a text that is prepared with both becomes the same (`Session.prepareWithin_agrees`).
-/

namespace Scriptlet

/-! ## Reports that tell more or less -/

namespace Report

variable {r r' : Report}

/-- Reports that differ in what they tell alone. -/
def Agrees (r r' : Report) : Prop :=
  ∃ verbose source transcript, r' = { r with verbose, source, transcript }

theorem Agrees.trans {r'' : Report} (h : r.Agrees r') (h' : r'.Agrees r'') : r.Agrees r'' := by
  obtain ⟨_, _, _, rfl⟩ := h
  obtain ⟨_, _, _, rfl⟩ := h'
  exact ⟨_, _, _, rfl⟩

theorem Agrees.sick (h : r.Agrees r') : r'.sick = r.sick := by
  obtain ⟨_, _, _, rfl⟩ := h
  rfl

theorem Agrees.full (h : r.Agrees r') : r'.full = r.full := by
  obtain ⟨_, _, _, rfl⟩ := h
  rfl

theorem Agrees.enter (h : r.Agrees r') (i : Issue) : (r.enter i).Agrees (r'.enter i) := by
  obtain ⟨_, _, _, rfl⟩ := h
  exact ⟨_, _, _, rfl⟩

theorem Agrees.attach (h : r.Agrees r') (text : String) :
    (r.attach text).Agrees (r'.attach text) := by
  obtain ⟨_, _, _, rfl⟩ := h
  exact ⟨_, _, _, rfl⟩

/-- A report agrees with what becomes of it by a note. -/
theorem agrees_note (r : Report) (line : String) : r.Agrees (r.note line) := by
  unfold note
  split <;> exact ⟨_, _, _, rfl⟩

theorem Agrees.note (h : r.Agrees r') (line : String) : (r.note line).Agrees (r'.note line) := by
  obtain ⟨verbose, source, transcript, rfl⟩ := h
  unfold Report.note
  dsimp only
  split <;> split <;> exact ⟨_, _, _, rfl⟩

/-- Both reports fill up, or neither does. -/
theorem Agrees.enterAll (h : r.Agrees r') (is : List Issue) :
    (∃ a a', r.enterAll is = .ok a ∧ r'.enterAll is = .ok a' ∧ a.Agrees a') ∨
      ∃ a a', r.enterAll is = .error a ∧ r'.enterAll is = .error a' ∧ a.Agrees a' := by
  induction is generalizing r r' with
  | nil => exact .inl ⟨r, r', rfl, rfl, h⟩
  | cons i rest ih =>
    have hi := h.enter i
    simp only [Report.enterAll, hi.full]
    split
    · exact .inr ⟨_, _, rfl, rfl, hi⟩
    · exact ih hi

end Report

/-- What two agreeing reports have taken from a log. -/
structure Intake.Agrees (i i' : Intake) : Prop where
  report : i.report.Agrees i'.report
  references : i'.references = i.references
  halt : i'.halt = i.halt

theorem Intake.Agrees.take {i i' : Intake} (h : i.Agrees i') (es : List Binding.Event) :
    (i.take es).Agrees (i'.take es) := by
  induction es generalizing i i' with
  | nil => exact h
  | cons e rest ih =>
    cases e with
    | reference r => exact ih ⟨h.report, congrArg (·.push r) h.references, h.halt⟩
    | declaredBefore first => exact ih ⟨h.report.note _, h.references, h.halt⟩
    | unbalanced => exact ⟨h.report, h.references, rfl⟩
    | issue issue =>
      have hi := h.report.enter issue
      simp only [Intake.take, hi.full]
      split
      · exact ⟨hi, h.references, rfl⟩
      · exact ih ⟨hi, h.references, h.halt⟩

theorem Report.Agrees.bindWithin {r r' : Report} (h : r.Agrees r') (levels : Nat)
    (known : List String) (program : List Stmt) :
    (r.bindWithin levels known program).Agrees (r'.bindWithin levels known program) := by
  have htaken := (show Intake.Agrees ⟨r, #[], none⟩ ⟨r', #[], none⟩ from ⟨h, rfl, rfl⟩).take
    (Binding.logOf known ((Binding.steps program).takeWhile (·.level ≤ levels))).toList
  unfold Report.bindWithin
  dsimp only
  rw [htaken.halt]
  split
  · exact ⟨htaken.report, htaken.references, rfl⟩
  · exact htaken

namespace Session

variable {r r' : Report}

theorem bound_agrees (s : Session) (program : List Stmt) {i i' : Intake} (h : i.Agrees i') :
    (s.bound program i').outcome.1 = (s.bound program i).outcome.1 ∧
      (s.bound program i').outcome.2.1 = (s.bound program i).outcome.2.1 := by
  rw [outcome_bound, outcome_bound]
  dsimp only
  rw [h.halt, h.references, h.report.sick]
  cases i.halt with
  | some halt => exact ⟨rfl, rfl⟩
  | none =>
    dsimp only
    split <;> exact ⟨rfl, rfl⟩

/-- **What is told does not matter** for what becomes of a text. -/
theorem prepareWithin_agrees (levels : Nat) (s : Session) (h : r.Agrees r') (text : String) :
    (s.prepareWithin levels r' text).1 = (s.prepareWithin levels r text).1 ∧
      (s.prepareWithin levels r' text).2.1 = (s.prepareWithin levels r text).2.1 := by
  unfold prepareWithin prepareBy
  dsimp only
  rcases (h.attach text).enterAll (Scan.ofText text).issues.toList with
    ⟨a, a', ha, ha', haa⟩ | ⟨a, a', ha, ha', haa⟩
  · rw [ha, ha']
    dsimp only
    rw [haa.sick]
    rcases (haa.note _).enterAll (s.readProgram (Scan.ofText text)).issues.toList with
      ⟨b, b', hb, hb', hbb⟩ | ⟨b, b', hb, hb', hbb⟩
    · rw [hb, hb']
      dsimp only
      rw [hbb.sick]
      split
      · exact ⟨rfl, rfl⟩
      · let parsed := toString (s.reading text).statements.length
        have hbound := (hbb.note ("Parsed " ++ parsed ++ " statements.")).bindWithin levels
          s.globals.keys (s.reading text).statements
        have hends := bound_agrees { s with serial := (s.reading text).serial }
          (s.reading text).statements hbound
        rw [outcome_bound, outcome_bound] at hends
        exact hends
    · rw [hb, hb']
      exact ⟨rfl, rfl⟩
  · rw [ha, ha']
    exact ⟨rfl, rfl⟩

end Session

namespace CommandLine

variable {host : Host} {r r' : Report} {text : String} {onlyCheck : Bool}

/-! ## Exit codes -/

theorem Status.code_eq_zero {s : Status} : s.code = 0 ↔ s = .ok := by cases s <;> decide

theorem Status.code_eq_bad {s : Status} : s.code = 65 ↔ s = .badProgram := by cases s <;> decide

theorem Status.code_eq_crashed {s : Status} : s.code = 70 ↔ s = .crashed := by cases s <;> decide

/-! ## Running, checking and listing -/

/-- How the command ends with a text, and what it writes to the output. -/
def Result.seen (r : Result) : Status × String := (r.status, r.out)

/-- How the command ends with a program that has ended so. -/
def statusOf : Ending → Status
  | .finished => .ok
  | .stopped (.crash _) => .crashed
  | .stopped _ => .broken

theorem statusOf_eq_ok {ending : Ending} : statusOf ending = .ok ↔ ending = .finished := by
  cases ending with
  | finished => exact ⟨fun _ => rfl, fun _ => rfl⟩
  | stopped stop => cases stop <;> exact ⟨nofun, nofun⟩

theorem statusOf_eq_crashed {ending : Ending} :
    statusOf ending = .crashed ↔ ∃ c, ending = .stopped (.crash c) := by
  cases ending with
  | finished => exact ⟨nofun, fun ⟨_, h⟩ => nomatch h⟩
  | stopped stop =>
    cases stop with
    | crash c => exact ⟨fun _ => ⟨c, rfl⟩, fun _ => rfl⟩
    | fault _ | outOfFuel => exact ⟨nofun, fun ⟨_, h⟩ => nomatch h⟩

theorem statusOf_ne_bad (ending : Ending) : statusOf ending ≠ .badProgram := by
  cases ending with
  | finished => exact nofun
  | stopped stop => cases stop <;> exact nofun

/-- A text has been rejected for its issues. -/
def Rejected (p : Prepared) : Prop := p = .halted .tooManyIssues ∨ ∃ phase, p = .trouble phase

/-- A text is rejected, or there is no room for its tree, or it is ready to run. -/
theorem prepared_cases (r : Report) (text : String) :
    let p := Session.fresh.prepareWithin maxLevels r text
    Rejected p.1 ∨ p.1 = .halted .tooDeep ∧ Session.fresh.TooDeep maxLevels text ∨
      ∃ program s r', p = (.ready program, s, r') ∧ ¬Session.fresh.TooDeep maxLevels text := by
  intro p
  rcases hp : p with ⟨prepared, s, r'⟩
  have heq : prepared = p.1 := by rw [hp]
  cases prepared with
  | ready program =>
    exact .inr (.inr ⟨program, s, r', rfl, fun h =>
      Session.prepareWithin_tooDeep h program heq.symm⟩)
  | trouble phase => exact .inl (.inr ⟨phase, rfl⟩)
  | halted halt =>
    rcases Session.prepareWithin_halted heq.symm with rfl | ⟨rfl, hdeep⟩
    · exact .inl (.inl rfl)
    · exact .inr (.inl ⟨rfl, hdeep⟩)

/-- A text that is rejected is a bad program, and nothing is written. -/
theorem seen_runText_rejected (h : Rejected (Session.fresh.prepareWithin maxLevels r text).1) :
    (runText host r text onlyCheck).seen = (.badProgram, "") := by
  unfold runText
  generalize Session.fresh.prepareWithin maxLevels r text = p at h ⊢
  obtain ⟨p, s, r'⟩ := p
  rcases h with rfl | ⟨phase, rfl⟩ <;> rfl

/-- Where there is no room for its tree, a text is neither run nor said to be plausible. -/
theorem seen_runText_tooDeep
    (h : (Session.fresh.prepareWithin maxLevels r text).1 = .halted .tooDeep) :
    (runText host r text onlyCheck).seen = (.exhausted, "") := by
  unfold runText
  generalize Session.fresh.prepareWithin maxLevels r text = p at h ⊢
  obtain ⟨p, s, r'⟩ := p
  cases h
  rfl

section Ready

variable {program : List Stmt} {s : Session}
  (h : Session.fresh.prepareWithin maxLevels r text = (.ready program, s, r'))

include h

/-- A text that is ready to run looks plausible. -/
theorem seen_runText_check : (runText host r text true).seen = (.ok, "") := by
  unfold runText
  rw [h]
  rfl

/-- A text that is ready to run ends with its run, and what is written is what the run prints. -/
theorem seen_runText_plain : (runText host r text false).seen =
    (statusOf (s.interpret host r' program).1,
      unlines (s.interpret host r' program).2.1.machine.printed.toList) := by
  unfold runText
  rw [h]
  dsimp only
  rcases s.interpret host r' program with ⟨ending, s₁, r₁⟩
  cases ending with
  | finished => rfl
  | stopped stop => cases stop <;> rfl

end Ready

theorem runText_bad_iff : (runText host r text onlyCheck).status = .badProgram ↔
    Rejected (Session.fresh.prepareWithin maxLevels r text).1 := by
  refine ⟨fun h => ?_, fun h => (Prod.mk.inj (seen_runText_rejected h)).1⟩
  refine (prepared_cases r text).resolve_right ?_
  rintro (⟨hp, -⟩ | ⟨program, s, r', hp, -⟩)
  · exact nomatch h.symm.trans (Prod.mk.inj (seen_runText_tooDeep hp)).1
  · cases onlyCheck with
    | true => exact nomatch h.symm.trans (Prod.mk.inj (seen_runText_check hp)).1
    | false => exact statusOf_ne_bad _ ((Prod.mk.inj (seen_runText_plain hp)).1.symm.trans h)

/-- A text that is checked is a bad program, or looks plausible, or there is no room for it. -/
theorem runText_check (host : Host) (r : Report) (text : String)
    (h : (runText host r text true).status ≠ .badProgram) :
    (¬Session.fresh.TooDeep maxLevels text → (runText host r text true).status = .ok) ∧
      (Session.fresh.TooDeep maxLevels text → ∀ onlyCheck,
        (runText host r text onlyCheck).seen = (.exhausted, "")) := by
  rcases (prepared_cases r text).resolve_left (mt runText_bad_iff.2 h) with
    ⟨hp, hdeep⟩ | ⟨program, s, r', hp, hroom⟩
  · exact ⟨fun hroom => absurd hdeep hroom, fun _ _ => seen_runText_tooDeep hp⟩
  · exact ⟨fun _ => (Prod.mk.inj (seen_runText_check hp)).1, fun hdeep => absurd hdeep hroom⟩

/-- A text that is run ends as its run does, if it is ready and there is room for it. -/
theorem runText_ends_iff (status : Status) (hbad : status ≠ .badProgram)
    (hroom : status ≠ .exhausted) : (runText host r text false).status = status ↔
      ¬Session.fresh.TooDeep maxLevels text ∧ ∃ program s r',
        Session.fresh.prepare r text = (.ready program, s, r') ∧
          statusOf (s.interpret host r' program).1 = status := by
  constructor
  · intro h
    rcases prepared_cases r text with hp | ⟨hp, -⟩ | ⟨program, s, r', hp, hdeep⟩
    · exact absurd (h.symm.trans (Prod.mk.inj (seen_runText_rejected hp)).1) hbad
    · exact absurd (h.symm.trans (Prod.mk.inj (seen_runText_tooDeep hp)).1) hroom
    · refine ⟨hdeep, program, s, r', (Session.prepareWithin_eq hdeep).symm.trans hp, ?_⟩
      exact (Prod.mk.inj (seen_runText_plain hp)).1.symm.trans h
  · rintro ⟨hdeep, program, s, r', hp, h⟩
    rw [← Session.prepareWithin_eq hdeep] at hp
    exact (Prod.mk.inj (seen_runText_plain hp)).1.trans h

/-- Nothing is wrong with the tokens of a text that is not rejected. -/
theorem rejected_of_tokens (hr : r.sick = false) (h : (listTokens r text).status = .badProgram) :
    Rejected (Session.fresh.prepareWithin maxLevels r text).1 := by
  refine (prepared_cases r text).resolve_right fun hcases => ?_
  have hscan : (Scan.ofText text).issues = #[] := by
    rcases hcases with ⟨-, hdeep⟩ | ⟨program, s, r', hp, hdeep⟩
    · exact hdeep.1
    · exact (Session.ready_of_prepare ((Session.prepareWithin_eq hdeep).symm.trans hp)).scanned
  have hclean : (r.attach text).enterAll (Scan.ofText text).issues.toList =
      .ok (r.attach text) := by
    rw [hscan]
    rfl
  have hsick : (r.attach text).sick = false := hr
  unfold listTokens at h
  dsimp only at h
  rw [hclean] at h
  dsimp only at h
  rw [hsick] at h
  cases h

/-- What is told does not matter for what is seen of a text that is run or checked. -/
theorem seen_runText_agrees (h : r.Agrees r') :
    (runText host r' text onlyCheck).seen = (runText host r text onlyCheck).seen := by
  obtain ⟨hprepared, hsession⟩ := Session.prepareWithin_agrees maxLevels Session.fresh h text
  rcases prepared_cases r text with hp | ⟨hp, -⟩ | ⟨program, s, r₁, hp, -⟩
  · rw [seen_runText_rejected hp, seen_runText_rejected (hprepared ▸ hp)]
  · rw [seen_runText_tooDeep hp, seen_runText_tooDeep (hprepared.trans hp)]
  · rcases hp' : Session.fresh.prepareWithin maxLevels r' text with ⟨p', s', r₁'⟩
    rw [hp, hp'] at hprepared hsession
    cases hprepared
    cases hsession
    cases onlyCheck with
    | true => rw [seen_runText_check hp, seen_runText_check hp']
    | false =>
      rw [seen_runText_plain hp, seen_runText_plain hp']
      rfl

/-- What is told does not matter for what is seen of the tokens of a text. -/
theorem seen_listTokens_agrees (h : r.Agrees r') :
    (listTokens r' text).seen = (listTokens r text).seen := by
  unfold listTokens
  dsimp only
  rcases (h.attach text).enterAll (Scan.ofText text).issues.toList with
    ⟨a, a', ha, ha', haa⟩ | ⟨a, a', ha, ha', haa⟩
  · rw [ha, ha']
    unfold Result.seen
    dsimp only
    rw [haa.sick]
  · rw [ha, ha']
    rfl

/-! ## Modes -/

/-- The text of a file. -/
def textOf (raw : String) : String := String.ofList (Text.unifyBreaks raw.toList)

variable {q : Request} {l : Location} {bytes : ByteArray} {raw : String}

/-- What is seen of a file that is text does not depend on what is told. -/
theorem seen_runFile (hraw : String.fromUTF8? bytes = some raw) :
    (runFile host q l (.bytes bytes)).seen =
      if q.tokens then (listTokens (.fresh q.maxIssues.toNat false) (textOf raw)).seen
      else (runText host (.fresh q.maxIssues.toNat false) (textOf raw) q.check).seen := by
  have hfresh : (Report.fresh q.maxIssues.toNat false).Agrees q.report := ⟨_, _, _, rfl⟩
  have hr := hfresh.trans (Report.agrees_note q.report ("Loading " ++ l.text))
  have heq : runFile host q l (.bytes bytes) =
      if q.tokens then listTokens (q.report.note ("Loading " ++ l.text)) (textOf raw)
      else runText host (q.report.note ("Loading " ++ l.text)) (textOf raw) q.check := by
    unfold runFile
    dsimp only
    rw [hraw]
    rfl
  rw [heq, apply_ite Result.seen, seen_listTokens_agrees hr, seen_runText_agrees hr]

/-- A text without carriage returns has its line breaks already. -/
theorem unifyBreaks_of_not_mem {cs : List Char} (h : '\r' ∉ cs) : Text.unifyBreaks cs = cs := by
  induction cs with
  | nil => rfl
  | cons c cs ih =>
    have hc : c ≠ '\r' := fun heq => h (heq ▸ List.mem_cons_self)
    have hcs := ih fun hmem => h (List.mem_cons_of_mem c hmem)
    rw [Text.unifyBreaks, if_neg hc, hcs]
    exact fun _ heq => absurd heq hc

/-- A character of joined lines is one of a line, or a line break. -/
theorem not_mem_joined {c : Char} {lines : List String} (hc : c ≠ '\n')
    (hlines : ∀ line ∈ lines, c ∉ line.toList) : c ∉ ("\n".intercalate lines).toList := by
  induction lines with
  | nil => simp
  | cons line rest ih =>
    obtain ⟨hline, hrest⟩ := List.forall_mem_cons.1 hlines
    cases rest with
    | nil => simpa using hline
    | cons line' rest =>
      have hmore := ih hrest
      rw [String.intercalate_cons_of_ne_nil (List.cons_ne_nil _ _), String.toList_append,
        String.toList_append, List.mem_append, List.mem_append, not_or, not_or]
      exact ⟨⟨hline, by simpa using hc⟩, hmore⟩

theorem textOf_chain (calls : Nat) : textOf (Session.chain calls) = Session.chain calls := by
  have hchain : '\r' ∉ (Session.chain calls).toList := by
    refine not_mem_joined (by decide) fun line hline => ?_
    simp only [Session.chainOf, List.mem_append, List.mem_cons, List.mem_replicate,
      List.not_mem_nil, or_false] at hline
    rcases hline with (rfl | ⟨-, rfl⟩) | rfl <;> decide
  unfold textOf
  rw [unifyBreaks_of_not_mem hchain, String.ofList_toList]

/-- A file is checked with another code if nothing is wrong with it but that there is no room for
its tree. -/
theorem code_runFile_tooDeep {text : String} (hbreaks : textOf text = text)
    (hdeep : Session.fresh.TooDeep maxLevels text)
    (hclean : ∀ e ∈ (Binding.log Session.fresh.globals.keys
      (Session.fresh.reading text).statements).toList, e.isTrouble = false) :
    (runFile host { Request.plain with check := true } l (.bytes text.toUTF8)).status.code = 1 := by
  have hraw : String.fromUTF8? text.toUTF8 = some text := dif_pos text.isValidUTF8
  let q : Request := { Request.plain with check := true }
  have hseen : (runFile host q l (.bytes text.toUTF8)).seen =
      (runText host (.fresh 50 false) (textOf text) true).seen := seen_runFile hraw
  rw [hbreaks, seen_runText_tooDeep (Session.prepareWithin_of_clean hdeep rfl hclean)] at hseen
  rw [(Prod.mk.inj hseen).1]
  rfl

end CommandLine

end Scriptlet

import Scriptlet.Proofs.Binding.Blame
import Scriptlet.Proofs.Eval.Blame
import Scriptlet.Proofs.Grammar.Blame
import Scriptlet.Proofs.Grammar.Tokens
import Scriptlet.Proofs.Session.Entering
import Scriptlet.Proofs.Token.Lines

/-!
# On which lines complaints are

A complaint says on which line the thing ends that it is about, while a picture shows the row of its
offset (`Text.rowAt_lineAt`), where the thing begins.

**Theorem (`Session.complaints_lined`).** The two lines are the same unless the complaint is about a
string with a line break in it: one that the grammar does not allow where it stands, or one that is
never closed. They are the same for all issues with the names of a program, and for all crashes.

A tree has no strings among its tokens, so neither the binding of names nor a run can blame one. A
crash may be in a function of an earlier line of the session; then the two lines are the same in the
text that this line was, whatever text the picture is of.
-/

namespace Scriptlet

open Text (EndsOn lineAt)

/-! ## What issues are about -/

/-- What an issue is about: a token, or what a scan has found that is none. Of the tokens only
strings have line breaks in them. -/
inductive Issue.About (text : String) : Issue → List Char → Prop
  | token {t : Token} {cause : Issue.Cause} : t ∈ (Scan.ofText text).listing →
      ('\n' ∈ t.lexeme.toList → t.kind = .string) → About text (.blame t cause) t.lexeme.toList
  | spot {i : Issue} {stretch : List Char} : i.Spots text stretch → About text i stretch

/-- An issue is about something that ends on its line. -/
def Issue.Ends (text : String) (i : Issue) : Prop :=
  ∃ stretch, i.About text stretch ∧ EndsOn text i.line i.offset stretch

theorem Issue.ends_blame {text : String} {t : Token} (ht : t ∈ (Scan.ofText text).listing)
    (cause : Issue.Cause) : (Issue.blame t cause).Ends text := by
  have hstands := Scan.stands_listing text t ht
  exact ⟨t.lexeme.toList, .token ht hstands.string, hstands.ends⟩

namespace Session

variable {s s' : Session} {r : Report} {text : String} {times : Nat → Float}

/-! ## Issues -/

/-- The names of a text are bound if it is read without issues, and what is blamed for them then are
tokens of the text, but no strings. -/
theorem blamed_of_log {i : Issue} (hread : (s.reading text).issues = #[])
    (hi : .issue i ∈ Binding.log s.globals.keys (s.reading text).statements) :
    ∃ t ∈ (Scan.ofText text).tokens, t.kind ≠ .string ∧ ∃ cause, i = .blame t cause := by
  obtain ⟨t, ht, hblame⟩ := Binding.blamed_of_log hi
  obtain ⟨ht, hkind⟩ := (reading_sound hread).mem_tokens t ht
  exact ⟨t, Array.mem_toList_iff.1 ht, hkind, hblame⟩

/-- Whatever is found to be wrong with a text ends on the line that is told. -/
theorem Finds.ends {i : Issue} (h : s.Finds text i) : i.Ends text := by
  cases h with
  | scan hi =>
    obtain ⟨stretch, hspots, hends⟩ := Scan.spots_issues text i hi
    exact ⟨stretch, .spot hspots, hends⟩
  | parse hi =>
    obtain ⟨t, cause, ht, rfl⟩ := Grammar.Program.read_blames _ _ _ _ i hi
    exact Issue.ends_blame (Array.mem_push.2 (ht.imp_left Array.mem_toList_iff.1)) cause
  | bind _ hread hi =>
    obtain ⟨t, ht, -, cause, rfl⟩ := blamed_of_log hread hi
    exact Issue.ends_blame (Array.mem_push.2 (.inl ht)) cause

/-- What is wrong with names is told on the line of its offset. -/
theorem Finds.line_eq {i : Issue} (h : s.Finds text i) (hscan : (Scan.ofText text).issues = #[])
    (hread : (s.reading text).issues = #[]) : i.line = lineAt text i.offset := by
  cases h with
  | scan hi => exact absurd (hscan ▸ hi) (Array.not_mem_empty i)
  | parse hi => exact absurd (hread ▸ hi) (Array.not_mem_empty i)
  | bind _ _ hi =>
    obtain ⟨t, ht, hkind, cause, rfl⟩ := blamed_of_log hread hi
    exact Scan.line_eq_of_mem ht hkind

/-! ## Crashes -/

/-- A token of one of these texts that is no string. -/
def Told (lines : List String) (t : Token) : Prop :=
  ∃ text ∈ lines, t ∈ (Scan.ofText text).tokens ∧ t.kind ≠ .string

theorem Told.line_eq {lines : List String} {t : Token} (h : Told lines t) :
    ∃ text ∈ lines, t ∈ (Scan.ofText text).tokens ∧ t.line = lineAt text t.offset := by
  obtain ⟨text, htext, ht, hkind⟩ := h
  exact ⟨text, htext, ht, Scan.line_eq_of_mem ht hkind⟩

theorem Told.more {lines : List String} {t : Token} (h : Told lines t) (text : String) :
    Told (lines ++ [text]) t := by
  obtain ⟨text', htext, ht⟩ := h
  exact ⟨text', List.mem_append_left _ htext, ht⟩

/-- A program that was accepted has the tokens of its text. -/
theorem Ready.told {program : List Stmt} (h : Ready s text program s') (lines : List String) :
    ∀ t ∈ Tokens.stmts program, Told (lines ++ [text]) t := by
  intro t ht
  obtain ⟨ht, hkind⟩ := h.derives.mem_tokens t ht
  exact ⟨text, List.mem_append_right _ (List.mem_singleton_self _), Array.mem_toList_iff.1 ht,
    hkind⟩

/-- A program that is accepted crashes at a token of its text, or of the texts that the functions on
the heap are from. -/
theorem run_told {r' : Report} {program : List Stmt} {lines : List String}
    (hp : s.prepare r text = (.ready program, s', r'))
    (hheap : (Limits.keeping (Told lines)).heap s.machine.heap) (fuel room : Nat) :
    (Limits.keeping (Told (lines ++ [text]))).heap
        (s'.machine.run (.following s'.depths (Host.telling times)) fuel room program).2.heap ∧
      ∀ c, (s'.machine.run (.following s'.depths (Host.telling times)) fuel room program).1 =
        .stopped (.crash c) → Told (lines ++ [text]) c.token := by
  have hready := ready_of_prepare hp
  refine Machine.run_blames ⟨fun hv => ?_, fun _ _ _ => trivial⟩ ?_ (hready.told lines) fuel room
  · obtain ⟨x, rfl⟩ := Setting.answer_telling hv
    exact trivial
  · rw [hready.machine]
    exact Limits.keeping_heap_mono (fun _ ht => ht.more text) hheap

/-- **The functions of a session** have the tokens of its lines. -/
theorem told_afterLines (lines : List String) : (Limits.keeping (Told lines)).heap
    (afterLines (Host.telling times) r lines).1.machine.heap := by
  induction lines using List.reverseRecOn with
  | nil => exact heap_fresh trivial
  | append_singleton lines line ih =>
    rw [afterLines_append]
    rcases hp : (afterLines (Host.telling times) r lines).1.prepare
      (afterLines (Host.telling times) r lines).2.reset line with ⟨p, s', r'⟩
    rw [runLine_of_prepare hp]
    cases p with
    | ready program => exact (run_told hp ih enoughFuel maxCalls).1
    | trouble _ | halted _ =>
      show (Limits.keeping _).heap s'.machine.heap
      rw [prepare_machine hp]
      exact Limits.keeping_heap_mono (fun _ ht => ht.more line) ih

/-! ## Complaints -/

/-- What the report on a line has: the issues that its preparation finds, and the crash of its run
if it is accepted. -/
theorem runLine_report (host : Host) (s : Session) (r : Report) (text : String) :
    (∀ i ∈ (s.runLine host r text).2.2.issues, s.Finds text i) ∧
      ∀ c ∈ (s.runLine host r text).2.2.crash, ∃ program s' r',
        s.prepare r.reset text = (.ready program, s', r') ∧
          (s'.machine.run (.following s'.depths host) enoughFuel maxCalls program).1 =
            .stopped (.crash c) := by
  have henters := s.prepare_enters r.reset text
  rcases hp : s.prepare r.reset text with ⟨p, s', r'⟩
  rw [hp] at henters
  have hissues : ∀ i ∈ r'.issues, s.Finds text i := fun i hi =>
    (henters.issues i hi).resolve_left (Array.not_mem_empty i)
  have hcrash : ∀ c, c ∉ r'.crash := by
    rw [henters.crash]
    exact fun _ => nofun
  unfold runLine runText carryOut
  rw [hp]
  cases p with
  | trouble _ | halted _ => exact ⟨hissues, fun c hc => absurd hc (hcrash c)⟩
  | ready program =>
    unfold interpret
    rcases hrun : s'.machine.run (.following s'.depths host) enoughFuel maxCalls program
      with ⟨ending, m⟩
    dsimp only
    rw [hrun]
    cases ending with
    | finished => exact ⟨hissues, fun c hc => absurd hc (hcrash c)⟩
    | stopped stop =>
      cases stop with
      | crash c =>
        refine ⟨hissues, fun c' hc => ⟨program, s', r', rfl, ?_⟩⟩
        obtain rfl := Option.some.inj hc
        rw [hrun]
      | fault _ | outOfFuel => exact ⟨hissues, fun c hc => absurd hc (hcrash c)⟩

/-- **Where the line that is told is the line that is shown.** Whatever lines a session has run, and
whatever is given to it next: each issue is about something in this text and on the line where that
ends. This is the line of its offset just if no line break is in it, so it may be another one only
for strings, closed or not. Issues with names are on the lines of their offsets. A crash is blamed
on a token of this text or of one before, and in that text it is on the line of its offset. -/
theorem complaints_lined (times : Nat → Float) (r : Report) (lines : List String) (text : String) :
    let before := afterLines (Host.telling times) r lines
    let after := (before.1.runLine (Host.telling times) before.2 text).2.2
    (∀ i ∈ after.issues, ∃ stretch, i.About text stretch ∧
        EndsOn text i.line i.offset stretch ∧ (i.line = lineAt text i.offset ↔ '\n' ∉ stretch)) ∧
      ((Scan.ofText text).issues = #[] → (before.1.reading text).issues = #[] →
        ∀ i ∈ after.issues, i.line = lineAt text i.offset) ∧
      ∀ c ∈ after.crash, ∃ text' ∈ lines ++ [text], c.token ∈ (Scan.ofText text').tokens ∧
        c.token.line = lineAt text' c.token.offset := by
  intro before after
  obtain ⟨hissues, hcrash⟩ := before.1.runLine_report (Host.telling times) before.2 text
  refine ⟨fun i hi => ?_, fun hscan hread i hi => (hissues i hi).line_eq hscan hread,
    fun c hc => ?_⟩
  · obtain ⟨stretch, habout, hends⟩ := (hissues i hi).ends
    exact ⟨stretch, habout, hends, hends.line_eq_iff⟩
  · obtain ⟨program, s', r', hp, hrun⟩ := hcrash c hc
    exact ((run_told hp (told_afterLines lines) enoughFuel maxCalls).2 c hrun).line_eq

/-- The second declaration of a name is on its line although a string is over two lines before it;
and a function of the line before crashes on the second row of that line. -/
theorem complaints_lined_redeclared :
    ((Scan.ofText "\x7b var a = \"\n\"; var a; \x7d").issues = #[] ∧
      (fresh.reading "\x7b var a = \"\n\"; var a; \x7d").issues = #[] ∧
      (fresh.runLine (Host.telling fun _ => 0) (.fresh 10 false)
        "\x7b var a = \"\n\"; var a; \x7d").2.2.sick = true ∧
      ∀ i ∈ (fresh.runLine (Host.telling fun _ => 0) (.fresh 10 false)
        "\x7b var a = \"\n\"; var a; \x7d").2.2.issues,
        i.line = lineAt "\x7b var a = \"\n\"; var a; \x7d" i.offset) ∧
    (afterLines (Host.telling fun _ => 0) (.fresh 10 false)
        ["fun f() \x7b\nreturn -nil; \x7d", "f();"]).2.crashed = true ∧
      ∀ c ∈ (afterLines (Host.telling fun _ => 0) (.fresh 10 false)
          ["fun f() \x7b\nreturn -nil; \x7d", "f();"]).2.crash,
        ∃ text' ∈ ["fun f() \x7b\nreturn -nil; \x7d", "f();"],
          c.token ∈ (Scan.ofText text').tokens ∧ c.token.line = lineAt text' c.token.offset := by
  have hscan : (Scan.ofText "\x7b var a = \"\n\"; var a; \x7d").issues = #[] := by
    decide +kernel
  have hread : (fresh.reading "\x7b var a = \"\n\"; var a; \x7d").issues = #[] := by
    decide +kernel
  refine ⟨⟨hscan, hread, by decide +kernel, ?_⟩, by decide +kernel, ?_⟩
  · exact (complaints_lined (fun _ => 0) (.fresh 10 false) [] _).2.1 hscan hread
  · exact (complaints_lined (fun _ => 0) (.fresh 10 false)
      ["fun f() \x7b\nreturn -nil; \x7d"] "f();").2.2

/-- A string over two lines that the grammar does not allow where it stands is told on the second of
them, and shown on the first. -/
theorem complaint_misses_line :
    ∃ i ∈ (fresh.runLine (Host.telling fun _ => 0) (.fresh 10 false)
        "print 1 \"a\nb\";").2.2.issues,
      i.line ≠ lineAt "print 1 \"a\nb\";" i.offset := by
  decide +kernel

end Session

end Scriptlet

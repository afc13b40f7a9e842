import Scriptlet.Proofs.Binding.Begun
import Scriptlet.Proofs.Binding.Mistakes
import Scriptlet.Proofs.Binding.Standing
import Scriptlet.Proofs.Grammar.Numbering
import Scriptlet.Proofs.Session.Limit

/-!
# What a session puts on record

**Each reference is recorded once, with the depth of its place** (`Session.references_recorded`).
The binding of names logs a tree's references in the order of their places, and without a limit all
of them are taken. They have different serials, so none of them takes the place of another, and what
is on record of each is what was found out about it.

**The journal of a session** (`Session.journal`) lists what its lines have put on record, line by
line. The serials of a line lie between those that were given out before it and those that are given
out behind it, whatever becomes of the line. So an entry is never touched again.
-/

namespace Scriptlet

open Binding (Event Reference)

/-! ## The references of a tree -/

/-- What is read has the shape of a tree of the grammar, whether the tokens fit it or not. -/
theorem Grammar.Program.shape_read (depth k : Nat) (tokens : List Token) (stop : Token) :
    Shape.stmts (read depth k tokens stop).statements :=
  (GrownStmt.all (read_grown (P := fun _ => True) (fun _ => trivial) trivial depth k stop
    fun _ _ _ => trivial)).2.1

/-- **The log of a program has the references of its places**, in their order and with their
depths. -/
theorem Binding.log_places (known : List String) {program : List Stmt}
    (h : Shape.stmts program) : (log known program).toList.filterMap Event.reference? =
      (Places.stmts [] program).map Place.reference :=
  (log_walked known h).1.trans (Places.stmts_sites [] (.globals (.knowing known)) program)

/-- Without a limit all of a log is taken: its references, and its issues. -/
theorem Intake.take_all {i : Intake} (hi : i.report.limit = 0) {es : List Event}
    (hes : .unbalanced ∉ es) : (i.take es).halt = i.halt ∧
      (i.take es).references.toList = i.references.toList ++ es.filterMap Event.reference? ∧
      (i.take es).report.issues.toList =
        i.report.issues.toList ++ es.filterMap Event.issue? := by
  induction es generalizing i with
  | nil => exact ⟨rfl, (List.append_nil _).symm, (List.append_nil _).symm⟩
  | cons e rest ih =>
    rw [List.mem_cons, not_or] at hes
    cases e with
    | reference r =>
      obtain ⟨hhalt, href, hissues⟩ :=
        ih (i := { i with references := i.references.push r }) hi hes.2
      refine ⟨hhalt, ?_, hissues⟩
      rw [take, href, Array.toList_push, List.append_assoc]
      rfl
    | declaredBefore first =>
      obtain ⟨hhalt, href, hissues⟩ :=
        ih (i := { i with report := i.report.note (Report.firstDeclared first) })
          (by simpa using hi) hes.2
      exact ⟨hhalt, href, by rwa [Report.issues_note] at hissues⟩
    | unbalanced => exact absurd rfl hes.1
    | issue issue =>
      rw [take_issue_unlimited hi]
      obtain ⟨hhalt, href, hissues⟩ :=
        ih (i := { i with report := i.report.enter issue }) hi hes.2
      refine ⟨hhalt, href, ?_⟩
      rw [hissues, Report.enter, Array.toList_push, List.append_assoc]
      rfl

/-- Without a limit a binding takes all of its log. -/
theorem Report.bind_all {r : Report} (hr : r.limit = 0) (known : List String)
    (program : List Stmt) :
    (r.bind known program).halt = none ∧
      (r.bind known program).references.toList =
        (Binding.log known program).toList.filterMap Event.reference? ∧
      (r.bind known program).report.issues.toList =
        r.issues.toList ++ (Binding.log known program).toList.filterMap Event.issue? := by
  have hbalanced := Binding.unbalanced_not_mem_log known program
  rw [← Array.mem_toList_iff] at hbalanced
  exact Intake.take_all (i := ⟨r, #[], none⟩) hr hbalanced

/-- Without a limit the references of all places are taken. -/
theorem Report.bind_places {r : Report} (hr : r.limit = 0) (known : List String)
    {program : List Stmt} (h : Shape.stmts program) :
    (r.bind known program).halt = none ∧ (r.bind known program).references.toList =
      (Places.stmts [] program).map Place.reference := by
  obtain ⟨hhalt, href, -⟩ := Report.bind_all hr known program
  exact ⟨hhalt, href.trans (Binding.log_places known h)⟩

namespace Session

variable {host : Host}

/-! ## What a text puts on record -/

theorem serial_parsed (s : Session) (lexical : Bool) (program : List Stmt) (r : Report) :
    (s.parsed lexical program r).session.serial = s.serial := by
  unfold parsed bound
  dsimp only
  split
  · rfl
  · split
    · rfl
    · split <;> rfl

/-- What is recorded of a tree are the first of its references. -/
theorem references_parsed (s : Session) (lexical : Bool) {program : List Stmt} (r : Report)
    (h : Shape.stmts program) : (s.parsed lexical program r).references <+:
      (Places.stmts [] program).map Place.reference := by
  unfold parsed
  split
  · exact List.nil_prefix
  · let noted := r.note ("Parsed " ++ toString program.length ++ " statements.")
    obtain ⟨es, hes, href⟩ := Intake.take_references ⟨noted, #[], none⟩
      (Binding.log s.globals.keys program).toList
    rw [references_bound, ← Binding.log_places s.globals.keys h]
    exact href ▸ hes.filterMap _

/-- Nothing is recorded of a text whose tokens are not read. Of another the first of the references
of its tree are recorded. -/
theorem recorded_cases (s : Session) (r : Report) (text : String) :
    s.recorded r text = [] ∨
      (s.prepare r text).2.1.serial = (s.reading text).serial ∧ s.recorded r text <+:
        (Places.stmts [] (s.reading text).statements).map Place.reference := by
  rw [prepare_eq_recording]
  unfold recorded recording
  dsimp only
  cases (r.attach text).enterAll (Scan.ofText text).issues.toList with
  | error _ => exact .inl rfl
  | ok r₁ =>
    unfold scanned
    dsimp only
    cases (r₁.note _).enterAll (s.readProgram (Scan.ofText text)).issues.toList with
    | error _ => exact .inl rfl
    | ok r₂ =>
      refine .inr ⟨serial_parsed .., references_parsed _ _ _ ?_⟩
      exact Grammar.Program.shape_read ..

/-- What is recorded of a text has serials that are given out with it. -/
theorem recorded_between (s : Session) (r : Report) (text : String) :
    Serials.Between s.serial (s.prepare r text).2.1.serial
      ((s.recorded r text).map Reference.serial) := by
  rcases recorded_cases s r text with hnone | ⟨hserial, hprefix⟩
  · rw [hnone]
    exact .nil (prepare_older rfl).1
  · have hread : Serials.Between s.serial (s.reading text).serial
        (Serials.stmts (s.reading text).statements) := Grammar.Program.read_between ..
    -- The serials of the whole tree are different, so those of its first references are.
    rw [← Places.map_serial_stmts] at hread
    rw [hserial]
    refine hread.sub (List.Sublist.subperm ?_)
    have hserials := hprefix.sublist.map Reference.serial
    rwa [List.map_map] at hserials

theorem depths_runLine (s : Session) (r : Report) (line : String) :
    (s.runLine host r line).2.1.depths = (s.prepare r.reset line).2.1.depths := by
  rcases hp : s.prepare r.reset line with ⟨p, s', r'⟩
  rw [runLine_of_prepare hp]
  cases p <;> rfl

theorem serial_runLine (s : Session) (r : Report) (line : String) :
    (s.runLine host r line).2.1.serial = (s.prepare r.reset line).2.1.serial := by
  rcases hp : s.prepare r.reset line with ⟨p, s', r'⟩
  rw [runLine_of_prepare hp]
  cases p <;> rfl

/-! ## What lines put on record -/

/-- The session and the report behind these lines, from others on. -/
def runLines (host : Host) (s : Session × Report) (lines : List String) : Session × Report :=
  lines.foldl (fun s line => (s.1.runLine host s.2 line).2) s

/-- What these lines put on record, line by line, in a session that has come to some point. -/
def journal (host : Host) : Session × Report → List String → List Reference
  | _, [] => []
  | s, line :: rest =>
    s.1.recorded s.2.reset line ++ journal host (s.1.runLine host s.2 line).2 rest

theorem journal_append (host : Host) (s : Session × Report) (lines more : List String) :
    journal host s (lines ++ more) =
      journal host s lines ++ journal host (runLines host s lines) more := by
  induction lines generalizing s with
  | nil => rfl
  | cons line rest ih =>
    rw [List.cons_append, journal, ih, journal, List.append_assoc]
    rfl

/-- The journal tells all that a session has on record. -/
theorem depths_runLines (host : Host) (s : Session × Report) (lines : List String) :
    (runLines host s lines).1.depths = (journal host s lines).foldl Binding.record s.1.depths := by
  induction lines generalizing s with
  | nil => rfl
  | cons line rest ih =>
    rw [journal, List.foldl_append, ← depths_prepare, ← depths_runLine]
    exact ih _

/-- **The serials of a journal** are different, and are given out with its lines. -/
theorem journal_between (host : Host) (s : Session × Report) (lines : List String) :
    Serials.Between s.1.serial (runLines host s lines).1.serial
      ((journal host s lines).map Reference.serial) := by
  induction lines generalizing s with
  | nil => exact .nil (Nat.le_refl _)
  | cons line rest ih =>
    rw [journal, List.map_append]
    refine (recorded_between s.1 s.2.reset line).append ?_
    rw [← serial_runLine]
    exact ih _

/-- **Entries stay as they are.** What is in the journal of some lines is on record behind them, and
behind all that follow. -/
theorem entries_afterLines (host : Host) (r : Report) (lines more : List String) {ref : Reference}
    (h : ref ∈ journal host (fresh, r) lines) :
    (afterLines host r (lines ++ more)).1.depths[ref.serial]? = some ref.depth := by
  have hall := journal_between host (fresh, r) (lines ++ more)
  show (runLines host (fresh, r) (lines ++ more)).1.depths[ref.serial]? = _
  rw [depths_runLines]
  refine Binding.getElem?_foldl_of_mem _ _ hall.nodup ?_
  rw [journal_append]
  exact List.mem_append_left _ h

/-- **Each reference is recorded once, with the depth of its place.** A tree may have been read of
any tokens: without a limit the references of all its places are recorded, in their order, and no
others. They have different serials, so the depth of each is on record. Every statement leaves the
walk where it stood before, with no other name than the one that it declares. And in a session no
serial is recorded twice, so the entries of its lines stay as they are. -/
theorem references_recorded (depth k : Nat) (tokens : List Token) (stop : Token)
    (known : List String) {r : Report} (hr : r.limit = 0) :
    let program := Grammar.Program.read depth k tokens stop
    let places := Places.stmts [] program.statements
    let intake := r.bind known program.statements
    (intake.halt = none ∧ intake.references.toList = places.map Place.reference ∧
        intake.references.size = places.length ∧ (places.map Place.serial).Nodup ∧
        ∀ depths : Binding.Depths, ∀ place ∈ places,
          (intake.references.foldl Binding.record depths)[place.serial]? = some place.depth) ∧
      (Shape.stmts program.statements ∧ ∀ (st : Stmt) (w : Binding.Walk),
        Binding.Stands w (Binding.stmt st w) ∧
          (Shape.stmt st → (Binding.stmt st w).scopes = w.scopes.behind st)) ∧
      ∀ (host : Host) (r : Report) (lines more : List String),
        ((journal host (fresh, r) lines).map Reference.serial).Nodup ∧
          (afterLines host r lines).1.depths =
            (journal host (fresh, r) lines).foldl Binding.record ∅ ∧
          journal host (fresh, r) lines <+: journal host (fresh, r) (lines ++ more) ∧
          ∀ ref ∈ journal host (fresh, r) lines,
            (afterLines host r (lines ++ more)).1.depths[ref.serial]? = some ref.depth := by
  intro program places intake
  have hshape := Grammar.Program.shape_read depth k tokens stop
  obtain ⟨hhalt, href⟩ := Report.bind_places hr known hshape
  have hnodup : (places.map Place.serial).Nodup :=
    Places.map_serial_stmts program.statements ▸ (Grammar.Program.read_between ..).nodup
  refine ⟨⟨hhalt, href, ?_, hnodup, fun depths place hplace => ?_⟩, ⟨hshape, fun st w =>
    ⟨Binding.stmt_stands st w, fun h => Binding.scopes_stmt h w⟩⟩, fun host r lines more =>
    ⟨(journal_between host (fresh, r) lines).nodup, depths_runLines host (fresh, r) lines, ?_,
      fun ref => entries_afterLines host r lines more⟩⟩
  · rw [← Array.length_toList, href, List.length_map]
  · rw [← Array.foldl_toList, href]
    refine Binding.getElem?_foldl_of_mem (r := place.reference) _ _ ?_ (List.mem_map_of_mem hplace)
    rw [List.map_map]
    exact hnodup
  · rw [journal_append]
    exact List.prefix_append ..

/-- A statement that does not fit the grammar is skipped, and the references of all others are
recorded: those of the parameter and the variable from two blocks further in, the one that is
written behind the value, and none with a depth of a name that no block or function declares. -/
theorem references_recorded_nested :
    let scan := Scan.ofText
      "fun f(a) \x7b var x = 1; print; \x7b \x7b print x + a; \x7d \x7d x = x + y; \x7d print f;"
    let program := Grammar.Program.read Grammar.maxDepth 0 scan.tokens.toList scan.stop
    (Report.fresh 0 false).limit = 0 ∧ program.issues.size = 1 ∧
      ((Report.fresh 0 false).bind [] program.statements).references.toList.map
          (fun r => (r.name.lexeme, r.writes, r.depth)) =
        [("x", false, some 2), ("a", false, some 2), ("x", false, some 0), ("y", false, none),
          ("x", true, some 0), ("f", false, none)] := by
  intro scan program
  have hfound := (references_recorded Grammar.maxDepth 0 scan.tokens.toList scan.stop []
    (r := .fresh 0 false) rfl).1.2.1
  refine ⟨rfl, by decide +kernel, ?_⟩
  rw [hfound]
  decide +kernel

end Session

end Scriptlet

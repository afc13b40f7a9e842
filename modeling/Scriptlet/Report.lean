import Scriptlet.Complaint
import Scriptlet.Text.Quoted
import Scriptlet.Text.Rows

/-!
# Reports

A report collects the complaints about one program and what is told about its handling.

**Giving up.** A report may have a limit. It is full when an entry has just made the number of its
issues equal to the limit, and whoever makes entries then gives up (`enterAll`). The limit only
cuts the sequence of entries short: what is entered does not depend on it (`enterAll_eq_ok`).
A limit of zero is never met.

**Telling.** Notes are told by a verbose report alone; complaints are told on demand, by a verbose
report with a picture of the place, if it knows the text that the place is in. What is told goes
to the transcript line by line.
-/

namespace Scriptlet

/-- The complaints about a program, and what is told of them. -/
structure Report where
  limit : Nat
  verbose : Bool
  issues : Array Issue
  crash : Option Crash
  source : Option String
  transcript : Array String

namespace Report

/-- A report without entries. -/
def fresh (limit : Nat) (verbose : Bool) : Report := ⟨limit, verbose, #[], none, none, #[]⟩

/-- Whether there are issues. -/
def sick (r : Report) : Bool := !r.issues.isEmpty

/-- Whether the program crashed. -/
def crashed (r : Report) : Bool := r.crash.isSome

/-- Whether there is nothing to complain about. -/
def ok (r : Report) : Bool := !r.sick && !r.crashed

/-- The texts of all complaints, the crash last. -/
def messages (r : Report) : Array String :=
  r.issues.map Issue.text ++ (r.crash.map Crash.text).toArray

/-! ## Entries -/

/-- Enters an issue. -/
def enter (r : Report) (i : Issue) : Report := { r with issues := r.issues.push i }

/-- Whether the latest entry has met the limit. -/
def full (r : Report) : Bool := r.issues.size == r.limit

/-- Enters issues in order. The error is the report that an entry has filled; the entries behind
this one are not made. -/
def enterAll (r : Report) : List Issue → Except Report Report
  | [] => .ok r
  | i :: rest => if (r.enter i).full then .error (r.enter i) else (r.enter i).enterAll rest

/-- Enters the crash of a program. -/
def enterCrash (r : Report) (c : Crash) : Report := { r with crash := some c }

/-- Knows the text that the places of complaints are in. -/
def attach (r : Report) (text : String) : Report := { r with source := some text }

/-- Forgets all complaints, but not the text. -/
def reset (r : Report) : Report := { r with issues := #[], crash := none }

/-! ## Telling -/

/-- Tells a line. -/
def tell (r : Report) (line : String) : Report := { r with transcript := r.transcript.push line }

/-- Tells a note, if the report is verbose. -/
def note (r : Report) (line : String) : Report := if r.verbose then r.tell line else r

/-- The picture of a place, if the report is verbose and knows the text. -/
def pictureOf (r : Report) (line offset width : Nat) : List String :=
  match r.verbose, r.source with
  | true, some text => Text.picture text (Text.rowLabel line) offset width
  | _, _ => []

/-- The lines that tell all complaints. -/
def complaints (r : Report) : List String :=
  let ofIssue (i : Issue) := i.text :: r.pictureOf i.line i.offset i.width
  let ofCrash (c : Crash) :=
    c.text :: r.pictureOf c.token.line c.token.offset c.token.lexeme.length
  r.issues.toList.flatMap ofIssue ++ (r.crash.map ofCrash).getD []

/-- Tells all complaints. -/
def complain (r : Report) : Report := r.complaints.foldl tell r

/-- Tells all complaints if there are any, and says whether there were none. -/
def insistClean (r : Report) : Report × Bool := if r.ok then (r, true) else (r.complain, false)

/-- All that has been told. -/
def told (r : Report) : String := r.transcript.foldl (fun text line => text ++ line ++ "\n") ""

/-- The note on an earlier declaration of a name. -/
def firstDeclared (first : Token) : String :=
  "Line " ++ toString first.line ++ " first declares " ++ Text.Quoted.encode first.lexeme ++ "."

/-! ## The limit only truncates -/

/-- If the report does not fill up, all issues are entered. -/
theorem enterAll_eq_ok {r r' : Report} {is : List Issue} (h : r.enterAll is = .ok r') :
    r' = { r with issues := r.issues ++ is.toArray } := by
  induction is generalizing r with
  | nil => simpa [enterAll] using h.symm
  | cons i rest ih =>
    simp only [enterAll] at h
    split at h
    · cases h
    · rw [ih h]
      simp [enter]

/-- If the report fills up, the issues up to that point are entered, as many as the limit says. -/
theorem enterAll_eq_error {r r' : Report} {is : List Issue} (h : r.enterAll is = .error r') :
    r'.issues.size = r.limit ∧
      ∃ n, r' = { r with issues := r.issues ++ (is.take n).toArray } := by
  induction is generalizing r with
  | nil => cases h
  | cons i rest ih =>
    simp only [enterAll] at h
    split at h
    · next hfull =>
      obtain rfl := Except.error.inj h
      exact ⟨beq_iff_eq.1 hfull, 1, by simp [enter]⟩
    · obtain ⟨hsize, n, hr⟩ := ih h
      exact ⟨hsize, n + 1, by simp [hr, enter]⟩

end Report

end Scriptlet

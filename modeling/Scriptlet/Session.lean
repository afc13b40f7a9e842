import Scriptlet.Binding.Steps
import Scriptlet.Eval.Run
import Scriptlet.Grammar.Program
import Scriptlet.Report
import Scriptlet.Token.Scan

/-!
# Sessions

A session runs one text after the other. The variables of one text are there for the next; the
complaints about it are not.

**Preparing.** A text is cut into tokens, read as a program, and its names are bound. Trouble with
the tokens does not keep the grammar from being checked, but names are bound only in a program
without issues, and only a program without issues runs. The first phase with issues gives the
trouble its name. When the report is full, everything ends at once.

**What stays.** Preparing a text that is then rejected changes nothing that a later text could
notice: serials are used up, and depths are kept of references that will never be followed.
-/

namespace Scriptlet

/-- The phases of preparing a program. -/
inductive Phase where
  | scan
  | parse
  | resolve
deriving DecidableEq, Repr

/-- The name of a phase. -/
def Phase.text : Phase → String
  | scan => "scan"
  | parse => "parse"
  | resolve => "resolve"

/-- Answers of native functions, behind so many answers. -/
abbrev Host := Nat → Native → List Value → Option Value

namespace Host

/-- The native function that tells the time. -/
def clock : Native := ⟨"clock", 0⟩

/-- A host with a clock that stands at this time and goes on by one with every answer. -/
def ticking (time : Float) : Host := fun answers n args =>
  if n = clock ∧ args.isEmpty then some (.number (time + Float.ofNat answers)) else none

end Host

/-- What one text of a session leaves to the next. -/
structure Session where
  machine : Machine
  depths : Binding.Depths
  /-- The serial of the next reference. -/
  serial : Nat

/-- A reference goes as many links out as scopes were found to lie between it and its declaration;
one without a depth means a global. -/
def Route.ofDepth : Option Nat → Route
  | none => global
  | some depth => outward depth

/-- The setting in which references follow the depths that were found for them. -/
def Setting.following (depths : Binding.Depths) (host : Host) : Setting :=
  ⟨fun serial => .ofDepth (Binding.depthOf depths serial), host⟩

/-- Fuel for all runs that end in a lifetime. -/
def enoughFuel : Nat := Nat.pow 2 60

/-- How many calls may be nested. This stands for the room on the stack of the process that runs
them, of which every call takes a part, whatever is done in it. Outside of calls no room is
counted. -/
def maxCalls : Nat := 1000

/-! ## Binding with a report -/

/-- Why the preparation of a program ended at once. -/
inductive Halt where
  | tooManyIssues
  /-- The binding left a scope that it had not entered. -/
  | unbalanced
  /-- There was no room for the binding to go further down the tree. -/
  | tooDeep
deriving DecidableEq, Repr

/-- What has been taken from the log of a binding. -/
structure Intake where
  report : Report
  references : Array Binding.Reference
  halt : Option Halt

/-- Takes the entries of a log in order, up to one that ends it all. -/
def Intake.take (i : Intake) : List Binding.Event → Intake
  | [] => i
  | .reference r :: rest => { i with references := i.references.push r }.take rest
  | .declaredBefore first :: rest =>
    { i with report := i.report.note (Report.firstDeclared first) }.take rest
  | .issue issue :: rest =>
    let report := i.report.enter issue
    if report.full then { i with report, halt := some .tooManyIssues }
    else { i with report }.take rest
  | .unbalanced :: _ => { i with halt := some .unbalanced }

/-- Binds the names of a program in which these globals are defined. -/
def Report.bind (r : Report) (known : List String) (program : List Stmt) : Intake :=
  Intake.take ⟨r, #[], none⟩ (Binding.log known program).toList

/-- Binds the names of a program as far as there is room: up to the first place that is not on one
of so many levels. -/
def Report.bindWithin (levels : Nat) (r : Report) (known : List String) (program : List Stmt) :
    Intake :=
  let steps := Binding.steps program
  let near := steps.takeWhile (·.level ≤ levels)
  let i := Intake.take ⟨r, #[], none⟩ (Binding.logOf known near).toList
  if i.halt.isNone ∧ near.length < steps.length then { i with halt := some .tooDeep } else i

/-! ## Preparing -/

/-- What has become of a text. -/
inductive Prepared where
  | ready (program : List Stmt)
  | trouble (phase : Phase)
  | halted (halt : Halt)

namespace Session

/-- A session in which only these native functions are defined. -/
def providing (natives : List Native) : Session where
  machine :=
    let heap := (Heap.empty : Heap Value).add none
    { heap := natives.foldl (fun h n => h.define Heap.root n.name (.native n)) heap
      here := Heap.root
      printed := #[]
      closures := 0
      answers := 0 }
  depths := ∅
  serial := 0

/-- A session in which nothing has been run. -/
def fresh : Session := providing [Host.clock]

/-- The global variables, in the order in which they were first defined. -/
def globals (s : Session) : Table Value :=
  match s.machine.heap.frames[Heap.root]? with
  | some frame => frame.bindings
  | none => .empty

/-- Whether the session is outside of all blocks and calls. -/
def atGlobals (s : Session) : Bool := s.machine.here == Heap.root

/-- Reads the tokens of a text. -/
def readProgram (s : Session) (scan : Scan) : Grammar.Program :=
  .read Grammar.maxDepth s.serial scan.tokens.toList scan.stop

/-- Prepares a text to be run. `bind` binds the names of its program. -/
def prepareBy (bind : Report → List String → List Stmt → Intake) (s : Session) (r : Report)
    (text : String) : Prepared × Session × Report :=
  let scan := Scan.ofText text
  match (r.attach text).enterAll scan.issues.toList with
  | .error r => (.halted .tooManyIssues, s, r)
  | .ok r =>
    let lexical := r.sick
    let r := r.note ("Scanned " ++ toString scan.listing.size ++ " tokens.")
    let program := s.readProgram scan
    let s := { s with serial := program.serial }
    match r.enterAll program.issues.toList with
    | .error r => (.halted .tooManyIssues, s, r)
    | .ok r =>
      if r.sick then (.trouble (if lexical then .scan else .parse), s, r)
      else
        let r := r.note ("Parsed " ++ toString program.statements.length ++ " statements.")
        let intake := bind r s.globals.keys program.statements
        let r := intake.report
        let s := { s with depths := intake.references.foldl Binding.record s.depths }
        match intake.halt with
        | some halt => (.halted halt, s, r)
        | none =>
          if r.sick then (.trouble .resolve, s, r)
          else
            let count := toString intake.references.size
            (.ready program.statements, s, r.note ("Resolved " ++ count ++ " references."))

/-- Prepares a text to be run. -/
def prepare (s : Session) (r : Report) (text : String) : Prepared × Session × Report :=
  prepareBy Report.bind s r text

/-- Prepares a text to be run where there is room for so many levels of a tree. -/
def prepareWithin (levels : Nat) (s : Session) (r : Report) (text : String) :
    Prepared × Session × Report := prepareBy (Report.bindWithin levels) s r text

/-! ## Running -/

/-- Runs a program, whether it has been prepared or not. A crash is entered in the report. -/
def interpret (host : Host) (s : Session) (r : Report) (program : List Stmt) :
    Ending × Session × Report :=
  let (ending, machine) := s.machine.run (.following s.depths host) enoughFuel maxCalls program
  let r :=
    match ending with
    | .stopped (.crash c) => r.enterCrash c
    | _ => r
  (ending, { s with machine }, r)

/-- What has become of a text that was to be run. -/
inductive Outcome where
  | ran (ending : Ending)
  | rejected (phase : Phase)
  | halted (halt : Halt)

/-- Whether a text has run to its end. -/
def Outcome.finished : Outcome → Bool
  | ran .finished => true
  | _ => false

/-- Runs a text that has been prepared, if it is ready. -/
def carryOut (host : Host) : Prepared × Session × Report → Outcome × Session × Report
  | (.ready program, s, r) =>
    let (ending, s, r) := s.interpret host r program
    (.ran ending, s, r)
  | (.trouble phase, s, r) => (.rejected phase, s, r)
  | (.halted halt, s, r) => (.halted halt, s, r)

/-- Prepares and runs a text. -/
def runText (host : Host) (s : Session) (r : Report) (text : String) :
    Outcome × Session × Report := carryOut host (s.prepare r text)

/-- Runs the next text of a session, without the complaints about the last. -/
def runLine (host : Host) (s : Session) (r : Report) (text : String) :
    Outcome × Session × Report :=
  s.runText host r.reset text

/-- Runs a text by itself, and notes what has kept it from running. -/
def runAlone (host : Host) (r : Report) (text : String) : Outcome × Session × Report :=
  match fresh.runText host r text with
  | (.rejected phase, s, r) =>
    (.rejected phase, s, r.note ("Not running: trouble in the " ++ phase.text ++ " phase."))
  | other => other

end Session

end Scriptlet

import Scriptlet.CommandLine.Arguments
import Scriptlet.CommandLine.Location
import Scriptlet.Session

/-!
# The command

The command runs a program from a file, or checks it, or lists its tokens. Without a program it
answers line by line at a prompt. What it writes and how it ends are told apart by a `Result`, so
nothing here reads or writes anything itself.

**How it ends.** A program with issues is bad whether it was to be run or only checked; a listing of
tokens is bad if there were issues with the tokens. When the report is full, the command complains
and gives up. The prompt ends well with the input, or with a blank line.

**Room.** The names of a program are bound by going down its tree, and the command has room for
`maxLevels` levels. The grammar does not keep trees within them: operators in a row are read one
by one, and each makes the tree one level deeper. Where the room ends, so does the command, without
a complaint. A tree that has been bound is run whatever its levels: there, calls alone take room.
-/

namespace Scriptlet.CommandLine

/-- How the command ends. -/
inductive Status where
  | ok
  | usage
  /-- The program has issues. -/
  | badProgram
  | unreadable
  | crashed
  /-- The file is not text. -/
  | undecodable
  /-- There was no room for the tree of the program. -/
  | exhausted
  /-- The program was not prepared as it should be. -/
  | broken
deriving DecidableEq, Repr

/-- The exit code for an ending. -/
def Status.code : Status → Nat
  | ok => 0
  | usage => 64
  | badProgram => 65
  | unreadable => 66
  | crashed => 70
  | undecodable | exhausted | broken => 1

/-- How the command ends, and what it has written to the output and to the console. -/
structure Result where
  status : Status
  out : String
  err : String
deriving DecidableEq, Repr

/-- For how many levels of a tree the command has room. This stands for the stack that its process
has been given, of which every level takes a part. -/
def maxLevels : Nat := 5000

/-- Lines as text. -/
def unlines (lines : List String) : String :=
  lines.foldl (fun text line => text ++ line ++ "\n") ""

/-- What a session has printed behind so many lines. -/
def printedSince (s : Session) (count : Nat) : String :=
  unlines (s.machine.printed.toList.drop count)

/-- The complaints of a full report, and that it is full. -/
def giveUp (r : Report) : Report :=
  r.complain.tell
    ("Giving up after " ++ toString r.limit ++ " issues. One crisis at a time, eh?")

/-- The report that was asked for. -/
def Request.report (q : Request) : Report := .fresh q.maxIssues.toNat q.verbose

/-! ## A program from a file -/

/-- Lists the tokens of a text, and complains. -/
def listTokens (r : Report) (text : String) : Result :=
  let scan := Scan.ofText text
  match (r.attach text).enterAll scan.issues.toList with
  | .error r => ⟨.badProgram, "", (giveUp r).told⟩
  | .ok r =>
    ⟨if r.sick then .badProgram else .ok, unlines (scan.listing.toList.map Token.listed),
      r.complain.told⟩

/-- Runs a text. -/
def runText (host : Host) (r : Report) (text : String) (onlyCheck : Bool) : Result :=
  match Session.fresh.prepareWithin maxLevels r text with
  | (.halted .tooManyIssues, _, r) => ⟨.badProgram, "", (giveUp r).told⟩
  | (.halted .unbalanced, _, r) => ⟨.broken, "", r.told⟩
  | (.halted .tooDeep, _, r) => ⟨.exhausted, "", r.told⟩
  | (.trouble _, _, r) => ⟨.badProgram, "", r.complain.told⟩
  | (.ready program, s, r) =>
    if onlyCheck then ⟨.ok, "", (r.tell "Looks plausible to me.").told⟩
    else
      match s.interpret host r program with
      | (.finished, s, r) => ⟨.ok, printedSince s 0, r.told⟩
      | (.stopped (.crash _), s, r) => ⟨.crashed, printedSince s 0, r.complain.told⟩
      | (.stopped _, s, r) => ⟨.broken, printedSince s 0, r.told⟩

/-- Does what is asked for with what was found at a location. -/
def runFile (host : Host) (q : Request) (l : Location) (found : Found) : Result :=
  let r := q.report.note ("Loading " ++ l.text)
  match found with
  | .unreadable reason =>
    ⟨.unreadable, "", (r.tell ("Could not read " ++ l.text ++ ": " ++ reason)).told⟩
  | .bytes bytes =>
    match String.fromUTF8? bytes with
    | none => ⟨.undecodable, "", r.told⟩
    | some text =>
      let text := String.ofList (Text.unifyBreaks text.toList)
      if q.tokens then listTokens r text else runText host r text q.check

/-! ## The prompt -/

/-- What is shown before each line. -/
def promptText : String := "> "

/-- A conversation at the prompt. -/
structure Talk where
  session : Session
  report : Report

/-- The beginning of a conversation. -/
def Talk.start (q : Request) : Talk := ⟨.fresh, q.report⟩

/-- What comes of a line: what is written, and how the conversation goes on or ends. -/
structure Reply where
  out : String
  err : String
  next : Except Status Talk

/-- Answers a line. -/
def Talk.answer (host : Host) (t : Talk) (line : String) : Reply :=
  if line.toList.all Text.isBlank then ⟨"", "", .error .ok⟩
  else
    let before := t.session.machine.printed.size
    match Session.carryOut host (t.session.prepareWithin maxLevels t.report.reset line) with
    | (.halted .tooManyIssues, _, r) => ⟨"", (giveUp r).told, .error .badProgram⟩
    | (.halted .unbalanced, _, r) => ⟨"", r.told, .error .broken⟩
    | (.halted .tooDeep, _, r) => ⟨"", r.told, .error .exhausted⟩
    | (_, s, r) =>
      let out := printedSince s before
      ⟨out, r.complain.told, .ok ⟨s, { r with transcript := #[] }⟩⟩

/-- Answers lines until the conversation ends, at the latest with the input. -/
def Talk.run (host : Host) : List String → Talk → Result
  | [], _ => ⟨.ok, promptText ++ "\n", ""⟩
  | line :: rest, t =>
    let reply := t.answer host line
    let out := promptText ++ reply.out
    match reply.next with
    | .error status => ⟨status, out, reply.err⟩
    | .ok t =>
      let result := Talk.run host rest t
      ⟨result.status, out ++ result.out, reply.err ++ result.err⟩

/-- The lines of an input. What stands behind the last line break is a line if it is not empty. -/
def inputLines (input : String) : List String :=
  let lines := input.splitOn "\n"
  if lines.getLast? == some "" then lines.dropLast else lines

/-! ## All of it -/

/-- What is written when the command was misused. -/
def misused (m : Misuse) : Result := ⟨.usage, "", usage ++ "loxwalk: error: " ++ m.message ++ "\n"⟩

/-- Runs the command with its arguments, a way to read files, and an input. -/
def run (host : Host) (read : Location → Found) (input : String) (args : List String) : Result :=
  match wish args with
  | .error m => misused m
  | .ok .help => ⟨.ok, help, ""⟩
  | .ok (.run q) =>
    match q.program with
    | some program => let l := .ofText program; runFile host q l (read l)
    | none => (Talk.start q).run host (inputLines input)

end Scriptlet.CommandLine

import Scriptlet.Decimal.Reading
import Scriptlet.Text.Blank
import Scriptlet.Text.Quoted

/-!
# The arguments of the command

    [-h] [-c] [-t] [-v] [--max-issues MAX_ISSUES] [program]

**Spelling.** Options may stand anywhere before a separator `--`. Short ones may be put together
behind one dash. Long ones may be cut short as long as no other begins the same, and take a value
behind an equals sign or as the next argument. What begins with a dash and is no option may still
be meant as the program: a lone dash, a negative number, and what has a space in it. Anything else
is not recognised.

**Order.** First every argument is told apart by itself, and an option that could be two ends it
there. Then the arguments take effect from left to right, and the first that cannot ends it, or
the first that asks for help. Only at the very end it is an error that something was left over.
-/

namespace Scriptlet.CommandLine

/-- The options. -/
inductive Flag where
  | help
  | check
  | tokens
  | verbose
  | maxIssues
deriving DecidableEq, Repr

namespace Flag

/-- All options. -/
def all : List Flag := [help, check, tokens, verbose, maxIssues]

/-- The letter of an option. -/
def letter? : Flag → Option Char
  | help => some 'h'
  | check => some 'c'
  | tokens => some 't'
  | verbose => some 'v'
  | maxIssues => none

/-- The long name of an option. -/
def name : Flag → String
  | help => "--help"
  | check => "--check"
  | tokens => "--tokens"
  | verbose => "--verbose"
  | maxIssues => "--max-issues"

/-- How an option is called in messages. -/
def label (f : Flag) : String :=
  match f.letter? with
  | some c => String.ofList ['-', c, '/'] ++ f.name
  | none => f.name

/-- The option with this letter. -/
def ofLetter? (c : Char) : Option Flag := all.find? fun f => f.letter? == some c

/-- The option with exactly this spelling, and whether it is the short one. -/
def ofSpelling? (arg : List Char) : Option (Flag × Bool) :=
  match arg with
  | ['-', c] => (ofLetter? c).map (·, true)
  | _ => (all.find? fun f => f.name.toList == arg).map (·, false)

end Flag

/-- How the command was misused. -/
inductive Misuse where
  | unrecognized (args : List String)
  | ambiguous (arg : String) (flags : List Flag)
  | missingValue (f : Flag)
  | notANumber (f : Flag) (value : String)
  /-- A value for an option that takes none. -/
  | strayValue (f : Flag) (value : String)
deriving DecidableEq, Repr

/-- The wording of a misuse. -/
def Misuse.message : Misuse → String
  | unrecognized args => "unrecognized arguments: " ++ " ".intercalate args
  | ambiguous arg flags =>
    "ambiguous option: " ++ arg ++ " could match " ++ ", ".intercalate (flags.map Flag.name)
  | missingValue f => "argument " ++ f.label ++ ": expected one argument"
  | notANumber f value =>
    "argument " ++ f.label ++ ": invalid int value: " ++ Text.Quoted.encode value
  | strayValue f value =>
    "argument " ++ f.label ++ ": ignored explicit argument " ++ Text.Quoted.encode value

/-- What the command is asked to do. A limit that is not positive is none. -/
structure Request where
  program : Option String
  check : Bool
  tokens : Bool
  verbose : Bool
  maxIssues : Int
deriving DecidableEq, Repr

/-- What is asked for without arguments. -/
def Request.plain : Request := ⟨none, false, false, false, 50⟩

/-! ## Telling arguments apart -/

/-- What an argument is by itself. -/
inductive Class where
  /-- Neither an option nor the separator. -/
  | plain
  | separator
  /-- An option, in its short spelling or not, with what is put to it. -/
  | flag (f : Flag) (short : Bool) (value : Option (List Char))
  /-- Looks like an option but is none. -/
  | unknown
deriving DecidableEq, Repr

/-- Whether an argument is a negative number, whole or with a point; a line break may follow. -/
def isNegativeNumber (arg : List Char) : Bool :=
  match arg with
  | '-' :: rest =>
    let rest := if rest.getLast? == some '\n' then rest.dropLast else rest
    match rest.dropWhile Text.isDigit with
    | [] => !rest.isEmpty
    | '.' :: places => !places.isEmpty && places.all Text.isDigit
    | _ => false
  | _ => false

/-- What is before and behind the first equals sign. -/
def splitAtEquals (arg : List Char) : List Char × Option (List Char) :=
  match arg.dropWhile (· ≠ '=') with
  | _ :: value => (arg.takeWhile (· ≠ '='), some value)
  | [] => (arg, none)

/-- An argument that begins with a dash but is no option. -/
def classifyOther (arg : List Char) : Class :=
  if isNegativeNumber arg || arg.contains ' ' then .plain else .unknown

/-- Tells an argument apart that stands before the separator and is not the separator. -/
def classify (arg : List Char) : Except Misuse Class :=
  match arg with
  | '-' :: rest =>
    let (name, value) := splitAtEquals arg
    match Flag.ofSpelling? arg, Flag.ofSpelling? name, rest with
    | some (f, short), _, _ => .ok (.flag f short none)
    | none, _, [] => .ok .plain
    | none, some (f, short), _ => .ok (.flag f short value)
    | none, none, '-' :: _ =>
      match Flag.all.filter fun f => name.isPrefixOf f.name.toList with
      | [] => .ok (classifyOther arg)
      | [f] => .ok (.flag f false value)
      | several => .error (.ambiguous (String.ofList arg) several)
    | none, none, c :: tail =>
      match Flag.ofLetter? c with
      | some f => .ok (.flag f true (some tail))
      | none => .ok (classifyOther arg)
  | _ => .ok .plain

/-- An argument and what it is by itself. -/
abbrev Classified := String × Class

/-- Tells all arguments apart. Behind the separator all are plain. -/
def classifyAll : List String → Except Misuse (List Classified)
  | [] => .ok []
  | arg :: rest =>
    if arg = "--" then .ok ((arg, .separator) :: rest.map (·, .plain))
    else do
      let c ← classify arg.toList
      let cs ← classifyAll rest
      return (arg, c) :: cs

/-! ## Taking effect -/

/-- How many digits a number may have. -/
def maxDigits : Nat := 4300

/-- The whole number that a value stands for, white space around it left out. -/
def integer? (value : List Char) : Option Int :=
  let cs := Text.trim Text.isSpace value
  if maxDigits < (cs.filter Text.isDigit).length then none else Decimal.integer? cs

/-- The options that are put together behind one dash, given the first and what follows its
letter. An equals sign or any other character that is no letter of an option does not belong
there. -/
def cluster (f : Flag) : List Char → Except Misuse (List Flag)
  | [] => .ok [f]
  | c :: rest =>
    match Flag.ofLetter? c with
    | some next => (cluster next rest).map (f :: ·)
    | none => .error (.strayValue f (String.ofList (c :: rest)))

/-- What comes of the arguments: something to do, or help. -/
inductive Wish where
  | run (q : Request)
  | help
deriving DecidableEq, Repr

/-- The effect of an option without a value; nothing if it asks for help. -/
def Request.apply (q : Request) : Flag → Option Request
  | .help => none
  | .check => some { q with check := true }
  | .tokens => some { q with tokens := true }
  | .verbose => some { q with verbose := true }
  | .maxIssues => some q

/-- The effect of several options without values. -/
def Request.applyAll (q : Request) (flags : List Flag) : Option Request :=
  flags.foldlM Request.apply q

/-- The effect of a value for the limit. A separator in this place is no value at all, and then
there is no limit. -/
def Request.limit (q : Request) (value : String) : Except Misuse Request :=
  if value = "--" then .ok { q with maxIssues := 0 }
  else
    match integer? value.toList with
    | some n => .ok { q with maxIssues := n }
    | none => .error (.notANumber .maxIssues value)

/-- The options without values that an argument stands for. -/
def switches (f : Flag) (short : Bool) : Option (List Char) → Except Misuse (List Flag)
  | none => .ok [f]
  | some [] => .error (.strayValue f "")
  | some (c :: value) =>
    if short then cluster f (c :: value) else .error (.strayValue f (String.ofList (c :: value)))

/-- Lets arguments take effect from left to right. `awaiting` says that the program has not been
given yet, and `left` is what was left over, in reverse. A separator goes with the program before or
behind it. -/
def effects : (q : Request) → (awaiting : Bool) → (left : List String) → List Classified →
    Except Misuse Wish
  | q, _, [], [] => .ok (.run q)
  | _, _, left, [] => .error (.unrecognized left.reverse)
  | q, true, left, (arg, .plain) :: (_, .separator) :: rest =>
    effects { q with program := some arg } false left rest
  | q, true, left, (arg, .plain) :: rest => effects { q with program := some arg } false left rest
  | q, true, left, (_, .separator) :: (arg, .plain) :: rest =>
    effects { q with program := some arg } false left rest
  | q, true, left, (_, .separator) :: rest => effects q false left rest
  | q, false, left, (arg, .plain) :: rest => effects q false (arg :: left) rest
  | q, false, left, (arg, .separator) :: rest => effects q false (arg :: left) rest
  | q, awaiting, left, (arg, .unknown) :: rest => effects q awaiting (arg :: left) rest
  | q, awaiting, left, (_, .flag .maxIssues _ (some value)) :: rest =>
    match q.limit (String.ofList value) with
    | .ok q => effects q awaiting left rest
    | .error misuse => .error misuse
  | q, awaiting, left, (_, .flag .maxIssues _ none) :: (value, .plain) :: rest =>
    match q.limit value with
    | .ok q => effects q awaiting left rest
    | .error misuse => .error misuse
  | _, _, _, (_, .flag .maxIssues _ none) :: _ => .error (.missingValue .maxIssues)
  | q, awaiting, left, (_, .flag f short value) :: rest =>
    match switches f short value with
    | .error misuse => .error misuse
    | .ok flags =>
      match q.applyAll flags with
      | some q => effects q awaiting left rest
      | none => .ok .help

/-- What the arguments ask for. -/
def wish (args : List String) : Except Misuse Wish := do
  effects .plain true [] (← classifyAll args)

/-- The first line of the help. -/
def usage : String := "usage: loxwalk [-h] [-c] [-t] [-v] [--max-issues MAX_ISSUES] [program]\n"

/-- The help. -/
def help : String :=
  usage ++
    "\n" ++
    "Tree-walking interpreter for a small scripting language.\n" ++
    "\n" ++
    "positional arguments:\n" ++
    "  program               Script to run. Omit for an interactive prompt.\n" ++
    "\n" ++
    "options:\n" ++
    "  -h, --help            show this help message and exit\n" ++
    "  -c, --check           Scan, parse, and resolve the program, but do not\n" ++
    "                        actually execute it.\n" ++
    "  -t, --tokens          Print the token stream instead of running the program.\n" ++
    "  -v, --verbose         Narrate the phases, and illustrate each complaint with\n" ++
    "                        its source line.\n" ++
    "  --max-issues MAX_ISSUES\n" ++
    "                        Give up after this many complaints. (Default 50.)\n"

end Scriptlet.CommandLine

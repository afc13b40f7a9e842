import Scriptlet.Complaint
import Scriptlet.Tree.Basic

/-!
# Reading tokens one after the other

A `Reader` takes tokens from the front of a list and builds something from them. It enters issues
as it goes; an issue that leaves it at a loss ends it with a `Setback`, and what it has taken and
entered until then stays taken and entered.

The token that marks the end is not in the list. It is never taken, and it is blamed for what is
missing at the end.

Every reader of the grammar is composed of the few in this module.
-/

namespace Scriptlet.Grammar

/-- Why a reader could not go on. -/
inductive Setback where
  /-- The tokens do not fit the grammar; an issue has been entered. -/
  | misfit
  /-- Expressions or statements are nested too deep. -/
  | tooDeep
deriving DecidableEq, Repr

/-- A place in the list of tokens, and what reading up to there has left behind. -/
structure Cursor where
  /-- The tokens that are still to be read. -/
  rest : List Token
  /-- The token that marks the end. -/
  stop : Token
  /-- More than there were tokens at the beginning, so a loop whose every turn takes a token has no
  more turns than this. -/
  turns : Nat
  /-- The serial of the next reference. -/
  serial : Nat
  /-- The issues that were entered. -/
  issues : Array Issue

/-- The token that comes next, be it the one that marks the end. -/
def Cursor.next (c : Cursor) : Token := c.rest.headD c.stop

/-- The front of a list of tokens. The first reference has the given serial. -/
def Cursor.front (serial : Nat) (tokens : List Token) (stop : Token) : Cursor :=
  ⟨tokens, stop, tokens.length + 1, serial, #[]⟩

/-- Builds something from the tokens at a cursor. -/
abbrev Reader (α : Type) := EStateM Setback Cursor α

namespace Reader

/-- The kind of the next token, unless the end is reached. -/
def nextKind? : Reader (Option Kind) := fun c => .ok (c.rest.head?.map Token.kind) c

/-- Whether the next token is of a kind. -/
def sees (k : Kind) : Reader Bool := fun c => .ok (c.rest.head?.any fun t => t.kind == k) c

/-- Takes the next token if its kind fits. -/
def takeIf (fits : Kind → Bool) : Reader (Option Token) := fun c =>
  match c.rest with
  | t :: rest => if fits t.kind then .ok (some t) { c with rest } else .ok none c
  | [] => .ok none c

/-- Takes the next token if it is of a kind. -/
def take? (k : Kind) : Reader (Option Token) := takeIf (· == k)

/-- Takes the next token if it is of a kind, and says whether it was. -/
def takes (k : Kind) : Reader Bool := return (← take? k).isSome

/-- Enters an issue with a token. -/
def complain (t : Token) (cause : Issue.Cause) : Reader Unit := fun c =>
  .ok () { c with issues := c.issues.push (.blame t cause) }

/-- Enters an issue with the next token. -/
def complainHere (cause : Issue.Cause) : Reader Unit := fun c => complain c.next cause c

/-- Enters an issue with the next token, and ends. -/
def misfit {α : Type} (cause : Issue.Cause) : Reader α := do
  complainHere cause
  throw .misfit

/-- Takes the next token, which must be of a kind. -/
def require (k : Kind) (what : String) : Reader Token := do
  match ← take? k with
  | some t => return t
  | none => misfit (.expected what)

/-- A serial that no reference has had. -/
def newSerial : Reader Nat := fun c => .ok c.serial { c with serial := c.serial + 1 }

/-- So many turns suffice for a loop whose every turn takes a token. -/
def turns : Reader Nat := fun c => .ok c.turns c

end Reader

end Scriptlet.Grammar

import Scriptlet.Token.Basic

/-!
# Complaints

Two kinds of trouble are told to the author of a program. An `Issue` is found before the program
runs: by the cutting into tokens, by the grammar, or by the binding of names. A `Crash` stops a
running program. Both name their cause and the place of it; the wording of every cause is in
`Issue.Cause.message` and `Crash.Cause.message`.
-/

namespace Scriptlet

/-- Trouble found before a program runs. -/
inductive Issue.Cause where
  | strayCharacter
  | unterminatedString
  /-- The grammar requires something else here. -/
  | expected (what : String)
  | invalidTarget
  /-- A list of parameters or arguments has more than 255 entries. -/
  | tooMany (what : String)
  | tooDeep
  /-- An initialiser reads the variable that it is to initialise. -/
  | selfReference
  /-- A local scope declares a name twice. -/
  | redeclared
  /-- A `return` outside of all functions. -/
  | strayReturn
  /-- Trouble in the words of another. -/
  | said (text : String)
deriving DecidableEq, Repr

/-- The wording of a cause. -/
def Issue.Cause.message : Issue.Cause → String
  | strayCharacter => "Unexpected character."
  | unterminatedString => "Unterminated string."
  | expected what => "Expect " ++ what ++ "."
  | invalidTarget => "Invalid assignment target."
  | tooMany what => "Can't have more than 255 " ++ what ++ "."
  | tooDeep => "Too much nesting."
  | selfReference => "Can't read local variable in its own initializer."
  | redeclared => "Already a variable with this name in this scope."
  | strayReturn => "Can't return from top-level code."
  | said text => text

/-- What an issue is blamed on: a token, the end of the text, or a place without a token. -/
inductive Issue.Place where
  | token (lexeme : String)
  | endOfText
  | nowhere
deriving DecidableEq, Repr

/-- How a place is told. -/
def Issue.Place.text : Issue.Place → String
  | token lexeme => " at '" ++ lexeme ++ "'"
  | endOfText => " at end"
  | nowhere => ""

/-- Trouble found before a program runs: what and where, the line it is reported at, and the
characters of the text that a picture points at. -/
structure Issue where
  line : Nat
  place : Issue.Place
  cause : Issue.Cause
  offset : Nat
  width : Nat
deriving DecidableEq, Repr

namespace Issue

/-- An issue that is blamed on a token. -/
def blame (t : Token) (cause : Cause) : Issue where
  line := t.line
  place := if t.kind = .endOfText then .endOfText else .token t.lexeme
  cause := cause
  offset := t.offset
  width := t.lexeme.length

/-- An issue with one character of the text. -/
def spot (line offset : Nat) (cause : Cause) : Issue where
  line := line
  place := .nowhere
  cause := cause
  offset := offset
  width := 1

/-- The text of an issue. -/
def text (i : Issue) : String :=
  "[line " ++ toString i.line ++ "] error" ++ i.place.text ++ ": " ++ i.cause.message

end Issue

/-- Trouble that stops a running program. -/
inductive Crash.Cause where
  | undefined (name : String)
  | operandNotNumber
  | operandsNotNumbers
  /-- A sum of anything but two numbers or two strings. -/
  | operandsMixed
  | notCallable
  | wrongArity (expected got : Nat)
  | stackOverflow
  /-- Trouble in the words of another. -/
  | said (text : String)
deriving DecidableEq, Repr

/-- The wording of a cause. -/
def Crash.Cause.message : Crash.Cause → String
  | undefined name => "Undefined variable '" ++ name ++ "'."
  | operandNotNumber => "Operand must be a number."
  | operandsNotNumbers => "Operands must be numbers."
  | operandsMixed => "Operands must be two numbers or two strings."
  | notCallable => "Can only call functions."
  | wrongArity expected got =>
    "Expected " ++ toString expected ++ " arguments but got " ++ toString got ++ "."
  | stackOverflow => "Stack overflow."
  | said text => text

/-- Trouble that stops a running program, and the token that it is blamed on. -/
structure Crash where
  token : Token
  cause : Crash.Cause
deriving DecidableEq, Repr

/-- The text of a crash. -/
def Crash.text (c : Crash) : String :=
  c.cause.message ++ "\n[line: " ++ toString c.token.line ++ "]"

end Scriptlet

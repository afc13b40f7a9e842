import Scriptlet.Decimal.Layout

/-!
# Tokens

The words of the language: marks of punctuation, reserved words, numbers, strings and names. A
token keeps the text it was cut from (its lexeme), the value it stands for (its literal), and
where it came from.

**Kinds.** What a token is for the grammar is its kind alone. A kind has a name, which is the mark
itself, the reserved word in capitals, or a word for the class. A kind that is none of the
language's own (`other`) is never cut from a text; it fits nowhere in the grammar.
-/

namespace Scriptlet

/-- The marks of punctuation. -/
inductive Mark where
  | leftParen | rightParen | leftBrace | rightBrace
  | comma | dot | minus | plus | semicolon | star | slash
  | bang | bangEqual | equal | equalEqual | less | lessEqual | greater | greaterEqual
deriving DecidableEq, Repr

namespace Mark

/-- All marks. -/
def all : List Mark :=
  [leftParen, rightParen, leftBrace, rightBrace, comma, dot, minus, plus, semicolon, star, slash,
   bang, bangEqual, equal, equalEqual, less, lessEqual, greater, greaterEqual]

/-- How a mark is written. -/
def text : Mark → String
  | leftParen => "("
  | rightParen => ")"
  | leftBrace => "\x7b"
  | rightBrace => "\x7d"
  | comma => ","
  | dot => "."
  | minus => "-"
  | plus => "+"
  | semicolon => ";"
  | star => "*"
  | slash => "/"
  | bang => "!"
  | bangEqual => "!="
  | equal => "="
  | equalEqual => "=="
  | less => "<"
  | lessEqual => "<="
  | greater => ">"
  | greaterEqual => ">="

/-- The mark that is written so. -/
def ofText? (s : String) : Option Mark := all.find? fun m => m.text == s

theorem ofText?_text (m : Mark) : ofText? m.text = some m := by cases m <;> decide

end Mark

/-- The reserved words. -/
inductive Word where
  | kwAnd | kwElse | kwFalse | kwFor | kwFun | kwIf | kwNil | kwOr | kwPrint | kwReturn | kwThis
  | kwTrue | kwVar | kwWhile
deriving DecidableEq, Repr

namespace Word

/-- All reserved words. -/
def all : List Word :=
  [kwAnd, kwElse, kwFalse, kwFor, kwFun, kwIf, kwNil, kwOr, kwPrint, kwReturn, kwThis, kwTrue,
   kwVar, kwWhile]

/-- How a reserved word is written. -/
def text : Word → String
  | kwAnd => "and"
  | kwElse => "else"
  | kwFalse => "false"
  | kwFor => "for"
  | kwFun => "fun"
  | kwIf => "if"
  | kwNil => "nil"
  | kwOr => "or"
  | kwPrint => "print"
  | kwReturn => "return"
  | kwThis => "this"
  | kwTrue => "true"
  | kwVar => "var"
  | kwWhile => "while"

/-- The name of its kind: the word in capitals. -/
def kindName : Word → String
  | kwAnd => "AND"
  | kwElse => "ELSE"
  | kwFalse => "FALSE"
  | kwFor => "FOR"
  | kwFun => "FUN"
  | kwIf => "IF"
  | kwNil => "NIL"
  | kwOr => "OR"
  | kwPrint => "PRINT"
  | kwReturn => "RETURN"
  | kwThis => "THIS"
  | kwTrue => "TRUE"
  | kwVar => "VAR"
  | kwWhile => "WHILE"

/-- The reserved word that is written so. -/
def ofText? (s : String) : Option Word := all.find? fun w => w.text == s

/-- The reserved word whose kind has this name. -/
def ofKindName? (s : String) : Option Word := all.find? fun w => w.kindName == s

theorem ofText?_text (w : Word) : ofText? w.text = some w := by cases w <;> decide

end Word

/-- What a token is for the grammar. -/
inductive Kind where
  | mark (m : Mark)
  | word (w : Word)
  | number
  | string
  | name
  | endOfText
  /-- A kind that no token of a text has. -/
  | other (called : String)
deriving DecidableEq, Repr

namespace Kind

/-- The name of a kind. -/
def text : Kind → String
  | mark m => m.text
  | word w => w.kindName
  | number => "number"
  | string => "string"
  | name => "name"
  | endOfText => "<END>"
  | other called => called

/-- The kind of this name. -/
def ofText (s : String) : Kind :=
  if s = "number" then number
  else if s = "string" then string
  else if s = "name" then name
  else if s = "<END>" then endOfText
  else
    match Mark.ofText? s, Word.ofKindName? s with
    | some m, _ => mark m
    | none, some w => word w
    | none, none => other s

end Kind

/-- The value that a token stands for; `nil` if it stands for none. -/
inductive Literal where
  | nil
  | bool (b : Bool)
  | number (x : Float)
  | string (s : String)
deriving DecidableEq, Repr

/-- How the numbers of a program listing look: positional from `0.0001` up to sixteen digits, always
with a fraction, and else with an exponent of two digits or more. -/
def listedNumber : Decimal.Layout where
  least := -4
  greatest := 15
  wholeFraction := true
  exponentWidth := 2

/-- A literal in a listing of tokens. -/
def Literal.listed : Literal → String
  | .nil => "None"
  | .bool b => if b then "True" else "False"
  | .number x => listedNumber.render x
  | .string s => s

/-- A token: its kind, the text it was cut from, the value it stands for, its line counted from
one, and the offset of its first character. -/
structure Token where
  kind : Kind
  lexeme : String
  literal : Literal
  line : Nat
  offset : Nat
deriving DecidableEq, Repr

/-- A token in a listing: kind, lexeme and literal. -/
def Token.listed (t : Token) : String :=
  t.kind.text ++ " " ++ t.lexeme ++ " " ++ t.literal.listed

end Scriptlet

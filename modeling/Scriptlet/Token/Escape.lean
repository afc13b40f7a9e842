/-!
# Escapes in string literals

Between the quotes of a string literal a backslash and the character behind it may stand for one
other character: the quote and the backslash for themselves, and three letters for controls. A
backslash before any other character has no meaning, and both stay as they are written.
-/

namespace Scriptlet.Token.Escape

/-- The character that a backslash and this character stand for. -/
def meaning? (c : Char) : Option Char :=
  if c = '"' ∨ c = '\\' then some c
  else if c = 'n' then some '\n'
  else if c = 't' then some '\t'
  else if c = 'r' then some '\r'
  else none

/-- The text that the body of a string literal stands for. -/
def decode : List Char → List Char
  | [] => []
  | '\\' :: c :: rest =>
    match meaning? c with
    | some d => d :: decode rest
    | none => '\\' :: c :: decode rest
  | c :: rest => c :: decode rest

end Scriptlet.Token.Escape

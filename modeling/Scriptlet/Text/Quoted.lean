import Scriptlet.Text.Printable

/-!
# Quoted text

Text between quotes with escapes, so that it stays on one line and can be read without doubt. The
quote is an apostrophe, unless the text holds apostrophes and no double quotes. The quote in use
and the backslash are written behind a backslash, the usual three controls by letter, and every
other character without a printed form by its number in two, four or eight hexadecimal digits.
-/

namespace Scriptlet.Text.Quoted

/-- The apostrophe. -/
def apostrophe : Char := '\x27'

/-- The quote that needs the fewer escapes, in case of doubt the apostrophe. -/
def mark (cs : List Char) : Char :=
  if apostrophe ∈ cs ∧ '"' ∉ cs then '"' else apostrophe

/-- A number in so many hexadecimal digits. -/
def hex (width n : Nat) : List Char :=
  let digits := Nat.toDigits 16 n
  List.replicate (width - digits.length) '0' ++ digits

/-- A character between the given quotes. -/
def escape (quote c : Char) : List Char :=
  if c = quote ∨ c = '\\' then ['\\', c]
  else if c = '\n' then ['\\', 'n']
  else if c = '\t' then ['\\', 't']
  else if c = '\r' then ['\\', 'r']
  else if isPrintable c then [c]
  else if c.toNat < 0x100 then '\\' :: 'x' :: hex 2 c.toNat
  else if c.toNat < 0x10000 then '\\' :: 'u' :: hex 4 c.toNat
  else '\\' :: 'U' :: hex 8 c.toNat

/-- The quoted form of a text. -/
def encode (s : String) : String :=
  let cs := s.toList
  let quote := mark cs
  String.ofList (quote :: cs.flatMap (escape quote) ++ [quote])

end Scriptlet.Text.Quoted

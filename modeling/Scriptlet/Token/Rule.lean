/-!
# Lexical rules

A text is cut into pieces by ten rules. Each rule says how long a prefix of the remaining text it
matches at the most (`Rule.span`); zero means that it matches none. Of all rules the one with the
longest match applies, and of several that match equally long the one that comes first in
`Rule.all`.

Some rule matches wherever text remains, since `stray` takes any one character (`best_pos`). So
the cutting never stops early.

Letters and digits are those of ASCII.
-/

namespace Scriptlet.Token

/-- The lexical rules. -/
inductive Rule where
  /-- Blanks, tabs and carriage returns. -/
  | blanks
  /-- From two slashes to the end of the line. -/
  | comment
  | lineBreak
  | punctuation
  /-- One of the four marks of comparison and assignment, an equals sign behind it or not. -/
  | relation
  /-- Digits, and a fraction if digits follow the point. -/
  | number
  /-- A letter or underscore, then letters, digits and underscores. -/
  | word
  | closedString
  /-- A string without its closing quote, which runs to the end of the text. -/
  | openString
  /-- Any other character. -/
  | stray
deriving DecidableEq, Repr

namespace Rule

/-- All rules, those that win a tie first. -/
def all : List Rule :=
  [blanks, comment, lineBreak, punctuation, relation, number, word, closedString, openString,
   stray]

/-! ## Classes of characters -/

/-- Characters between tokens that do not end a line. -/
def isGap (c : Char) : Bool := c == ' ' || c == '\t' || c == '\r'

/-- Marks that are tokens by themselves. -/
def isPunctuation (c : Char) : Bool := "(\x7b\x7d),.-+;*/".toList.contains c

/-- Marks that an equals sign may follow. -/
def isRelation (c : Char) : Bool := "!=<>".toList.contains c

/-- Characters that begin a word. -/
def startsWord (c : Char) : Bool := c.isAlpha || c == '_'

/-- Characters that continue a word. -/
def continuesWord (c : Char) : Bool := c.isAlphanum || c == '_'

/-! ## The longest match of each rule -/

/-- How many characters at the front belong to a class. -/
def run (p : Char → Bool) (cs : List Char) : Nat := (cs.takeWhile p).length

/-- How far the body of a string reaches: up to a quote without a backslash before it, or to the
end of the text, where a backslash with nothing behind it stays out. -/
def bodySpan : List Char → Nat
  | [] => 0
  | '\\' :: _ :: rest => bodySpan rest + 2
  | c :: rest => if c = '"' ∨ c = '\\' then 0 else bodySpan rest + 1

/-- The length of a number at the front: a point counts only between digits. -/
def numberSpan (cs : List Char) : Nat :=
  let whole := run Char.isDigit cs
  if whole = 0 then 0
  else
    match cs.drop whole with
    | '.' :: rest =>
      let places := run Char.isDigit rest
      if places = 0 then whole else whole + 1 + places
    | _ => whole

/-- The length of the longest prefix that a rule matches, zero if it matches none. -/
def span : Rule → List Char → Nat
  | blanks, cs => run isGap cs
  | comment, '/' :: '/' :: rest => run (· != '\n') rest + 2
  | lineBreak, '\n' :: _ => 1
  | punctuation, c :: _ => if isPunctuation c then 1 else 0
  | relation, c :: rest =>
    if isRelation c then (match rest with | '=' :: _ => 2 | _ => 1) else 0
  | number, cs => numberSpan cs
  | word, c :: rest => if startsWord c then run continuesWord rest + 1 else 0
  | closedString, '"' :: rest =>
    let body := bodySpan rest
    match rest.drop body with
    | '"' :: _ => body + 2
    | _ => 0
  | openString, '"' :: rest =>
    let body := bodySpan rest
    match rest.drop body with
    | '\\' :: _ => body + 2
    | _ => body + 1
  | stray, _ :: _ => 1
  | _, _ => 0

/-! ## The rule that applies -/

/-- Of these rules the one with the longest match, the first of several, and its length. -/
def longest (cs : List Char) : List Rule → Rule × Nat
  | [] => (stray, 0)
  | rule :: rest =>
    let other := longest cs rest
    let n := rule.span cs
    if n < other.2 then other else (rule, n)

/-- The rule that applies at the front of a text, and how much it takes. -/
def best (cs : List Char) : Rule × Nat := longest cs all

/-- No rule matches more than the chosen one. -/
theorem span_le_longest {cs : List Char} {rules : List Rule} {rule : Rule} (h : rule ∈ rules) :
    rule.span cs ≤ (longest cs rules).2 := by
  induction rules with
  | nil => cases h
  | cons first rest ih =>
    simp only [longest]
    rcases List.mem_cons.1 h with rfl | h
    · split
      · next hlt => exact Nat.le_of_lt hlt
      · exact Nat.le_refl _
    · have hle := ih h
      split
      · exact hle
      · next hlt => exact Nat.le_trans hle (Nat.le_of_not_lt hlt)

theorem mem_all (rule : Rule) : rule ∈ all := by cases rule <;> decide

/-- No rule matches more than the one that applies. -/
theorem span_le_best (rule : Rule) (cs : List Char) : rule.span cs ≤ (best cs).2 :=
  span_le_longest (mem_all rule)

/-- Where text remains, something is taken. -/
theorem best_pos (c : Char) (rest : List Char) : 0 < (best (c :: rest)).2 :=
  span_le_best stray (c :: rest)

end Rule

end Scriptlet.Token

import Scriptlet.Grammar.Statement

/-!
# Programs

    program → declaration*

A program is read to its end whatever its tokens are, and what fits the grammar is kept. Only
nesting that is too deep ends the reading early: it is an issue with the token that was next, and
the statements before it are kept.
-/

namespace Scriptlet.Grammar

/-- The readers with so many levels of nesting. -/
def readers : Nat → Nested
  | 0 => ⟨throw .tooDeep, throw .tooDeep, throw .tooDeep, throw .tooDeep⟩
  | depth + 1 =>
    let nested := readers depth
    ⟨expression nested, unary nested, statement nested, declaration nested⟩

/-- How deep expressions and statements may be nested. This stands for the room on the stack of the
process that reads them, of which every level takes a part. -/
def maxDepth : Nat := 1000

/-- What was read of a program. -/
structure Program where
  statements : List Stmt
  issues : Array Issue
  /-- The serial behind those of the program's references. -/
  serial : Nat

namespace Program

/-- The declarations from a cursor on, behind those that stand in reverse. -/
def declarations (nested : Nested) : Nat → List Stmt → Cursor → Program
  | 0, done, c => ⟨done.reverse, c.issues, c.serial⟩
  | fuel + 1, done, c =>
    if c.rest.isEmpty then ⟨done.reverse, c.issues, c.serial⟩
    else
      match nested.declaration c with
      | .ok s c => declarations nested fuel (s.toList ++ done) c
      | .error _ c => ⟨done.reverse, c.issues.push (.blame c.next .tooDeep), c.serial⟩

/-- Reads the tokens before the one that marks the end, with so many levels of nesting. The first
reference has the given serial. -/
def read (depth serial : Nat) (tokens : List Token) (stop : Token) : Program :=
  let c := Cursor.front serial tokens stop
  declarations (readers depth) c.turns [] c

/-- The tokens before the first one that marks the end, and that one. Nothing if the last token
does not mark the end. -/
def split? (tokens : List Token) : Option (List Token × Token) :=
  let ends (t : Token) : Bool := t.kind == .endOfText
  if tokens.getLast?.any ends then
    (tokens.find? ends).map fun stop => (tokens.takeWhile fun t => !ends t, stop)
  else none

/-- Reads tokens up to the first one that marks the end; nothing if the last one does not. -/
def ofTokens? (depth serial : Nat) (tokens : List Token) : Option Program :=
  (split? tokens).map fun (front, stop) => read depth serial front stop

end Program

end Scriptlet.Grammar

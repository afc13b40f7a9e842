import Scriptlet.Grammar.Cursor

/-!
# The grammar of expressions

    expression → assignment
    assignment → NAME "=" assignment | disjunction
    disjunction → conjunction ( "or" conjunction )*
    conjunction → equality ( "and" equality )*
    equality → comparison ( ( "!=" | "==" ) comparison )*
    comparison → sum ( ( ">" | ">=" | "<" | "<=" ) sum )*
    sum → product ( ( "-" | "+" ) product )*
    product → unary ( ( "/" | "*" ) unary )*
    unary → ( "!" | "-" ) unary | call
    call → primary ( "(" arguments? ")" )*
    arguments → expression ( "," expression )*
    primary → "false" | "true" | "nil" | NUMBER | STRING | NAME | "(" expression ")"

**Recursion.** Where a rule mentions one that it is itself a part of, it is given a reader for it
in a structure of type `Nested`, which stands for one level of nesting less. So no rule is
recursive, and every turn of a loop takes a token.

**Assignment.** The left side of an equals sign is read as an expression first. If it turns out
not to be a name, this is an issue with the sign, but not a reason to stop: the right side is read
and then left out.
-/

namespace Scriptlet.Grammar

/-- Readers for what is nested one level deeper. -/
structure Nested where
  expression : Reader Expr
  unary : Reader Expr
  statement : Reader Stmt
  /-- A declaration; nothing if it does not fit the grammar and was skipped. -/
  declaration : Reader (Option Stmt)

/-- How many parameters a function and arguments a call may have. -/
def maxEntries : Nat := 255

/-- Entries with commas between them, at least one. From the first that is too many on, each is an
issue with its first token. -/
def entriesFrom {α : Type} (what : String) (entry : Reader α) : Nat → Nat → Reader (List α)
  | 0, _ => return []
  | fuel + 1, count => do
    if maxEntries ≤ count then Reader.complainHere (.tooMany what)
    let first ← entry
    if ← Reader.takes (.mark .comma) then
      return first :: (← entriesFrom what entry fuel (count + 1))
    else
      return [first]

/-- Entries with commas between them up to a parenthesis, which is not taken; maybe none. -/
def entries {α : Type} (what : String) (entry : Reader α) : Reader (List α) := do
  if ← Reader.sees (.mark .rightParen) then return []
  else entriesFrom what entry (← Reader.turns) 0

/-- Primary expressions. -/
def primary (nested : Nested) : Reader Expr := do
  if ← Reader.takes (.word .kwFalse) then return .literal (.bool false)
  if ← Reader.takes (.word .kwTrue) then return .literal (.bool true)
  if ← Reader.takes (.word .kwNil) then return .literal .nil
  if let some t ← Reader.takeIf (fun k => k == .number || k == .string) then
    return .literal t.literal
  if let some t ← Reader.take? .name then return .ref t (← Reader.newSerial)
  if ← Reader.takes (.mark .leftParen) then
    let inner ← nested.expression
    let _ ← Reader.require (.mark .rightParen) "')' after expression"
    return .grouping inner
  Reader.misfit (.expected "expression")

/-- The argument lists behind a callee. -/
def callsFrom (nested : Nested) : Nat → Expr → Reader Expr
  | 0, callee => return callee
  | fuel + 1, callee => do
    if ← Reader.takes (.mark .leftParen) then
      let args ← entries "arguments" nested.expression
      let paren ← Reader.require (.mark .rightParen) "')' after arguments"
      callsFrom nested fuel (.call callee paren args)
    else
      return callee

/-- Calls. -/
def call (nested : Nested) : Reader Expr := do
  let callee ← primary nested
  callsFrom nested (← Reader.turns) callee

/-- Whether a kind is an operator with one operand. -/
def isUnary (k : Kind) : Bool := k == .mark .bang || k == .mark .minus

/-- Operators with one operand. -/
def unary (nested : Nested) : Reader Expr := do
  match ← Reader.takeIf isUnary with
  | some op => return .unary op (← nested.unary)
  | none => call nested

/-- The operators of one level of precedence: which they are, and what they build. -/
structure Level where
  fits : Kind → Bool
  build : Expr → Token → Expr → Expr

/-- The operators and operands behind a left operand. -/
def operandsFrom (level : Level) (operand : Reader Expr) : Nat → Expr → Reader Expr
  | 0, lhs => return lhs
  | fuel + 1, lhs => do
    match ← Reader.takeIf level.fits with
    | some op =>
      let rhs ← operand
      operandsFrom level operand fuel (level.build lhs op rhs)
    | none => return lhs

/-- Operands with operators between them, grouped to the left. -/
def leftAssociative (level : Level) (operand : Reader Expr) : Reader Expr := do
  let lhs ← operand
  operandsFrom level operand (← Reader.turns) lhs

/-- The operators of products. -/
def productLevel : Level := ⟨fun k => k == .mark .slash || k == .mark .star, .binary⟩

/-- The operators of sums. -/
def sumLevel : Level := ⟨fun k => k == .mark .minus || k == .mark .plus, .binary⟩

/-- The operators of comparisons. -/
def comparisonLevel : Level where
  fits k := k == .mark .greater || k == .mark .greaterEqual || k == .mark .less ||
    k == .mark .lessEqual
  build := .binary

/-- The operators of equality. -/
def equalityLevel : Level :=
  ⟨fun k => k == .mark .bangEqual || k == .mark .equalEqual, .binary⟩

/-- The operator of conjunctions. -/
def conjunctionLevel : Level := ⟨fun k => k == .word .kwAnd, .logical⟩

/-- The operator of disjunctions. -/
def disjunctionLevel : Level := ⟨fun k => k == .word .kwOr, .logical⟩

/-- Products. -/
def product (nested : Nested) : Reader Expr := leftAssociative productLevel (unary nested)

/-- Sums. -/
def sum (nested : Nested) : Reader Expr := leftAssociative sumLevel (product nested)

/-- Comparisons. -/
def comparison (nested : Nested) : Reader Expr := leftAssociative comparisonLevel (sum nested)

/-- Equality. -/
def equality (nested : Nested) : Reader Expr := leftAssociative equalityLevel (comparison nested)

/-- Conjunctions. -/
def conjunction (nested : Nested) : Reader Expr :=
  leftAssociative conjunctionLevel (equality nested)

/-- Disjunctions. -/
def disjunction (nested : Nested) : Reader Expr :=
  leftAssociative disjunctionLevel (conjunction nested)

/-- Expressions. -/
def expression (nested : Nested) : Reader Expr := do
  let target ← disjunction nested
  match ← Reader.take? (.mark .equal) with
  | none => return target
  | some equals =>
    let value ← nested.expression
    match target with
    | .ref name _ => return .assign name value (← Reader.newSerial)
    | _ =>
      Reader.complain equals .invalidTarget
      return target

end Scriptlet.Grammar

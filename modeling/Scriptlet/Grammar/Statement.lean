import Scriptlet.Grammar.Expression

/-!
# The grammar of statements

    declaration → "fun" function | "var" variable | statement
    function → NAME "(" parameters? ")" "{" block
    parameters → NAME ( "," NAME )*
    variable → NAME ( "=" expression )? ";"
    statement → "for" "(" start expression? ";" expression? ")" statement
      | "if" "(" expression ")" statement ( "else" statement )?
      | "print" expression ";" | "return" expression? ";"
      | "while" "(" expression ")" statement | "{" block | simple
    start → ";" | "var" variable | simple
    block → declaration* "}"
    simple → expression ";"

**Recovery.** A declaration that does not fit the grammar is skipped up to a place where a
statement is likely to begin (`resume`), and reading goes on there. The token at fault is always
skipped, so reading never stands still.
-/

namespace Scriptlet.Grammar

/-- Whether a statement may begin with a token of this kind. -/
def opensStatement : Kind → Bool
  | .word .kwFun | .word .kwVar | .word .kwFor | .word .kwIf | .word .kwWhile | .word .kwPrint
  | .word .kwReturn => true
  | _ => false

/-- Skips tokens until the last one skipped is a semicolon or the next one may open a statement. -/
def resumeAfter (skipped : Token) : List Token → List Token
  | [] => []
  | t :: rest =>
    if skipped.kind == .mark .semicolon || opensStatement t.kind then t :: rest
    else resumeAfter t rest

/-- Where reading goes on if the first of these tokens does not fit. -/
def resume : List Token → List Token
  | [] => []
  | t :: rest => resumeAfter t rest

/-- The semicolon behind a statement. -/
def semicolon (behind : String) : Reader Unit :=
  discard (Reader.require (.mark .semicolon) ("';' after " ++ behind))

/-- An expression as a statement. -/
def simple (nested : Nested) : Reader Stmt := do
  let e ← expression nested
  semicolon "expression"
  return .expr e

/-- An expression, unless a token of this kind is next. -/
def expressionUnless (k : Kind) (nested : Nested) : Reader (Option Expr) := do
  if ← Reader.sees k then return none else return some (← expression nested)

/-- The declaration of a variable, behind its first word. -/
def variableDeclaration (nested : Nested) : Reader Stmt := do
  let name ← Reader.require .name "variable name"
  let init ← if ← Reader.takes (.mark .equal) then some <$> expression nested else pure none
  semicolon "variable declaration"
  return .var name init

/-- The declarations of a block. -/
def blockFrom (nested : Nested) : Nat → Reader (List Stmt)
  | 0 => return []
  | fuel + 1 => do
    match ← Reader.nextKind? with
    | none | some (.mark .rightBrace) => return []
    | some _ =>
      let first ← nested.declaration
      let rest ← blockFrom nested fuel
      return first.toList ++ rest

/-- A block, behind its opening brace. -/
def block (nested : Nested) : Reader (List Stmt) := do
  let body ← blockFrom nested (← Reader.turns)
  let _ ← Reader.require (.mark .rightBrace) "'\x7d' after block"
  return body

/-- The declaration of a function, behind its first word. -/
def functionDeclaration (nested : Nested) : Reader Stmt := do
  let name ← Reader.require .name "function name"
  let _ ← Reader.require (.mark .leftParen) "'(' after function name"
  let params ← entries "parameters" (Reader.require .name "parameter name")
  let _ ← Reader.require (.mark .rightParen) "')' after parameters"
  let _ ← Reader.require (.mark .leftBrace) "'\x7b' before function body"
  return .function name params (← block nested)

/-- The first part of the header of a counted loop. -/
def loopStart (nested : Nested) : Reader (Option Stmt) := do
  if ← Reader.takes (.mark .semicolon) then return none
  else if ← Reader.takes (.word .kwVar) then some <$> variableDeclaration nested
  else some <$> simple nested

/-- A counted loop, behind its first word. -/
def countedLoop (nested : Nested) : Reader Stmt := do
  let _ ← Reader.require (.mark .leftParen) "'(' after 'for'"
  let start ← loopStart nested
  let condition ← expressionUnless (.mark .semicolon) nested
  semicolon "loop condition"
  let step ← expressionUnless (.mark .rightParen) nested
  let _ ← Reader.require (.mark .rightParen) "')' after for clauses"
  return .countedLoop start condition step (← nested.statement)

/-- A branch, behind its first word. An `else` belongs to the nearest branch that lacks one. -/
def branch (nested : Nested) : Reader Stmt := do
  let _ ← Reader.require (.mark .leftParen) "'(' after 'if'"
  let condition ← expression nested
  let _ ← Reader.require (.mark .rightParen) "')' after if condition"
  let yes ← nested.statement
  let no ← if ← Reader.takes (.word .kwElse) then some <$> nested.statement else pure none
  return .branch condition yes no

/-- A print statement, behind its first word. -/
def printStatement (nested : Nested) (keyword : Token) : Reader Stmt := do
  let e ← expression nested
  semicolon "value"
  return .print keyword e

/-- A return statement, behind its first word. -/
def returnStatement (nested : Nested) (keyword : Token) : Reader Stmt := do
  let value ← expressionUnless (.mark .semicolon) nested
  semicolon "return value"
  return .ret keyword value

/-- A plain loop, behind its first word. -/
def plainLoop (nested : Nested) : Reader Stmt := do
  let _ ← Reader.require (.mark .leftParen) "'(' after 'while'"
  let condition ← expression nested
  let _ ← Reader.require (.mark .rightParen) "')' after condition"
  return .loop condition (← nested.statement)

/-- Statements. -/
def statement (nested : Nested) : Reader Stmt := do
  if ← Reader.takes (.word .kwFor) then countedLoop nested
  else if ← Reader.takes (.word .kwIf) then branch nested
  else if let some keyword ← Reader.take? (.word .kwPrint) then printStatement nested keyword
  else if let some keyword ← Reader.take? (.word .kwReturn) then returnStatement nested keyword
  else if ← Reader.takes (.word .kwWhile) then plainLoop nested
  else if ← Reader.takes (.mark .leftBrace) then .block <$> block nested
  else simple nested

/-- Declarations without recovery. -/
def bareDeclaration (nested : Nested) : Reader Stmt := do
  if ← Reader.takes (.word .kwFun) then functionDeclaration nested
  else if ← Reader.takes (.word .kwVar) then variableDeclaration nested
  else statement nested

/-- Declarations. One that does not fit is skipped, and reading resumes behind it. -/
def declaration (nested : Nested) : Reader (Option Stmt) := fun c =>
  match bareDeclaration nested c with
  | .ok s c => .ok (some s) c
  | .error .misfit c => .ok none { c with rest := resume c.rest }
  | .error .tooDeep c => .error .tooDeep c

end Scriptlet.Grammar

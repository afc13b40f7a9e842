import Scriptlet.Text.Quoted
import Scriptlet.Tree.Basic

/-!
# Trees in full

A tree as text on one line, with every part named. Lists stand in parentheses with commas, one
entry with a comma behind it; what is absent is `None`.
-/

namespace Scriptlet.Listing

/-- A node with its parts. -/
def node (name : String) (parts : List (String × String)) : String :=
  name ++ "(" ++ ", ".intercalate (parts.map fun (part, text) => part ++ "=" ++ text) ++ ")"

/-- A list. -/
def tuple : List String → String
  | [one] => "(" ++ one ++ ",)"
  | texts => "(" ++ ", ".intercalate texts ++ ")"

/-- A literal, strings in quotes. -/
def literal : Literal → String
  | .string s => Text.Quoted.encode s
  | other => other.listed

/-- A token. -/
def token (t : Token) : String :=
  node "Token"
    [("kind", Text.Quoted.encode t.kind.text), ("lexeme", Text.Quoted.encode t.lexeme),
     ("literal", literal t.literal), ("line", toString t.line), ("offset", toString t.offset)]

mutual

/-- An expression. -/
def expr : Expr → String
  | .literal value => node "Literal" [("value", literal value)]
  | .ref name _ => node "Variable" [("name", token name)]
  | .assign name value _ => node "Assign" [("name", token name), ("value", expr value)]
  | .binary lhs op rhs =>
    node "Binary" [("lhs", expr lhs), ("op", token op), ("rhs", expr rhs)]
  | .logical lhs op rhs =>
    node "Logical" [("lhs", expr lhs), ("op", token op), ("rhs", expr rhs)]
  | .unary op arg => node "Unary" [("op", token op), ("arg", expr arg)]
  | .grouping inner => node "Grouping" [("inner", expr inner)]
  | .call callee paren args =>
    node "Call" [("callee", expr callee), ("paren", token paren), ("args", tuple (exprs args))]

/-- A list of expressions. -/
def exprs : List Expr → List String
  | [] => []
  | e :: rest => expr e :: exprs rest

end

/-- An expression, or its absence. -/
def optional (e : Option Expr) : String := (e.map expr).getD "None"

mutual

/-- A statement. -/
def stmt : Stmt → String
  | .expr e => node "ExpressionStmt" [("expr", expr e)]
  | .print keyword e => node "PrintStmt" [("keyword", token keyword), ("expr", expr e)]
  | .var name init => node "VarStmt" [("name", token name), ("initializer", optional init)]
  | .block body => node "BlockStmt" [("statements", tuple (stmts body))]
  | .branch condition yes none =>
    node "IfStmt"
      [("condition", expr condition), ("then_branch", stmt yes), ("else_branch", "None")]
  | .branch condition yes (some no) =>
    node "IfStmt"
      [("condition", expr condition), ("then_branch", stmt yes), ("else_branch", stmt no)]
  | .loop condition body => node "WhileStmt" [("condition", expr condition), ("body", stmt body)]
  | .function name params body =>
    node "FunctionStmt"
      [("name", token name), ("params", tuple (params.map token)), ("body", tuple (stmts body))]
  | .ret keyword value => node "ReturnStmt" [("keyword", token keyword), ("value", optional value)]

/-- A list of statements. -/
def stmts : List Stmt → List String
  | [] => []
  | s :: rest => stmt s :: stmts rest

end

end Scriptlet.Listing

import Scriptlet.Tree.Basic

/-!
# When two trees are the same

Two trees are the same if they have the same shape and the same tokens in the same places; the
serials of references do not count. Tokens are the same if all that is known of them agrees, so the
position in the text matters wherever a token is kept. Among literals a truth value is the same as
the number one or zero.
-/

namespace Scriptlet

/-- The number that a truth value is the same as. -/
def Literal.truthNumber (b : Bool) : Float := if b then 1 else 0

/-- Whether two literals are the same. -/
def Literal.same : Literal → Literal → Bool
  | .nil, .nil => true
  | .bool a, .bool b => a == b
  | .number x, .number y => x == y
  | .bool a, .number y => Literal.truthNumber a == y
  | .number x, .bool b => x == Literal.truthNumber b
  | .string s, .string t => s == t
  | _, _ => false

/-- Whether two tokens are the same. -/
def Token.same (s t : Token) : Bool :=
  s.kind == t.kind && s.lexeme == t.lexeme && s.literal.same t.literal && s.line == t.line &&
    s.offset == t.offset

/-- Whether two lists of tokens are the same. -/
def Token.sameAll : List Token → List Token → Bool
  | [], [] => true
  | s :: ss, t :: ts => s.same t && Token.sameAll ss ts
  | _, _ => false

mutual

/-- Whether two expressions are the same. -/
def Expr.same : Expr → Expr → Bool
  | .literal a, .literal b => a.same b
  | .ref n _, .ref m _ => n.same m
  | .assign n a _, .assign m b _ => n.same m && a.same b
  | .binary a o b, .binary c p d => a.same c && o.same p && b.same d
  | .logical a o b, .logical c p d => a.same c && o.same p && b.same d
  | .unary o a, .unary p b => o.same p && a.same b
  | .grouping a, .grouping b => a.same b
  | .call f p as, .call g q bs => f.same g && p.same q && Expr.sameAll as bs
  | _, _ => false

/-- Whether two lists of expressions are the same. -/
def Expr.sameAll : List Expr → List Expr → Bool
  | [], [] => true
  | a :: as, b :: bs => a.same b && Expr.sameAll as bs
  | _, _ => false

end

/-- Whether two optional expressions are the same. -/
def Expr.sameOption : Option Expr → Option Expr → Bool
  | none, none => true
  | some a, some b => a.same b
  | _, _ => false

mutual

/-- Whether two statements are the same. -/
def Stmt.same : Stmt → Stmt → Bool
  | .expr a, .expr b => a.same b
  | .print k a, .print l b => k.same l && a.same b
  | .var n a, .var m b => n.same m && Expr.sameOption a b
  | .block as, .block bs => Stmt.sameAll as bs
  | .branch c y none, .branch d z none => c.same d && y.same z
  | .branch c y (some n), .branch d z (some o) => c.same d && y.same z && n.same o
  | .loop c a, .loop d b => c.same d && a.same b
  | .function n ps as, .function m qs bs => n.same m && Token.sameAll ps qs && Stmt.sameAll as bs
  | .ret k a, .ret l b => k.same l && Expr.sameOption a b
  | _, _ => false

/-- Whether two lists of statements are the same. -/
def Stmt.sameAll : List Stmt → List Stmt → Bool
  | [], [] => true
  | a :: as, b :: bs => a.same b && Stmt.sameAll as bs
  | _, _ => false

end

end Scriptlet

import Mathlib.Data.List.Forall2
import Scriptlet.Token.Basic
import Scriptlet.Tree.Basic

/-!
# Trees that are alike

Two programs may differ in their tokens and still do the same. A `Likeness` says how tokens may
differ: all tokens are related, and the names of some regions are mapped to other names. Which
regions these are is told by marks, one for each region outward, the innermost first; the globals
have no mark. A name that is declared carries the mark of the region that it is declared in, and a
reference that of the region that its depth leads to, so references and declarations are mapped
together.

**Apart.** The names that occur stay apart whatever marks they carry. So a name that a region does
not declare is not found there by accident, after it was mapped.
-/

namespace Scriptlet

/-- How the tokens of two programs may differ. -/
structure Likeness where
  /-- The names that occur. -/
  occurs : String → Prop
  /-- What a name is mapped to, under a mark. -/
  name : Bool → String → String
  /-- What a token may be, under a mark. -/
  token : Bool → Token → Token → Prop
  /-- How far out a reference leads. -/
  depth : Nat → Option Nat
  name_false : ∀ n, name false n = n
  injective : ∀ b, Function.Injective (name b)
  apart : ∀ {b b' n n'}, occurs n → occurs n' → name b n = name b' n' → n = n'
  kind : ∀ {b t t'}, token b t t' → t'.kind = t.kind
  lexeme : ∀ {b t t'}, token b t t' → t'.lexeme = name b t.lexeme

namespace Likeness

/-- The mark of the region that is so far out. -/
def mark (marks : List Bool) (depth : Option Nat) : Bool := (depth.bind (marks[·]?)).getD false

/-- Related tokens of which the first is a name that occurs. -/
structure Named (K : Likeness) (b : Bool) (t t' : Token) : Prop where
  token : K.token b t t'
  occurs : K.occurs t.lexeme

variable {K : Likeness} {b : Bool} {t t' : Token}

theorem Named.lexeme (h : K.Named b t t') : t'.lexeme = K.name b t.lexeme := K.lexeme h.token

/-- Tokens that carry no mark have the same text. -/
theorem lexeme_false (h : K.token false t t') : t'.lexeme = t.lexeme := by
  rw [K.lexeme h, K.name_false]

end Likeness

variable (K : Likeness)

mutual

/-- Expressions are alike in a place with these marks. -/
inductive Expr.Alike (marks : List Bool) : Expr → Expr → Prop
  | literal {v : Literal} : Expr.Alike marks (.literal v) (.literal v)
  | ref {n n' : Token} {serial : Nat} : K.Named (Likeness.mark marks (K.depth serial)) n n' →
      Expr.Alike marks (.ref n serial) (.ref n' serial)
  | assign {n n' : Token} {e e' : Expr} {serial : Nat} :
      K.Named (Likeness.mark marks (K.depth serial)) n n' → Expr.Alike marks e e' →
      Expr.Alike marks (.assign n e serial) (.assign n' e' serial)
  | binary {lhs lhs' rhs rhs' : Expr} {op op' : Token} : Expr.Alike marks lhs lhs' →
      K.token false op op' → Expr.Alike marks rhs rhs' →
      Expr.Alike marks (.binary lhs op rhs) (.binary lhs' op' rhs')
  | logical {lhs lhs' rhs rhs' : Expr} {op op' : Token} : Expr.Alike marks lhs lhs' →
      K.token false op op' → Expr.Alike marks rhs rhs' →
      Expr.Alike marks (.logical lhs op rhs) (.logical lhs' op' rhs')
  | unary {arg arg' : Expr} {op op' : Token} : K.token false op op' → Expr.Alike marks arg arg' →
      Expr.Alike marks (.unary op arg) (.unary op' arg')
  | grouping {inner inner' : Expr} : Expr.Alike marks inner inner' →
      Expr.Alike marks (.grouping inner) (.grouping inner')
  | call {callee callee' : Expr} {paren paren' : Token} {args args' : List Expr} :
      Expr.Alike marks callee callee' → K.token false paren paren' → Exprs.Alike marks args args' →
      Expr.Alike marks (.call callee paren args) (.call callee' paren' args')

/-- Expressions of two lists are alike. -/
inductive Exprs.Alike (marks : List Bool) : List Expr → List Expr → Prop
  | nil : Exprs.Alike marks [] []
  | cons {e e' : Expr} {es es' : List Expr} : Expr.Alike marks e e' →
      Exprs.Alike marks es es' → Exprs.Alike marks (e :: es) (e' :: es')

end

/-- A name is declared alike in two places with these marks. -/
abbrev Likeness.Declares (marks : List Bool) : Token → Token → Prop :=
  K.Named (marks.head?.getD false)

mutual

/-- Statements are alike in a place with these marks. A function keeps the name that it tells when
it is printed. -/
inductive Stmt.Alike : List Bool → Stmt → Stmt → Prop
  | expr {marks : List Bool} {e e' : Expr} : Expr.Alike K marks e e' →
      Stmt.Alike marks (.expr e) (.expr e')
  | print {marks : List Bool} {k k' : Token} {e e' : Expr} : Expr.Alike K marks e e' →
      Stmt.Alike marks (.print k e) (.print k' e')
  | var {marks : List Bool} {n n' : Token} {init init' : Option Expr} : K.Declares marks n n' →
      Option.Rel (Expr.Alike K marks) init init' → Stmt.Alike marks (.var n init) (.var n' init')
  | block {marks : List Bool} (b : Bool) {body body' : List Stmt} :
      Stmts.Alike (b :: marks) body body' → Stmt.Alike marks (.block body) (.block body')
  | branch {marks : List Bool} {c c' : Expr} {yes yes' : Stmt} : Expr.Alike K marks c c' →
      Stmt.Alike marks yes yes' → Stmt.Alike marks (.branch c yes none) (.branch c' yes' none)
  | branches {marks : List Bool} {c c' : Expr} {yes yes' no no' : Stmt} :
      Expr.Alike K marks c c' → Stmt.Alike marks yes yes' → Stmt.Alike marks no no' →
      Stmt.Alike marks (.branch c yes (some no)) (.branch c' yes' (some no'))
  | loop {marks : List Bool} {c c' : Expr} {body body' : Stmt} : Expr.Alike K marks c c' →
      Stmt.Alike marks body body' → Stmt.Alike marks (.loop c body) (.loop c' body')
  | function {marks : List Bool} (b : Bool) {n n' : Token} {params params' : List Token}
      {body body' : List Stmt} : K.Declares marks n n' → n'.lexeme = n.lexeme →
      List.Forall₂ (K.Named b) params params' → Stmts.Alike (b :: marks) body body' →
      Stmt.Alike marks (.function n params body) (.function n' params' body')
  | ret {marks : List Bool} {k k' : Token} {value value' : Option Expr} :
      Option.Rel (Expr.Alike K marks) value value' →
      Stmt.Alike marks (.ret k value) (.ret k' value')

/-- Statements of two lists are alike. -/
inductive Stmts.Alike : List Bool → List Stmt → List Stmt → Prop
  | nil {marks : List Bool} : Stmts.Alike marks [] []
  | cons {marks : List Bool} {st st' : Stmt} {sts sts' : List Stmt} : Stmt.Alike marks st st' →
      Stmts.Alike marks sts sts' → Stmts.Alike marks (st :: sts) (st' :: sts')

end

variable {K}

theorem Exprs.Alike.length {marks : List Bool} {es es' : List Expr}
    (h : Exprs.Alike K marks es es') : es'.length = es.length := by
  induction es generalizing es' with
  | nil =>
    cases h
    rfl
  | cons e es ih =>
    cases h with
    | cons _ hes => exact congrArg (· + 1) (ih hes)

theorem Stmts.Alike.append {marks : List Bool} {sts sts' more more' : List Stmt}
    (h : Stmts.Alike K marks sts sts') (hmore : Stmts.Alike K marks more more') :
    Stmts.Alike K marks (sts ++ more) (sts' ++ more') := by
  induction sts generalizing sts' with
  | nil =>
    cases h
    exact hmore
  | cons st sts ih =>
    cases h with
    | cons hst hsts => exact .cons hst (ih hsts)

end Scriptlet

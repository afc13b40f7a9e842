import Scriptlet.Grammar.Program

/-!
# The grammar as derivations

What a list of tokens is derived from, and the tree of the derivation. Each rule of the grammar is
a family of statements `Phrase n k ts tree k'`: the tokens `ts` derive from the phrase, and `tree`
is what they mean.

**Serials.** The references of the tree are numbered from `k` on, and `k'` is the next number.
Numbers are given in the order of the text; the target of an assignment takes one before the value
does, and the assignment one behind it.

**Nesting.** `n` is how many levels of nesting there may be at most. What a phrase contains of its
own kind (an expression in parentheses, the branch of a branch) has one level less.

**The dangling else.** A statement is open if its last part is a branch without `else`. The first
branch of a statement with `else` must not be open, so that an `else` belongs to the nearest
branch that it can belong to.

    program → declaration*
    declaration → "fun" NAME "(" parameters? ")" block | "var" variable | statement
    variable → NAME ( "=" expression )? ";"
    statement → simple | block | "print" expression ";" | "return" expression? ";"
      | "for" "(" ( ";" | "var" variable | simple ) expression? ";" expression? ")" statement
      | "if" "(" expression ")" statement ( "else" statement )?
      | "while" "(" expression ")" statement
    simple → expression ";"
    block → "{" declaration* "}"
    expression → NAME "=" expression | operation
    unary → ( "!" | "-" ) unary | primary ( "(" arguments? ")" )*
    primary → "false" | "true" | "nil" | NUMBER | STRING | NAME | "(" expression ")"
-/

namespace Scriptlet.Grammar

/-- The operators of one level of precedence, and what they build. -/
structure Operators where
  kinds : List Kind
  build : Expr → Token → Expr → Expr

/-- The levels of precedence, the one that binds weakest first. -/
def precedence : List Operators :=
  [⟨[.word .kwOr], .logical⟩,
   ⟨[.word .kwAnd], .logical⟩,
   ⟨[.mark .bangEqual, .mark .equalEqual], .binary⟩,
   ⟨[.mark .greater, .mark .greaterEqual, .mark .less, .mark .lessEqual], .binary⟩,
   ⟨[.mark .minus, .mark .plus], .binary⟩,
   ⟨[.mark .slash, .mark .star], .binary⟩]

/-! ## Expressions -/

mutual

/-- Expressions. An assignment groups to the right, and its target is a name. -/
inductive Expression : Nat → Nat → List Token → Expr → Nat → Prop
  | assignment {n k k' : Nat} {name equals : Token} {ts : List Token} {value : Expr} :
      name.kind = .name → equals.kind = .mark .equal → Expression n (k + 1) ts value k' →
      Expression (n + 1) k (name :: equals :: ts) (.assign name value k') (k' + 1)
  | operation {n k k' : Nat} {ts : List Token} {e : Expr} :
      Operation n precedence k ts e k' → Expression n k ts e k'

/-- Operations with operators of these levels. -/
inductive Operation : Nat → List Operators → Nat → List Token → Expr → Nat → Prop
  | unary {n k k' : Nat} {ts : List Token} {e : Expr} :
      Unary n k ts e k' → Operation n [] k ts e k'
  | operands {n k k' k'' : Nat} {level : Operators} {tighter : List Operators}
      {ts ts' : List Token} {lhs e : Expr} :
      Operation n tighter k ts lhs k' → Operands n level tighter lhs k' ts' e k'' →
      Operation n (level :: tighter) k (ts ++ ts') e k''

/-- Any number of operators of one level behind a left operand, each with its right operand. They
group to the left. -/
inductive Operands :
    Nat → Operators → List Operators → Expr → Nat → List Token → Expr → Nat → Prop
  | nil {n k : Nat} {level : Operators} {tighter : List Operators} {lhs : Expr} :
      Operands n level tighter lhs k [] lhs k
  | cons {n k k' k'' : Nat} {level : Operators} {tighter : List Operators} {op : Token}
      {ts ts' : List Token} {lhs rhs e : Expr} :
      op.kind ∈ level.kinds → Operation n tighter k ts rhs k' →
      Operands n level tighter (level.build lhs op rhs) k' ts' e k'' →
      Operands n level tighter lhs k (op :: (ts ++ ts')) e k''

/-- Operators with one operand, and calls. -/
inductive Unary : Nat → Nat → List Token → Expr → Nat → Prop
  | operator {n k k' : Nat} {op : Token} {ts : List Token} {arg : Expr} :
      op.kind = .mark .bang ∨ op.kind = .mark .minus → Unary n k ts arg k' →
      Unary (n + 1) k (op :: ts) (.unary op arg) k'
  | calls {n k k' k'' : Nat} {ts ts' : List Token} {callee e : Expr} :
      Primary n k ts callee k' → Calls n callee k' ts' e k'' → Unary n k (ts ++ ts') e k''

/-- Any number of argument lists behind a callee. -/
inductive Calls : Nat → Expr → Nat → List Token → Expr → Nat → Prop
  | nil {n k : Nat} {callee : Expr} : Calls n callee k [] callee k
  | cons {n k k' k'' : Nat} {left right : Token} {ts ts' : List Token} {args : List Expr}
      {callee e : Expr} :
      left.kind = .mark .leftParen → Arguments n k ts args k' → args.length ≤ 255 →
      right.kind = .mark .rightParen → Calls n (.call callee right args) k' ts' e k'' →
      Calls n callee k (left :: (ts ++ right :: ts')) e k''

/-- Arguments with commas between them; maybe none. -/
inductive Arguments : Nat → Nat → List Token → List Expr → Nat → Prop
  | none {n k : Nat} : Arguments n k [] [] k
  | some {n k k' : Nat} {ts : List Token} {args : List Expr} :
      ArgumentList n k ts args k' → Arguments n k ts args k'

/-- Arguments with commas between them, at least one. -/
inductive ArgumentList : Nat → Nat → List Token → List Expr → Nat → Prop
  | one {n k k' : Nat} {ts : List Token} {arg : Expr} :
      Expression n k ts arg k' → ArgumentList (n + 1) k ts [arg] k'
  | more {n k k' k'' : Nat} {comma : Token} {ts ts' : List Token} {arg : Expr}
      {args : List Expr} :
      Expression n k ts arg k' → comma.kind = .mark .comma →
      ArgumentList (n + 1) k' ts' args k'' →
      ArgumentList (n + 1) k (ts ++ comma :: ts') (arg :: args) k''

/-- Primary expressions. -/
inductive Primary : Nat → Nat → List Token → Expr → Nat → Prop
  | false {n k : Nat} {t : Token} :
      t.kind = .word .kwFalse → Primary n k [t] (.literal (.bool false)) k
  | true {n k : Nat} {t : Token} :
      t.kind = .word .kwTrue → Primary n k [t] (.literal (.bool true)) k
  | nil {n k : Nat} {t : Token} : t.kind = .word .kwNil → Primary n k [t] (.literal .nil) k
  | literal {n k : Nat} {t : Token} :
      t.kind = .number ∨ t.kind = .string → Primary n k [t] (.literal t.literal) k
  | name {n k : Nat} {t : Token} : t.kind = .name → Primary n k [t] (.ref t k) (k + 1)
  | grouping {n k k' : Nat} {left right : Token} {ts : List Token} {inner : Expr} :
      left.kind = .mark .leftParen → Expression n k ts inner k' →
      right.kind = .mark .rightParen →
      Primary (n + 1) k (left :: (ts ++ [right])) (.grouping inner) k'

end

/-! ## Parts of statements -/

/-- An expression, or nothing. -/
inductive Optional : Nat → Nat → List Token → Option Expr → Nat → Prop
  | none {n k : Nat} : Optional n k [] none k
  | some {n k k' : Nat} {ts : List Token} {e : Expr} :
      Expression n k ts e k' → Optional n k ts (some e) k'

/-- An expression as a statement. -/
inductive Simple : Nat → Nat → List Token → Stmt → Nat → Prop
  | mk {n k k' : Nat} {semi : Token} {ts : List Token} {e : Expr} :
      Expression n k ts e k' → semi.kind = .mark .semicolon →
      Simple n k (ts ++ [semi]) (.expr e) k'

/-- The declaration of a variable, behind its first word. -/
inductive Variable : Nat → Nat → List Token → Stmt → Nat → Prop
  | bare {n k : Nat} {name semi : Token} :
      name.kind = .name → semi.kind = .mark .semicolon →
      Variable n k [name, semi] (.var name none) k
  | initialised {n k k' : Nat} {name equals semi : Token} {ts : List Token} {e : Expr} :
      name.kind = .name → equals.kind = .mark .equal → Expression n k ts e k' →
      semi.kind = .mark .semicolon →
      Variable n k (name :: equals :: (ts ++ [semi])) (.var name (some e)) k'

/-- The first part of the header of a counted loop. -/
inductive Start : Nat → Nat → List Token → Option Stmt → Nat → Prop
  | none {n k : Nat} {semi : Token} :
      semi.kind = .mark .semicolon → Start n k [semi] none k
  | var {n k k' : Nat} {word : Token} {ts : List Token} {st : Stmt} :
      word.kind = .word .kwVar → Variable n k ts st k' → Start n k (word :: ts) (some st) k'
  | simple {n k k' : Nat} {ts : List Token} {st : Stmt} :
      Simple n k ts st k' → Start n k ts (some st) k'

/-- Parameters with commas between them, at least one. -/
inductive ParameterList : List Token → List Token → Prop
  | one {name : Token} : name.kind = .name → ParameterList [name] [name]
  | more {name comma : Token} {ts names : List Token} :
      name.kind = .name → comma.kind = .mark .comma → ParameterList ts names →
      ParameterList (name :: comma :: ts) (name :: names)

/-- Parameters with commas between them; maybe none. -/
inductive Parameters : List Token → List Token → Prop
  | none : Parameters [] []
  | some {ts names : List Token} : ParameterList ts names → Parameters ts names

/-! ## Statements -/

mutual

/-- Statements, open or not. -/
inductive Statement : Nat → Bool → Nat → List Token → Stmt → Nat → Prop
  | simple {n k k' : Nat} {ts : List Token} {st : Stmt} :
      Simple n k ts st k' → Statement n false k ts st k'
  | print {n k k' : Nat} {word semi : Token} {ts : List Token} {e : Expr} :
      word.kind = .word .kwPrint → Expression n k ts e k' → semi.kind = .mark .semicolon →
      Statement n false k (word :: (ts ++ [semi])) (.print word e) k'
  | ret {n k k' : Nat} {word semi : Token} {ts : List Token} {value : Option Expr} :
      word.kind = .word .kwReturn → Optional n k ts value k' → semi.kind = .mark .semicolon →
      Statement n false k (word :: (ts ++ [semi])) (.ret word value) k'
  | block {n k k' : Nat} {left right : Token} {ts : List Token} {body : List Stmt} :
      left.kind = .mark .leftBrace → Declarations n k ts body k' →
      right.kind = .mark .rightBrace →
      Statement n false k (left :: (ts ++ [right])) (.block body) k'
  | loop {n k k' k'' : Nat} {isOpen : Bool} {word left right : Token} {ts ts' : List Token}
      {condition : Expr} {body : Stmt} :
      word.kind = .word .kwWhile → left.kind = .mark .leftParen →
      Expression (n + 1) k ts condition k' → right.kind = .mark .rightParen →
      Statement n isOpen k' ts' body k'' →
      Statement (n + 1) isOpen k (word :: left :: (ts ++ right :: ts')) (.loop condition body) k''
  | counted {n k k₁ k₂ k₃ k' : Nat} {isOpen : Bool} {word left semi right : Token}
      {ts₁ ts₂ ts₃ ts : List Token} {start : Option Stmt} {condition step : Option Expr}
      {body : Stmt} :
      word.kind = .word .kwFor → left.kind = .mark .leftParen →
      Start (n + 1) k ts₁ start k₁ → Optional (n + 1) k₁ ts₂ condition k₂ →
      semi.kind = .mark .semicolon → Optional (n + 1) k₂ ts₃ step k₃ →
      right.kind = .mark .rightParen → Statement n isOpen k₃ ts body k' →
      Statement (n + 1) isOpen k
        (word :: left :: (ts₁ ++ (ts₂ ++ semi :: (ts₃ ++ right :: ts))))
        (.block (start.toList ++
          [.loop (condition.getD (.literal (.bool true)))
            (.block (body :: (step.map Stmt.expr).toList))])) k'
  | branch {n k k' k'' : Nat} {isOpen : Bool} {word left right : Token} {ts ts' : List Token}
      {condition : Expr} {yes : Stmt} :
      word.kind = .word .kwIf → left.kind = .mark .leftParen →
      Expression (n + 1) k ts condition k' → right.kind = .mark .rightParen →
      Statement n isOpen k' ts' yes k'' →
      Statement (n + 1) true k (word :: left :: (ts ++ right :: ts'))
        (.branch condition yes none) k''
  | branchElse {n k k₁ k₂ k' : Nat} {isOpen : Bool} {word left right other : Token}
      {ts₁ ts₂ ts₃ : List Token} {condition : Expr} {yes no : Stmt} :
      word.kind = .word .kwIf → left.kind = .mark .leftParen →
      Expression (n + 1) k ts₁ condition k₁ → right.kind = .mark .rightParen →
      Statement n false k₁ ts₂ yes k₂ → other.kind = .word .kwElse →
      Statement n isOpen k₂ ts₃ no k' →
      Statement (n + 1) isOpen k (word :: left :: (ts₁ ++ right :: (ts₂ ++ other :: ts₃)))
        (.branch condition yes (some no)) k'

/-- Declarations. -/
inductive Declared : Nat → Nat → List Token → Stmt → Nat → Prop
  | function {n k k' : Nat} {word name left right leftBrace rightBrace : Token}
      {ts ts' params : List Token} {body : List Stmt} :
      word.kind = .word .kwFun → name.kind = .name → left.kind = .mark .leftParen →
      Parameters ts params → params.length ≤ 255 → right.kind = .mark .rightParen →
      leftBrace.kind = .mark .leftBrace → Declarations n k ts' body k' →
      rightBrace.kind = .mark .rightBrace →
      Declared n k (word :: name :: left :: (ts ++ right :: leftBrace :: (ts' ++ [rightBrace])))
        (.function name params body) k'
  | var {n k k' : Nat} {word : Token} {ts : List Token} {st : Stmt} :
      word.kind = .word .kwVar → Variable n k ts st k' → Declared n k (word :: ts) st k'
  | statement {n k k' : Nat} {isOpen : Bool} {ts : List Token} {st : Stmt} :
      Statement n isOpen k ts st k' → Declared n k ts st k'

/-- Any number of declarations: the body of a block, and a program. -/
inductive Declarations : Nat → Nat → List Token → List Stmt → Nat → Prop
  | nil {n k : Nat} : Declarations n k [] [] k
  | cons {n k k' k'' : Nat} {ts ts' : List Token} {st : Stmt} {sts : List Stmt} :
      Declared n k ts st k' → Declarations (n + 1) k' ts' sts k'' →
      Declarations (n + 1) k (ts ++ ts') (st :: sts) k''

end

/-! ## Programs one behind the other -/

theorem Declarations.append {n k k' k'' : Nat} {ts ts' : List Token} {sts sts' : List Stmt} :
    Declarations n k ts sts k' → Declarations n k' ts' sts' k'' →
      Declarations n k (ts ++ ts') (sts ++ sts') k''
  | .nil, h' => h'
  | .cons hd h, h' => by
    rw [List.append_assoc]
    exact .cons hd (h.append h')

/-! ## First tokens -/

/-- What an expression may begin with. -/
def opensExpression : Kind → Bool
  | .word .kwFalse | .word .kwTrue | .word .kwNil | .number | .string | .name
  | .mark .leftParen | .mark .bang | .mark .minus => true
  | _ => false

/-- What a statement may begin with. -/
def beginsStatement : Kind → Bool
  | .word .kwFor | .word .kwIf | .word .kwPrint | .word .kwReturn | .word .kwWhile
  | .mark .leftBrace => true
  | k => opensExpression k

/-- What a declaration may begin with. -/
def beginsDeclaration : Kind → Bool
  | .word .kwFun | .word .kwVar => true
  | k => beginsStatement k

/-- There is a first token, and its kind is one of these. -/
def Begins (fits : Kind → Bool) (ts : List Token) : Prop :=
  ∃ t ts', ts = t :: ts' ∧ fits t.kind = true

theorem Begins.append {fits : Kind → Bool} {ts : List Token} (h : Begins fits ts)
    (ts' : List Token) : Begins fits (ts ++ ts') := by
  obtain ⟨t, ts₀, rfl, ht⟩ := h
  exact ⟨t, ts₀ ++ ts', rfl, ht⟩

theorem Begins.mono {fits fits' : Kind → Bool} {ts : List Token} (h : Begins fits ts)
    (hle : ∀ k, fits k = true → fits' k = true) : Begins fits' ts := by
  obtain ⟨t, ts₀, rfl, ht⟩ := h
  exact ⟨t, ts₀, rfl, hle _ ht⟩

theorem Primary.begins {n k k' : Nat} {ts : List Token} {e : Expr} (h : Primary n k ts e k') :
    Begins opensExpression ts := by
  cases h with
  | literal ht => exact ⟨_, _, rfl, by rcases ht with ht | ht <;> rw [ht] <;> rfl⟩
  | false ht | true ht | nil ht | name ht => exact ⟨_, _, rfl, by rw [ht]; rfl⟩
  | grouping ht _ _ => exact ⟨_, _, rfl, by rw [ht]; rfl⟩

theorem Unary.begins {n k k' : Nat} {ts : List Token} {e : Expr} (h : Unary n k ts e k') :
    Begins opensExpression ts := by
  cases h with
  | operator ht _ => exact ⟨_, _, rfl, by rcases ht with ht | ht <;> rw [ht] <;> rfl⟩
  | calls hp _ => exact hp.begins.append _

theorem Operation.begins {n k k' : Nat} {levels : List Operators} {ts : List Token} {e : Expr} :
    Operation n levels k ts e k' → Begins opensExpression ts
  | .unary h => h.begins
  | .operands h _ => h.begins.append _

theorem Expression.begins {n k k' : Nat} {ts : List Token} {e : Expr}
    (h : Expression n k ts e k') : Begins opensExpression ts := by
  cases h with
  | assignment hn _ _ => exact ⟨_, _, rfl, by rw [hn]; rfl⟩
  | operation h => exact h.begins

theorem ArgumentList.begins {n k k' : Nat} {ts : List Token} {args : List Expr}
    (h : ArgumentList n k ts args k') : Begins opensExpression ts := by
  cases h with
  | one h => exact h.begins
  | more h _ _ => exact h.begins.append _

theorem Simple.begins {n k k' : Nat} {ts : List Token} {st : Stmt} (h : Simple n k ts st k') :
    Begins opensExpression ts := by
  cases h with
  | mk h _ => exact h.begins.append _

theorem beginsStatement_of_opens {k : Kind} (h : opensExpression k = true) :
    beginsStatement k = true := by
  unfold beginsStatement
  split <;> first | rfl | exact h

theorem beginsDeclaration_of_begins {k : Kind} (h : beginsStatement k = true) :
    beginsDeclaration k = true := by
  unfold beginsDeclaration
  split <;> first | rfl | exact h

theorem Statement.begins {n k k' : Nat} {isOpen : Bool} {ts : List Token} {st : Stmt}
    (h : Statement n isOpen k ts st k') : Begins beginsStatement ts := by
  cases h with
  | simple h => exact h.begins.mono fun _ => beginsStatement_of_opens
  | _ => exact ⟨_, _, rfl, by simp only [*]; rfl⟩

theorem Declared.begins {n k k' : Nat} {ts : List Token} {st : Stmt}
    (h : Declared n k ts st k') : Begins beginsDeclaration ts := by
  cases h with
  | statement h => exact h.begins.mono fun _ => beginsDeclaration_of_begins
  | _ => exact ⟨_, _, rfl, by simp only [*]; rfl⟩

end Scriptlet.Grammar

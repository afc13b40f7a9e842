import Scriptlet.Proofs.Decimal.Sign
import Scriptlet.Proofs.Grammar.Meaning
import Scriptlet.Proofs.Tree.Relabeling
import Scriptlet.Tree.Same

/-!
# What is the same in trees that are the same

Trees that are the same have literals that are the same in pairs, and as many serials; the other
trees with these literals and serials are one (`Fit`). So trees that are the same become one under
relabelings that take the serials of both to the same, if their literals are one.

Literals that are the same are one unless a truth value is the same as a number, or the numbers are
the two zeros. Only a minus sign tells these apart, so in a text they are one too.
-/

namespace Scriptlet

/-! ## Literals -/

namespace Literal

/-- Whether a literal is a truth value. -/
def isTruth : Literal → Bool
  | bool _ => true
  | _ => false

/-- A literal that is no number with a minus sign. -/
def Unsigned : Literal → Prop
  | number x => Decimal.Unsigned x
  | _ => True

/-- Literals without a minus sign that are the same are one if both are truth values or neither
is. -/
theorem Unsigned.eq_of_same : ∀ {a b : Literal}, a.Unsigned → b.Unsigned → a.same b = true →
    a.isTruth = b.isTruth → a = b
  | .nil, .nil, _, _, _, _ => rfl
  | .bool _, .bool _, _, _, h, _ => congrArg bool (eq_of_beq h)
  | .number _, .number _, hx, hy, h, _ => congrArg number (Decimal.Unsigned.eq_of_beq hx hy h)
  | .string _, .string _, _, _, h, _ => congrArg string (eq_of_beq h)

theorem eq_of_same_all {l l' : List Literal} (h : List.Forall₂ (fun a b => a.same b = true) l l')
    (hl : ∀ a ∈ l, a.Unsigned) (hl' : ∀ a ∈ l', a.Unsigned)
    (htruths : l.map isTruth = l'.map isTruth) : l = l' := by
  induction h with
  | nil => rfl
  | cons hsame _ ih =>
    obtain ⟨ha, hl⟩ := List.forall_mem_cons.1 hl
    obtain ⟨ha', hl'⟩ := List.forall_mem_cons.1 hl'
    obtain ⟨htruth, htruths⟩ := List.cons.inj htruths
    rw [ha.eq_of_same ha' hsame htruth, ih hl hl' htruths]

end Literal

namespace Literals

mutual

/-- The literals of an expression. -/
def expr : Expr → List Literal
  | .literal value => [value]
  | .ref _ _ => []
  | .assign _ value _ => expr value
  | .binary lhs _ rhs | .logical lhs _ rhs => expr lhs ++ expr rhs
  | .unary _ arg => expr arg
  | .grouping inner => expr inner
  | .call callee _ args => expr callee ++ exprs args

/-- The literals of expressions. -/
def exprs : List Expr → List Literal
  | [] => []
  | e :: rest => expr e ++ exprs rest

end

/-- The literals of an expression, if there is one. -/
def optional : Option Expr → List Literal
  | none => []
  | some e => expr e

mutual

/-- The literals of a statement. -/
def stmt : Stmt → List Literal
  | .expr e | .print _ e => expr e
  | .var _ init => optional init
  | .block body => stmts body
  | .branch condition yes none => expr condition ++ stmt yes
  | .branch condition yes (some no) => expr condition ++ (stmt yes ++ stmt no)
  | .loop condition body => expr condition ++ stmt body
  | .function _ _ body => stmts body
  | .ret _ value => optional value

/-- The literals of statements. -/
def stmts : List Stmt → List Literal
  | [] => []
  | st :: rest => stmt st ++ stmts rest

end

/-! ### Literals of built trees -/

variable {P : Literal → Prop}

mutual

theorem built_expr : ∀ e : Expr, Built.expr P e → ∀ l ∈ expr e, P l
  | .literal _, h => List.forall_mem_singleton.2 h
  | .ref _ _, _ => List.forall_mem_nil _
  | .assign _ value _, h => built_expr value h
  | .binary lhs _ rhs, h =>
    List.forall_mem_append.2 ⟨built_expr lhs h.2.1, built_expr rhs h.2.2⟩
  | .logical lhs _ rhs, h => List.forall_mem_append.2 ⟨built_expr lhs h.1, built_expr rhs h.2⟩
  | .unary _ arg, h => built_expr arg h
  | .grouping inner, h => built_expr inner h
  | .call callee _ args, h =>
    List.forall_mem_append.2 ⟨built_expr callee h.1, built_exprs args h.2⟩

theorem built_exprs : ∀ es : List Expr, Built.exprs P es → ∀ l ∈ exprs es, P l
  | [], _ => List.forall_mem_nil _
  | e :: rest, h => List.forall_mem_append.2 ⟨built_expr e h.1, built_exprs rest h.2⟩

end

theorem built_optional : ∀ e : Option Expr, Built.optional P e → ∀ l ∈ optional e, P l
  | none, _ => List.forall_mem_nil _
  | some e, h => built_expr e h

mutual

theorem built_stmt : ∀ st : Stmt, Built.stmt P st → ∀ l ∈ stmt st, P l
  | .expr e, h | .print _ e, h => built_expr e h
  | .var _ init, h => built_optional init h
  | .block body, h => built_stmts body h
  | .branch condition yes none, h =>
    List.forall_mem_append.2 ⟨built_expr condition h.1, built_stmt yes h.2⟩
  | .branch condition yes (some no), h =>
    List.forall_mem_append.2 ⟨built_expr condition h.1,
      List.forall_mem_append.2 ⟨built_stmt yes h.2.1, built_stmt no h.2.2⟩⟩
  | .loop condition body, h =>
    List.forall_mem_append.2 ⟨built_expr condition h.1, built_stmt body h.2⟩
  | .function _ _ body, h => built_stmts body h
  | .ret _ value, h => built_optional value h

theorem built_stmts : ∀ sts : List Stmt, Built.stmts P sts → ∀ l ∈ stmts sts, P l
  | [], _ => List.forall_mem_nil _
  | st :: rest, h => List.forall_mem_append.2 ⟨built_stmt st h.1, built_stmts rest h.2⟩

end

end Literals

/-! ## Trees that fit -/

variable {α β γ : Type}

/-- Two trees, as they are with any serials, that differ in nothing but their literals and serials:
these are the same in pairs, and those are as many. -/
structure Fit (lits lits' : List Literal) (ks ks' : List Nat) (tree tree' : (Nat → Nat) → α) :
    Prop where
  literals : List.Forall₂ (fun a b => a.same b = true) lits lits'
  serials : ks.length = ks'.length
  tree : ∀ f f', lits = lits' → ks.map f = ks'.map f' → tree f = tree' f'

namespace Fit

variable {l l' m m' : List Literal} {k k' j j' : List Nat} {t t' : (Nat → Nat) → α}
  {u u' : (Nat → Nat) → β}

theorem leaf (a : α) : Fit [] [] [] [] (fun _ => a) fun _ => a := ⟨.nil, rfl, fun _ _ _ _ => rfl⟩

theorem literal {a b : Literal} (h : a.same b = true) (c : Literal → α) :
    Fit [a] [b] [] [] (fun _ => c a) fun _ => c b :=
  ⟨.cons h .nil, rfl, fun _ _ hl _ => congrArg c (List.singleton_inj.1 hl)⟩

theorem serial (i i' : Nat) : Fit [] [] [i] [i'] (· i) (· i') :=
  ⟨.nil, rfl, fun _ _ _ hk => List.singleton_inj.1 hk⟩

theorem map (h : Fit l l' k k' t t') (c : α → β) :
    Fit l l' k k' (fun f => c (t f)) fun f => c (t' f) :=
  ⟨h.literals, h.serials, fun f f' hl hk => congrArg c (h.tree f f' hl hk)⟩

theorem both (h : Fit l l' k k' t t') (h' : Fit m m' j j' u u') (c : α → β → γ) :
    Fit (l ++ m) (l' ++ m') (k ++ j) (k' ++ j') (fun f => c (t f) (u f))
      fun f => c (t' f) (u' f) := by
  refine ⟨List.rel_append h.literals h'.literals, ?_, fun f f' hl hk => ?_⟩
  · rw [List.length_append, List.length_append, h.serials, h'.serials]
  · obtain ⟨hl, hm⟩ := List.append_inj hl h.literals.length_eq
    rw [List.map_append, List.map_append] at hk
    obtain ⟨hk, hj⟩ := List.append_inj hk (by rw [List.length_map, List.length_map, h.serials])
    rw [h.tree f f' hl hk, h'.tree f f' hm hj]

end Fit

/-! ## Trees that are the same -/

namespace Relabeling

/-- The relabeling that leaves tokens without literals and serials as they are. -/
abbrev bare : Relabeling := .baring id

theorem bare_congr {s t : Token} (h : s.same t = true) : bare.token s = bare.token t := by
  simp only [Token.same, Bool.and_eq_true, beq_iff_eq] at h
  obtain ⟨⟨⟨⟨hkind, hlexeme⟩, -⟩, hline⟩, hoffset⟩ := h
  show Token.mk s.kind s.lexeme _ s.line s.offset = Token.mk t.kind t.lexeme _ t.line t.offset
  rw [hkind, hlexeme, hline, hoffset]

theorem fit_token {s t : Token} (h : s.same t = true) :
    Fit [] [] [] [] (fun _ => bare.token s) fun _ => bare.token t := by
  rw [bare_congr h]
  exact .leaf _

theorem fit_tokens : ∀ {ss ts : List Token}, Token.sameAll ss ts = true →
    Fit [] [] [] [] (fun _ => ss.map bare.token) fun _ => ts.map bare.token
  | [], [], _ => .leaf []
  | _ :: _, _ :: _, h => by
    obtain ⟨hs, hss⟩ := Bool.and_eq_true_iff.1 h
    exact (fit_token hs).both (fit_tokens hss) List.cons

mutual

theorem fit_expr : ∀ e e' : Expr, e.same e' = true →
    Fit (Literals.expr e) (Literals.expr e') (Serials.expr e) (Serials.expr e')
      (fun f => (bare.through f).expr e) fun f => (bare.through f).expr e'
  | .literal a, e', h => by
    cases e' with
    | literal b => exact .literal h Expr.literal
    | _ => cases h
  | .ref n k, e', h => by
    cases e' with
    | ref m j => exact (fit_token h).both (.serial k j) Expr.ref
    | _ => cases h
  | .assign n a k, e', h => by
    cases e' with
    | assign m b j =>
      obtain ⟨hn, ha⟩ := Bool.and_eq_true_iff.1 h
      have hvalue := (fit_expr a b ha).both (.serial k j) fun a k n => Expr.assign n a k
      rw [List.append_nil, List.append_nil] at hvalue
      exact (fit_token hn).both hvalue fun n assign => assign n
    | _ => cases h
  | .binary a o b, e', h => by
    cases e' with
    | binary c p d =>
      obtain ⟨h, hb⟩ := Bool.and_eq_true_iff.1 h
      obtain ⟨ha, ho⟩ := Bool.and_eq_true_iff.1 h
      have hsides := (fit_expr a c ha).both (fit_expr b d hb) fun a b o => Expr.binary a o b
      exact (fit_token ho).both hsides fun o binary => binary o
    | _ => cases h
  | .logical a o b, e', h => by
    cases e' with
    | logical c p d =>
      obtain ⟨h, hb⟩ := Bool.and_eq_true_iff.1 h
      obtain ⟨ha, ho⟩ := Bool.and_eq_true_iff.1 h
      have hsides := (fit_expr a c ha).both (fit_expr b d hb) fun a b o => Expr.logical a o b
      exact (fit_token ho).both hsides fun o logical => logical o
    | _ => cases h
  | .unary o a, e', h => by
    cases e' with
    | unary p b =>
      obtain ⟨ho, ha⟩ := Bool.and_eq_true_iff.1 h
      exact (fit_token ho).both (fit_expr a b ha) Expr.unary
    | _ => cases h
  | .grouping a, e', h => by
    cases e' with
    | grouping b => exact (fit_expr a b h).map Expr.grouping
    | _ => cases h
  | .call c p as, e', h => by
    cases e' with
    | call d q bs =>
      obtain ⟨h, has⟩ := Bool.and_eq_true_iff.1 h
      obtain ⟨hc, hp⟩ := Bool.and_eq_true_iff.1 h
      have hparts := (fit_expr c d hc).both (fit_exprs as bs has) fun c as p => Expr.call c p as
      exact (fit_token hp).both hparts fun p call => call p
    | _ => cases h

theorem fit_exprs : ∀ es es' : List Expr, Expr.sameAll es es' = true →
    Fit (Literals.exprs es) (Literals.exprs es') (Serials.exprs es) (Serials.exprs es')
      (fun f => (bare.through f).exprs es) fun f => (bare.through f).exprs es'
  | [], [], _ => .leaf []
  | a :: as, b :: bs, h => by
    obtain ⟨ha, has⟩ := Bool.and_eq_true_iff.1 h
    exact (fit_expr a b ha).both (fit_exprs as bs has) List.cons

end

theorem fit_optional : ∀ e e' : Option Expr, Expr.sameOption e e' = true →
    Fit (Literals.optional e) (Literals.optional e') (Serials.optional e) (Serials.optional e')
      (fun f => e.map (bare.through f).expr) fun f => e'.map (bare.through f).expr
  | none, none, _ => .leaf none
  | some a, some b, h => (fit_expr a b h).map some

mutual

theorem fit_stmt : ∀ st st' : Stmt, st.same st' = true →
    Fit (Literals.stmt st) (Literals.stmt st') (Serials.stmt st) (Serials.stmt st')
      (fun f => (bare.through f).stmt st) fun f => (bare.through f).stmt st'
  | .expr a, st', h => by
    cases st' with
    | expr b => exact (fit_expr a b h).map Stmt.expr
    | _ => cases h
  | .print k a, st', h => by
    cases st' with
    | print l b =>
      obtain ⟨hk, ha⟩ := Bool.and_eq_true_iff.1 h
      exact (fit_token hk).both (fit_expr a b ha) Stmt.print
    | _ => cases h
  | .var n a, st', h => by
    cases st' with
    | var m b =>
      obtain ⟨hn, ha⟩ := Bool.and_eq_true_iff.1 h
      exact (fit_token hn).both (fit_optional a b ha) Stmt.var
    | _ => cases h
  | .block as, st', h => by
    cases st' with
    | block bs => exact (fit_stmts as bs h).map Stmt.block
    | _ => cases h
  | .branch c y none, st', h => by
    cases st' with
    | branch d z n =>
      cases n with
      | none =>
        obtain ⟨hc, hy⟩ := Bool.and_eq_true_iff.1 h
        exact (fit_expr c d hc).both (fit_stmt y z hy) fun c y => Stmt.branch c y none
      | some _ => cases h
    | _ => cases h
  | .branch c y (some n), st', h => by
    cases st' with
    | branch d z o =>
      cases o with
      | none => cases h
      | some o =>
        obtain ⟨h, hn⟩ := Bool.and_eq_true_iff.1 h
        obtain ⟨hc, hy⟩ := Bool.and_eq_true_iff.1 h
        have hboth := (fit_stmt y z hy).both (fit_stmt n o hn) fun y n c => Stmt.branch c y (some n)
        exact (fit_expr c d hc).both hboth fun c branch => branch c
    | _ => cases h
  | .loop c a, st', h => by
    cases st' with
    | loop d b =>
      obtain ⟨hc, ha⟩ := Bool.and_eq_true_iff.1 h
      exact (fit_expr c d hc).both (fit_stmt a b ha) Stmt.loop
    | _ => cases h
  | .function n ps as, st', h => by
    cases st' with
    | function m qs bs =>
      obtain ⟨h, has⟩ := Bool.and_eq_true_iff.1 h
      obtain ⟨hn, hps⟩ := Bool.and_eq_true_iff.1 h
      exact ((fit_token hn).both (fit_tokens hps) Stmt.function).both (fit_stmts as bs has)
        fun function as => function as
    | _ => cases h
  | .ret k a, st', h => by
    cases st' with
    | ret l b =>
      obtain ⟨hk, ha⟩ := Bool.and_eq_true_iff.1 h
      exact (fit_token hk).both (fit_optional a b ha) Stmt.ret
    | _ => cases h

theorem fit_stmts : ∀ sts sts' : List Stmt, Stmt.sameAll sts sts' = true →
    Fit (Literals.stmts sts) (Literals.stmts sts') (Serials.stmts sts) (Serials.stmts sts')
      (fun f => (bare.through f).stmts sts) fun f => (bare.through f).stmts sts'
  | [], [], _ => .leaf []
  | a :: as, b :: bs, h => by
    obtain ⟨ha, has⟩ := Bool.and_eq_true_iff.1 h
    exact (fit_stmt a b ha).both (fit_stmts as bs has) List.cons

end

end Relabeling

end Scriptlet

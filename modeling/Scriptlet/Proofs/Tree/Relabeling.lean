import Scriptlet.Proofs.Tree.Wellformed

/-!
# Other serials in a tree

A relabeling puts other serials in the place of those of a tree, and tokens that look the same in
the place of its tokens: only the literal of a token may change. So it keeps all that a tree says to
a reader of the program, and changes what tells its references apart.

A tree under two relabelings with the same tokens is the same if they agree on its own serials
(`Relabeling.stmts_congr`).
-/

namespace Scriptlet

/-- Puts tokens and serials in the place of others. -/
structure Relabeling where
  token : Token → Token
  serial : Nat → Nat
  look : ∀ t, token t = { t with literal := (token t).literal }

namespace Relabeling

/-- The relabeling that keeps tokens. -/
def keeping (serial : Nat → Nat) : Relabeling := ⟨id, serial, fun _ => rfl⟩

/-- The relabeling that leaves tokens without literals. -/
def baring (serial : Nat → Nat) : Relabeling :=
  ⟨fun t => { t with literal := .nil }, serial, fun _ => rfl⟩

/-- The relabeling of the same tokens with these serials. -/
def through (g : Relabeling) (serial : Nat → Nat) : Relabeling := { g with serial }

variable (g : Relabeling)

@[simp] theorem kind_token (t : Token) : (g.token t).kind = t.kind := by rw [g.look]

@[simp] theorem lexeme_token (t : Token) : (g.token t).lexeme = t.lexeme := by rw [g.look]

@[simp] theorem line_token (t : Token) : (g.token t).line = t.line := by rw [g.look]

@[simp] theorem offset_token (t : Token) : (g.token t).offset = t.offset := by rw [g.look]

mutual

/-- Relabels an expression. -/
def expr : Expr → Expr
  | .literal value => .literal value
  | .ref name serial => .ref (g.token name) (g.serial serial)
  | .assign name value serial => .assign (g.token name) (expr value) (g.serial serial)
  | .binary lhs op rhs => .binary (expr lhs) (g.token op) (expr rhs)
  | .logical lhs op rhs => .logical (expr lhs) (g.token op) (expr rhs)
  | .unary op arg => .unary (g.token op) (expr arg)
  | .grouping inner => .grouping (expr inner)
  | .call callee paren args => .call (expr callee) (g.token paren) (exprs args)

/-- Relabels expressions. -/
def exprs : List Expr → List Expr
  | [] => []
  | e :: rest => expr e :: exprs rest

end

mutual

/-- Relabels a statement. -/
def stmt : Stmt → Stmt
  | .expr e => .expr (g.expr e)
  | .print keyword e => .print (g.token keyword) (g.expr e)
  | .var name init => .var (g.token name) (init.map g.expr)
  | .block body => .block (stmts body)
  | .branch condition yes none => .branch (g.expr condition) (stmt yes) none
  | .branch condition yes (some no) => .branch (g.expr condition) (stmt yes) (some (stmt no))
  | .loop condition body => .loop (g.expr condition) (stmt body)
  | .function name params body => .function (g.token name) (params.map g.token) (stmts body)
  | .ret keyword value => .ret (g.token keyword) (value.map g.expr)

/-- Relabels statements. -/
def stmts : List Stmt → List Stmt
  | [] => []
  | st :: rest => stmt st :: stmts rest

end

/-! ## One relabeling behind another -/

mutual

theorem expr_keeping (f f' : Nat → Nat) :
    ∀ e : Expr, (keeping f).expr ((keeping f').expr e) = (keeping (f ∘ f')).expr e
  | .literal _ | .ref _ _ => rfl
  | .assign name value k => congrArg (Expr.assign name · (f (f' k))) (expr_keeping f f' value)
  | .binary lhs op rhs =>
    congrArg₂ (Expr.binary · op ·) (expr_keeping f f' lhs) (expr_keeping f f' rhs)
  | .logical lhs op rhs =>
    congrArg₂ (Expr.logical · op ·) (expr_keeping f f' lhs) (expr_keeping f f' rhs)
  | .unary op arg => congrArg (Expr.unary op) (expr_keeping f f' arg)
  | .grouping inner => congrArg Expr.grouping (expr_keeping f f' inner)
  | .call callee paren args =>
    congrArg₂ (Expr.call · paren ·) (expr_keeping f f' callee) (exprs_keeping f f' args)

theorem exprs_keeping (f f' : Nat → Nat) :
    ∀ es : List Expr, (keeping f).exprs ((keeping f').exprs es) = (keeping (f ∘ f')).exprs es
  | [] => rfl
  | e :: rest => congrArg₂ List.cons (expr_keeping f f' e) (exprs_keeping f f' rest)

end

theorem optional_keeping (f f' : Nat → Nat) (e : Option Expr) :
    (e.map (keeping f').expr).map (keeping f).expr = e.map (keeping (f ∘ f')).expr := by
  cases e with
  | none => rfl
  | some e => exact congrArg some (expr_keeping f f' e)

mutual

theorem stmt_keeping (f f' : Nat → Nat) :
    ∀ st : Stmt, (keeping f).stmt ((keeping f').stmt st) = (keeping (f ∘ f')).stmt st
  | .expr e => congrArg Stmt.expr (expr_keeping f f' e)
  | .print keyword e => congrArg (Stmt.print keyword) (expr_keeping f f' e)
  | .var name init => congrArg (Stmt.var name) (optional_keeping f f' init)
  | .block body => congrArg Stmt.block (stmts_keeping f f' body)
  | .branch condition yes none =>
    congrArg₂ (Stmt.branch · · none) (expr_keeping f f' condition) (stmt_keeping f f' yes)
  | .branch condition yes (some no) => by
    show Stmt.branch _ _ (some _) = Stmt.branch _ _ (some _)
    rw [expr_keeping f f' condition, stmt_keeping f f' yes, stmt_keeping f f' no]
  | .loop condition body =>
    congrArg₂ Stmt.loop (expr_keeping f f' condition) (stmt_keeping f f' body)
  | .function name params body => by
    show Stmt.function name ((params.map id).map id) _ = Stmt.function name (params.map id) _
    rw [stmts_keeping f f' body, List.map_id, List.map_id]
  | .ret keyword value => congrArg (Stmt.ret keyword) (optional_keeping f f' value)

theorem stmts_keeping (f f' : Nat → Nat) :
    ∀ sts : List Stmt, (keeping f).stmts ((keeping f').stmts sts) = (keeping (f ∘ f')).stmts sts
  | [] => rfl
  | st :: rest => congrArg₂ List.cons (stmt_keeping f f' st) (stmts_keeping f f' rest)

end

/-! ## Relabelings that agree -/

variable {g} {f f' : Nat → Nat}

mutual

theorem expr_congr : ∀ e : Expr, (∀ k ∈ Serials.expr e, f k = f' k) →
    (g.through f).expr e = (g.through f').expr e
  | .literal _, _ => rfl
  | .ref name k, h => congrArg (Expr.ref (g.token name)) (h k (List.mem_singleton_self k))
  | .assign name value k, h => by
    obtain ⟨hvalue, hk⟩ := List.forall_mem_append.1 h
    exact congrArg₂ (Expr.assign (g.token name)) (expr_congr value hvalue)
      (hk k (List.mem_singleton_self k))
  | .binary lhs op rhs, h => by
    obtain ⟨hlhs, hrhs⟩ := List.forall_mem_append.1 h
    exact congrArg₂ (Expr.binary · (g.token op) ·) (expr_congr lhs hlhs) (expr_congr rhs hrhs)
  | .logical lhs op rhs, h => by
    obtain ⟨hlhs, hrhs⟩ := List.forall_mem_append.1 h
    exact congrArg₂ (Expr.logical · (g.token op) ·) (expr_congr lhs hlhs) (expr_congr rhs hrhs)
  | .unary op arg, h => congrArg (Expr.unary (g.token op)) (expr_congr arg h)
  | .grouping inner, h => congrArg Expr.grouping (expr_congr inner h)
  | .call callee paren args, h => by
    obtain ⟨hcallee, hargs⟩ := List.forall_mem_append.1 h
    exact congrArg₂ (Expr.call · (g.token paren) ·) (expr_congr callee hcallee)
      (exprs_congr args hargs)

theorem exprs_congr : ∀ es : List Expr, (∀ k ∈ Serials.exprs es, f k = f' k) →
    (g.through f).exprs es = (g.through f').exprs es
  | [], _ => rfl
  | e :: rest, h => by
    obtain ⟨he, hrest⟩ := List.forall_mem_append.1 h
    exact congrArg₂ List.cons (expr_congr e he) (exprs_congr rest hrest)

end

theorem optional_congr (e : Option Expr) (h : ∀ k ∈ Serials.optional e, f k = f' k) :
    e.map (g.through f).expr = e.map (g.through f').expr := by
  cases e with
  | none => rfl
  | some e => exact congrArg some (expr_congr e h)

mutual

theorem stmt_congr : ∀ st : Stmt, (∀ k ∈ Serials.stmt st, f k = f' k) →
    (g.through f).stmt st = (g.through f').stmt st
  | .expr e, h => congrArg Stmt.expr (expr_congr e h)
  | .print keyword e, h => congrArg (Stmt.print (g.token keyword)) (expr_congr e h)
  | .var name init, h => congrArg (Stmt.var (g.token name)) (optional_congr init h)
  | .block body, h => congrArg Stmt.block (stmts_congr body h)
  | .branch condition yes none, h => by
    obtain ⟨hcondition, hyes⟩ := List.forall_mem_append.1 h
    exact congrArg₂ (Stmt.branch · · none) (expr_congr condition hcondition) (stmt_congr yes hyes)
  | .branch condition yes (some no), h => by
    obtain ⟨hcondition, hboth⟩ := List.forall_mem_append.1 h
    obtain ⟨hyes, hno⟩ := List.forall_mem_append.1 hboth
    show Stmt.branch _ _ (some _) = Stmt.branch _ _ (some _)
    rw [expr_congr condition hcondition, stmt_congr yes hyes, stmt_congr no hno]
  | .loop condition body, h => by
    obtain ⟨hcondition, hbody⟩ := List.forall_mem_append.1 h
    exact congrArg₂ Stmt.loop (expr_congr condition hcondition) (stmt_congr body hbody)
  | .function name params body, h =>
    congrArg (Stmt.function (g.token name) (params.map g.token)) (stmts_congr body h)
  | .ret keyword value, h => congrArg (Stmt.ret (g.token keyword)) (optional_congr value h)

theorem stmts_congr : ∀ sts : List Stmt, (∀ k ∈ Serials.stmts sts, f k = f' k) →
    (g.through f).stmts sts = (g.through f').stmts sts
  | [], _ => rfl
  | st :: rest, h => by
    obtain ⟨hst, hrest⟩ := List.forall_mem_append.1 h
    exact congrArg₂ List.cons (stmt_congr st hst) (stmts_congr rest hrest)

end

end Relabeling

end Scriptlet

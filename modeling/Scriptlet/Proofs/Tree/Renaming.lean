import Mathlib.Logic.Equiv.Basic
import Scriptlet.Proofs.Binding.Distinct
import Scriptlet.Proofs.Tree.Alike

/-!
# Renaming a local variable

A variable of one region gets another name: the token that declares it, and the tokens of the
references that mean it (`Renaming.program`). A reference means it if it has the old name and its
depth leads to the region. Regions are told apart by their numbers, in the order in which they
begin.

If the new name occurs nowhere, and no function of the region has the old one, the renamed program
is alike (`Renaming.stmts_alike`).
-/

namespace Scriptlet

/-! ## Names that occur -/

namespace Names

mutual

/-- The tokens of the references of an expression. -/
def expr : Expr → List Token
  | .literal _ => []
  | .ref name _ => [name]
  | .assign name value _ => name :: expr value
  | .binary lhs _ rhs | .logical lhs _ rhs => expr lhs ++ expr rhs
  | .unary _ arg => expr arg
  | .grouping inner => expr inner
  | .call callee _ args => expr callee ++ exprs args

/-- The tokens of the references of expressions. -/
def exprs : List Expr → List Token
  | [] => []
  | e :: rest => expr e ++ exprs rest

end

/-- The tokens of the references of an expression, if there is one. -/
def optional : Option Expr → List Token
  | none => []
  | some e => expr e

mutual

/-- All names of a statement: those that it declares, and those of its references. -/
def stmt : Stmt → List Token
  | .expr e | .print _ e => expr e
  | .var name init => name :: optional init
  | .block body => stmts body
  | .branch condition yes none => expr condition ++ stmt yes
  | .branch condition yes (some no) => expr condition ++ (stmt yes ++ stmt no)
  | .loop condition body => expr condition ++ stmt body
  | .function name params body => name :: (params ++ stmts body)
  | .ret _ value => optional value

/-- All names of statements. -/
def stmts : List Stmt → List Token
  | [] => []
  | st :: rest => stmt st ++ stmts rest

end

end Names

/-! ## Variables and functions of a region -/

/-- The name that a statement declares for a variable. -/
def Stmt.variable? : Stmt → Option Token
  | .var name _ => some name
  | _ => none

/-- The name that a statement declares for a function. -/
def Stmt.function? : Stmt → Option Token
  | .function name _ _ => some name
  | _ => none

namespace Region

/-- The parameters and variables that a region declares. -/
def locals : Region → List Token
  | block body => body.filterMap Stmt.variable?
  | function d => d.params ++ d.body.filterMap Stmt.variable?

/-- The functions that a region declares. -/
def functions : Region → List Token
  | block body => body.filterMap Stmt.function?
  | function d => d.body.filterMap Stmt.function?

theorem ne_of_nodup {sts : List Stmt} (h : ((sts.filterMap Stmt.declares?).map Token.lexeme).Nodup)
    {v f : Token} (hv : v ∈ sts.filterMap Stmt.variable?) (hf : f ∈ sts.filterMap Stmt.function?) :
    f.lexeme ≠ v.lexeme := by
  have hvariable : ∀ {sts : List Stmt}, v ∈ sts.filterMap Stmt.variable? →
      v ∈ sts.filterMap Stmt.declares? := by
    intro sts hv
    obtain ⟨st, hst, hv⟩ := List.mem_filterMap.1 hv
    refine List.mem_filterMap.2 ⟨st, hst, ?_⟩
    cases st with
    | var _ _ => exact hv
    | _ => cases hv
  have hfunction : ∀ {sts : List Stmt}, f ∈ sts.filterMap Stmt.function? →
      f ∈ sts.filterMap Stmt.declares? := by
    intro sts hf
    obtain ⟨st, hst, hf⟩ := List.mem_filterMap.1 hf
    refine List.mem_filterMap.2 ⟨st, hst, ?_⟩
    cases st with
    | function _ _ _ => exact hf
    | _ => cases hf
  induction sts with
  | nil => cases hv
  | cons st rest ih =>
    cases st with
    | var name init =>
      have hcons := List.nodup_cons.1 h
      rcases List.mem_cons.1 hv with rfl | hv
      · exact fun heq => hcons.1 (heq ▸ List.mem_map_of_mem (hfunction hf))
      · exact ih hcons.2 hv hf
    | function name params body =>
      have hcons := List.nodup_cons.1 h
      rcases List.mem_cons.1 hf with rfl | hf
      · exact fun heq => hcons.1 (heq ▸ List.mem_map_of_mem (hvariable hv))
      · exact ih hcons.2 hv hf
    | _ => exact ih h hv hf

/-- Where no name is declared twice, what a variable is called no function is. -/
theorem Distinct.functions_ne {r : Region} (h : r.Distinct) {v f : Token} (hv : v ∈ r.locals)
    (hf : f ∈ r.functions) : f.lexeme ≠ v.lexeme := by
  cases r with
  | block body => exact ne_of_nodup h hv hf
  | function d =>
    have hnodup : (d.params.map Token.lexeme ++
        (d.body.filterMap Stmt.declares?).map Token.lexeme).Nodup := by
      rw [← List.map_append]
      exact h
    obtain ⟨-, hbody, happart⟩ := List.nodup_append.1 hnodup
    rcases List.mem_append.1 hv with hv | hv
    · obtain ⟨st, hst, hf⟩ := List.mem_filterMap.1 hf
      have hmem : f ∈ d.body.filterMap Stmt.declares? := by
        refine List.mem_filterMap.2 ⟨st, hst, ?_⟩
        cases st with
        | function _ _ _ => exact hf
        | _ => cases hf
      exact fun heq => happart _ (List.mem_map_of_mem hv) _ (List.mem_map_of_mem hmem) heq.symm
    · exact ne_of_nodup hbody hv hf

end Region

/-! ## Renaming -/

/-- A variable gets another name; `depth` says how far out references lead. -/
structure Renaming where
  old : String
  new : String
  depth : Nat → Option Nat

namespace Renaming

variable (r : Renaming)

/-- Renames a token under a mark. -/
def token (b : Bool) (t : Token) : Token :=
  if b = true ∧ t.lexeme = r.old then { t with lexeme := r.new } else t

mutual

/-- Renames the references of an expression that lead to a marked region. -/
def expr (marks : List Bool) : Expr → Expr
  | .literal value => .literal value
  | .ref name serial => .ref (r.token (Likeness.mark marks (r.depth serial)) name) serial
  | .assign name value serial =>
    .assign (r.token (Likeness.mark marks (r.depth serial)) name) (expr marks value) serial
  | .binary lhs op rhs => .binary (expr marks lhs) op (expr marks rhs)
  | .logical lhs op rhs => .logical (expr marks lhs) op (expr marks rhs)
  | .unary op arg => .unary op (expr marks arg)
  | .grouping inner => .grouping (expr marks inner)
  | .call callee paren args => .call (expr marks callee) paren (exprs marks args)

/-- The same for expressions. -/
def exprs (marks : List Bool) : List Expr → List Expr
  | [] => []
  | e :: rest => expr marks e :: exprs marks rest

end

mutual

/-- Renames in a statement. `target` tells of the regions of the statement, by their numbers, which
are marked, and `marks` of those around. -/
def stmt (marks : List Bool) (target : Nat → Bool) : Stmt → Stmt
  | .expr e => .expr (r.expr marks e)
  | .print keyword e => .print keyword (r.expr marks e)
  | .var name init => .var (r.token (marks.head?.getD false) name) (init.map (r.expr marks))
  | .block body => .block (stmts (target 0 :: marks) (fun i => target (i + 1)) body)
  | .branch condition yes none => .branch (r.expr marks condition) (stmt marks target yes) none
  | .branch condition yes (some no) =>
    .branch (r.expr marks condition) (stmt marks target yes)
      (some (stmt marks (fun i => target (i + (Regions.stmt yes).length)) no))
  | .loop condition body => .loop (r.expr marks condition) (stmt marks target body)
  | .function name params body =>
    .function name (params.map (r.token (target 0)))
      (stmts (target 0 :: marks) (fun i => target (i + 1)) body)
  | .ret keyword value => .ret keyword (value.map (r.expr marks))

/-- Renames in statements. -/
def stmts (marks : List Bool) (target : Nat → Bool) : List Stmt → List Stmt
  | [] => []
  | st :: rest =>
    stmt marks target st :: stmts marks (fun i => target (i + (Regions.stmt st).length)) rest

end

/-- Renames a variable of the region with this number. -/
def program (number : Nat) (program : List Stmt) : List Stmt := r.stmts [] (· == number) program

/-! ## The renamed program is alike -/

/-- What a renaming is a likeness of. -/
def likeness : Likeness where
  occurs n := n ≠ r.new
  name b n := if b then Equiv.swap r.old r.new n else n
  token b t t' := t' = if b then { t with lexeme := Equiv.swap r.old r.new t.lexeme } else t
  depth := r.depth
  name_false _ := rfl
  injective b := by
    cases b
    · exact fun _ _ h => h
    · exact (Equiv.swap r.old r.new).injective
  apart := by
    intro b b' n n' hn hn' heq
    have hswap : ∀ {n}, n ≠ r.new → Equiv.swap r.old r.new n = if n = r.old then r.new else n := by
      intro n hn
      rw [Equiv.swap_apply_def, if_neg hn]
    cases b <;> cases b' <;> simp only [Bool.false_eq_true, if_false, if_true] at heq
    · exact heq
    · rw [hswap hn'] at heq
      split at heq
      · exact absurd heq hn
      · exact heq
    · rw [hswap hn] at heq
      split at heq
      · exact absurd heq.symm hn'
      · exact heq
    · exact (Equiv.swap r.old r.new).injective heq
  kind := by
    rintro b t t' rfl
    cases b <;> rfl
  lexeme := by
    rintro b t t' rfl
    cases b <;> rfl

variable {r} {marks : List Bool}

theorem named_token (b : Bool) {t : Token} (ht : t.lexeme ≠ r.new) :
    r.likeness.Named b t (r.token b t) := by
  refine ⟨?_, ht⟩
  show r.token b t = if b then _ else _
  unfold token
  cases b with
  | false => simp
  | true =>
    by_cases hold : t.lexeme = r.old
    · rw [if_pos ⟨rfl, hold⟩, hold, Equiv.swap_apply_left]
      rfl
    · rw [if_neg fun h => hold h.2, Equiv.swap_apply_of_ne_of_ne hold ht]
      rfl

/-- None of these names is the new one. -/
def Avoids (r : Renaming) (names : List Token) : Prop := ∀ t ∈ names, t.lexeme ≠ r.new

theorem Avoids.left {ts ts' : List Token} (h : r.Avoids (ts ++ ts')) : r.Avoids ts :=
  fun t ht => h t (List.mem_append_left _ ht)

theorem Avoids.right {ts ts' : List Token} (h : r.Avoids (ts ++ ts')) : r.Avoids ts' :=
  fun t ht => h t (List.mem_append_right _ ht)

theorem Avoids.head {t : Token} {ts : List Token} (h : r.Avoids (t :: ts)) : t.lexeme ≠ r.new :=
  h t List.mem_cons_self

theorem Avoids.tail {t : Token} {ts : List Token} (h : r.Avoids (t :: ts)) : r.Avoids ts :=
  fun t' ht => h t' (List.mem_cons_of_mem _ ht)

mutual

theorem expr_alike : ∀ e : Expr, r.Avoids (Names.expr e) →
    Expr.Alike r.likeness marks e (r.expr marks e)
  | .literal _, _ => .literal
  | .ref _ _, h => .ref (named_token _ h.head)
  | .assign _ value _, h => .assign (named_token _ h.head) (expr_alike value h.tail)
  | .binary lhs _ rhs, h => .binary (expr_alike lhs h.left) rfl (expr_alike rhs h.right)
  | .logical lhs _ rhs, h => .logical (expr_alike lhs h.left) rfl (expr_alike rhs h.right)
  | .unary _ arg, h => .unary rfl (expr_alike arg h)
  | .grouping inner, h => .grouping (expr_alike inner h)
  | .call callee _ args, h => .call (expr_alike callee h.left) rfl (exprs_alike args h.right)

theorem exprs_alike : ∀ es : List Expr, r.Avoids (Names.exprs es) →
    Exprs.Alike r.likeness marks es (r.exprs marks es)
  | [], _ => .nil
  | e :: rest, h => .cons (expr_alike e h.left) (exprs_alike rest h.right)

end

theorem optional_alike {e : Option Expr} (h : r.Avoids (Names.optional e)) :
    Option.Rel (Expr.Alike r.likeness marks) e (e.map (r.expr marks)) := by
  cases e with
  | none => exact .none
  | some e => exact .some (expr_alike e h)

/-- No function that a marked region declares has the old name. -/
def Spares (r : Renaming) (target : Nat → Bool) (regions : List Region) : Prop :=
  ∀ i region, regions[i]? = some region → target i = true →
    ∀ f ∈ region.functions, f.lexeme ≠ r.old

section Spares

variable {target : Nat → Bool} {regions regions' : List Region} {region : Region}

theorem Spares.left (h : r.Spares target (regions ++ regions')) : r.Spares target regions := by
  intro i region hi
  refine h i region ?_
  rw [List.getElem?_append_left (List.getElem?_eq_some_iff.1 hi).1, hi]

theorem Spares.right (h : r.Spares target (regions ++ regions')) :
    r.Spares (fun i => target (i + regions.length)) regions' := by
  intro i region hi
  refine h (i + regions.length) region ?_
  rw [List.getElem?_append_right (Nat.le_add_left ..), Nat.add_sub_cancel, hi]

theorem Spares.head (h : r.Spares target (region :: regions)) :
    target 0 = true → ∀ f ∈ region.functions, f.lexeme ≠ r.old := h 0 region rfl

theorem Spares.tail (h : r.Spares target (region :: regions)) :
    r.Spares (fun i => target (i + 1)) regions := fun i region hi => h (i + 1) region hi

end Spares

/-- A statement that declares nothing is no function. -/
theorem not_function {st : Stmt} (h : st.declares? = none) :
    marks.head?.getD false = true → ∀ f, st.function? = some f → f.lexeme ≠ r.old := by
  intro _ f hf
  cases st with
  | function _ _ _ => cases h
  | _ => cases hf

/-- A name that is not the old one stays as it is. -/
theorem named_self {b : Bool} {t : Token} (ht : t.lexeme ≠ r.new)
    (hold : b = true → t.lexeme ≠ r.old) : r.likeness.Named b t t := by
  have h := named_token b ht
  unfold token at h
  rw [if_neg fun hc => hold hc.1 hc.2] at h
  exact h

theorem params_alike (b : Bool) {params : List Token} (h : r.Avoids params) :
    List.Forall₂ (r.likeness.Named b) params (params.map (r.token b)) := by
  induction params with
  | nil => exact .nil
  | cons p rest ih => exact .cons (named_token b h.head) (ih h.tail)

mutual

theorem stmt_alike : ∀ (st : Stmt) (marks : List Bool) (target : Nat → Bool), Shape.stmt st →
    r.Avoids (Names.stmt st) → r.Spares target (Regions.stmt st) →
    (marks.head?.getD false = true → ∀ f, st.function? = some f → f.lexeme ≠ r.old) →
    Stmt.Alike r.likeness marks st (r.stmt marks target st)
  | .expr e, _, _, _, h, _, _ => .expr (expr_alike e h)
  | .print _ e, _, _, _, h, _, _ => .print (expr_alike e h)
  | .var _ _, _, _, _, h, _, _ => .var (named_token _ h.head) (optional_alike h.tail)
  | .block body, marks, target, hshape, h, hspares, _ =>
    .block (target 0) (stmts_alike body _ _ hshape h hspares.tail hspares.head)
  | .branch condition yes none, marks, target, hshape, h, hspares, _ => by
    refine .branch (expr_alike condition h.left) ?_
    exact stmt_alike yes _ _ hshape.1 h.right hspares (not_function hshape.2)
  | .branch condition yes (some no), marks, target, hshape, h, hspares, _ => by
    refine .branches (expr_alike condition h.left) ?_ ?_
    · exact stmt_alike yes _ _ hshape.1.1 h.right.left hspares.left (not_function hshape.1.2)
    · exact stmt_alike no _ _ hshape.2.1 h.right.right hspares.right (not_function hshape.2.2)
  | .loop condition body, marks, target, hshape, h, hspares, _ => by
    refine .loop (expr_alike condition h.left) ?_
    exact stmt_alike body _ _ hshape.1 h.right hspares (not_function hshape.2)
  | .function name params body, marks, target, hshape, h, hspares, hhead => by
    have hname := named_self h.head fun hb => hhead hb name rfl
    refine .function (target 0) hname rfl (params_alike _ h.tail.left) ?_
    exact stmts_alike body _ _ hshape h.tail.right hspares.tail hspares.head
  | .ret _ _, _, _, _, h, _, _ => .ret (optional_alike h)

theorem stmts_alike : ∀ (sts : List Stmt) (marks : List Bool) (target : Nat → Bool),
    Shape.stmts sts → r.Avoids (Names.stmts sts) → r.Spares target (Regions.stmts sts) →
    (marks.head?.getD false = true → ∀ f ∈ sts.filterMap Stmt.function?, f.lexeme ≠ r.old) →
    Stmts.Alike r.likeness marks sts (r.stmts marks target sts)
  | [], _, _, _, _, _, _ => .nil
  | st :: rest, marks, target, hshape, h, hspares, hhead => by
    refine .cons (stmt_alike st _ _ hshape.1 h.left hspares.left ?_)
      (stmts_alike rest _ _ hshape.2 h.right hspares.right ?_)
    · intro hb f hf
      exact hhead hb f (List.mem_filterMap.2 ⟨st, List.mem_cons_self, hf⟩)
    · intro hb f hf
      obtain ⟨st', hst', hf⟩ := List.mem_filterMap.1 hf
      exact hhead hb f (List.mem_filterMap.2 ⟨st', List.mem_cons_of_mem _ hst', hf⟩)

end

end Renaming

end Scriptlet

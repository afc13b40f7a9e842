import Scriptlet.Proofs.Binding.Sites
import Scriptlet.Proofs.Table

/-!
# What depths count

**The depth of a reference is the number of blocks and functions** between it and the nearest one
around it in which a declaration of its name has begun. If there is none, it has no depth
(`Place.depth`). The tree alone tells in which place a reference stands (`Places.stmts`). Since the
layers of the walk list just the names whose declarations have begun (`Scopes.Lists`), the sites
that it comes to are these places, with the same depths (`Places.stmts_sites`).

A declaration has begun as soon as its name is read. So the initialiser of a variable stands behind
the beginning of its declaration, and so does the body of a function. A name whose declaration was
refused, because it is declared in the same scope already, has begun before.
-/

namespace Scriptlet

/-- For each of the blocks and functions around a place, the innermost first, the names whose
declarations have begun in it. -/
abbrev Begun := List (List String)

namespace Begun

/-- The declaration of a name begins. Outside of all blocks and functions it is that of a global. -/
def declare (around : Begun) (name : Token) : Begun :=
  match around with
  | [] => []
  | begun :: outer => (begun ++ [name.lexeme]) :: outer

/-- What has begun behind a statement. -/
def behind (around : Begun) (st : Stmt) : Begun :=
  match st.declares? with
  | some name => around.declare name
  | none => around

end Begun

/-- A reference and what has begun around it. -/
structure Place where
  serial : Nat
  name : Token
  writes : Bool
  around : Begun

namespace Place

/-- How many blocks and functions are between a reference and the nearest one in which a declaration
of its name has begun. -/
def depth (p : Place) : Option Nat := p.around.findIdx? (p.name.lexeme ∈ ·)

/-- What is to be found out about a reference that stands here. -/
def reference (p : Place) : Binding.Reference := ⟨p.serial, p.name, p.writes, p.depth⟩

end Place

namespace Places

mutual

/-- The places of the references of an expression. That of an assignment is behind those of its
value. -/
def expr (around : Begun) : Expr → List Place
  | .literal _ => []
  | .ref name serial => [⟨serial, name, false, around⟩]
  | .assign name value serial => expr around value ++ [⟨serial, name, true, around⟩]
  | .binary lhs _ rhs | .logical lhs _ rhs => expr around lhs ++ expr around rhs
  | .unary _ arg => expr around arg
  | .grouping inner => expr around inner
  | .call callee _ args => expr around callee ++ exprs around args

/-- The places of the references of expressions. -/
def exprs (around : Begun) : List Expr → List Place
  | [] => []
  | e :: rest => expr around e ++ exprs around rest

end

/-- The places of the references of an expression, if there is one. -/
def optional (around : Begun) : Option Expr → List Place
  | none => []
  | some e => expr around e

mutual

/-- The places of the references of a statement. -/
def stmt (around : Begun) : Stmt → List Place
  | .expr e | .print _ e => expr around e
  | .var name init => optional (around.declare name) init
  | .block body => stmts ([] :: around) body
  | .branch condition yes none => expr around condition ++ stmt around yes
  | .branch condition yes (some no) =>
    expr around condition ++ (stmt around yes ++ stmt around no)
  | .loop condition body => expr around condition ++ stmt around body
  | .function name params body => stmts (params.map Token.lexeme :: around.declare name) body
  | .ret _ value => optional around value

/-- The places of the references of statements, each behind the statements before it. -/
def stmts (around : Begun) : List Stmt → List Place
  | [] => []
  | st :: rest => stmt around st ++ stmts (around.behind st) rest

end

end Places

/-! ## Scopes list what has begun -/

/-- A layer holds these names. -/
structure Layer.Lists (l : Layer) (begun : List String) : Prop where
  holds : ∀ name, l.holds name = true ↔ name ∈ begun
  declared : ∀ name t, l.declarers.find? name = some t → name ∈ begun

/-- Layer by layer, scopes hold these names; below are the globals. -/
structure Scopes.Lists (s : Scopes) (around : Begun) : Prop where
  root : ∃ g, s.root = .globals g
  layers : List.Forall₂ Layer.Lists s.layers around

namespace Layer

variable {l l' : Layer} {begun : List String}

theorem lists_empty : Layer.empty.Lists [] :=
  ⟨fun _ => ⟨nofun, nofun⟩, nofun⟩

/-- It does not matter whether a name is listed once more. -/
theorem lists_again {name : String} (hname : name ∈ begun) :
    l.Lists (begun ++ [name]) ↔ l.Lists begun := by
  have hsame : ∀ key, key ∈ begun ++ [name] ↔ key ∈ begun := fun key =>
    List.mem_append.trans (or_iff_left_of_imp fun hk => List.mem_singleton.1 hk ▸ hname)
  constructor <;> rintro ⟨hholds, hdeclared⟩
  · exact ⟨fun key => (hholds key).trans (hsame key),
      fun key t ht => (hsame key).1 (hdeclared key t ht)⟩
  · exact ⟨fun key => (hholds key).trans (hsame key).symm,
      fun key t ht => (hsame key).2 (hdeclared key t ht)⟩

/-- Entering a name and the token that declares it. -/
theorem Lists.insert (h : l.Lists begun) (name : Token) (ready : Bool) :
    Layer.Lists ⟨l.declarers.insert name.lexeme name, l.ready.insert name.lexeme ready⟩
      (begun ++ [name.lexeme]) := by
  refine ⟨fun key => ?_, fun key t ht => ?_⟩
  · rw [List.mem_append, List.mem_singleton, or_comm, ← h.holds]
    exact Table.contains_insert
  · rw [Table.find?_insert] at ht
    split at ht
    · next heq => exact List.mem_append_right _ (List.mem_singleton.2 heq)
    · exact List.mem_append_left _ (h.declared key t ht)

/-- A name is declared, or it was declared before. -/
theorem Lists.declare (h : l.Lists begun) (name : Token) :
    match l.declare name with
    | .ok l' => l'.Lists (begun ++ [name.lexeme])
    | .error _ => l.Lists (begun ++ [name.lexeme]) := by
  unfold Layer.declare
  cases hfind : l.declarers.find? name.lexeme with
  | none => exact h.insert name false
  | some first => exact (lists_again (h.declared _ first hfind)).2 h

theorem Lists.define (h : l.Lists begun) {name : Token} (hname : name.lexeme ∈ begun) :
    (l.define name).Lists begun := by
  have hinsert := (lists_again hname).1 (h.insert name true)
  unfold Layer.define
  split
  · -- The token that declared the name first is kept.
    exact ⟨hinsert.holds, h.declared⟩
  · exact hinsert

end Layer

namespace Scopes.Lists

variable {s : Scopes} {around : Begun}

theorem globals (g : Globals) : Lists (.outermost (.globals g)) [] := ⟨⟨g, rfl⟩, .nil⟩

theorem enter (h : s.Lists around) : s.enter.Lists ([] :: around) :=
  ⟨h.root, .cons Layer.lists_empty h.layers⟩

theorem announce (h : s.Lists around) (name : Token) :
    (s.announce name).Lists (around.declare name) := by
  obtain ⟨layers, root⟩ := s
  obtain ⟨⟨g, rfl⟩, hl⟩ := h
  cases hl with
  | nil => exact ⟨⟨_, rfl⟩, .nil⟩
  | @cons l begun ls outer hl hls =>
    have hd := hl.declare name
    unfold Scopes.announce Scopes.declare
    dsimp only
    cases ho : l.declare name with
    | ok l' =>
      rw [ho] at hd
      exact ⟨⟨g, rfl⟩, .cons hd hls⟩
    | error first =>
      rw [ho] at hd
      exact ⟨⟨g, rfl⟩, .cons hd hls⟩

/-- Making a name ready declares nothing if its declaration has begun. -/
theorem define (h : s.Lists around) {name : Token}
    (hname : ∀ begun ∈ around.head?, name.lexeme ∈ begun) : (s.define name).Lists around := by
  obtain ⟨layers, root⟩ := s
  obtain ⟨⟨g, rfl⟩, hl⟩ := h
  cases hl with
  | nil => exact ⟨⟨_, rfl⟩, .nil⟩
  | @cons l begun ls outer hl hls => exact ⟨⟨g, rfl⟩, .cons (hl.define (hname begun rfl)) hls⟩

theorem settle (h : s.Lists around) (name : Token) :
    (s.settle name).Lists (around.declare name) := by
  refine (h.announce name).define fun begun hbegun => ?_
  cases around with
  | nil => cases hbegun
  | cons _ _ =>
    cases hbegun
    exact List.mem_append_right _ (List.mem_singleton_self _)

theorem behind (h : s.Lists around) (st : Stmt) : (s.behind st).Lists (around.behind st) := by
  unfold Scopes.behind Begun.behind
  cases st.declares? with
  | none => exact h
  | some name => exact h.settle name

/-- The scope of a function lists its parameters. -/
theorem within (h : s.Lists around) (d : Declaration) :
    (s.within d).Lists (d.params.map Token.lexeme :: around) := by
  have hfold : ∀ (ps : List Token) (s : Scopes) (begun : List String), s.Lists (begun :: around) →
      (ps.foldl Scopes.settle s).Lists ((begun ++ ps.map Token.lexeme) :: around) := by
    intro ps
    induction ps with
    | nil =>
      intro s begun h
      rwa [List.map_nil, List.append_nil]
    | cons p ps ih =>
      intro s begun h
      rw [List.map_cons, List.append_cons]
      exact ih _ _ (h.settle p)
  exact hfold d.params s.enter [] h.enter

/-- **A depth counts layers** to the first that lists the name. -/
theorem depthOf (h : s.Lists around) (name : String) :
    s.depthOf name = around.findIdx? (name ∈ ·) := by
  obtain ⟨layers, root⟩ := s
  obtain ⟨⟨g, rfl⟩, hl⟩ := h
  change List.Forall₂ Layer.Lists layers around at hl
  show Scopes.depthIn (.globals g) name layers = _
  induction hl with
  | nil => rfl
  | @cons l begun ls outer hl _ ih =>
    rw [List.findIdx?_cons, ← ih]
    simp only [Scopes.depthIn, hl.holds name, decide_eq_true_eq]

end Scopes.Lists

/-! ## Sites are places -/

namespace Places

variable {s : Scopes} {around : Begun}

theorem reference_eq (rs : List Region) (h : s.Lists around) (serial : Nat) (name : Token)
    (writes : Bool) :
    Site.reference ⟨serial, name, writes, s, rs⟩ =
      Place.reference ⟨serial, name, writes, around⟩ := by
  unfold Site.reference Place.reference Place.depth
  rw [h.depthOf]

mutual

theorem expr_sites (rs : List Region) (h : s.Lists around) : ∀ e : Expr,
    (Sites.expr rs s e).map Site.reference = (expr around e).map Place.reference
  | .literal _ => rfl
  | .ref name serial => congrArg (fun r => [r]) (reference_eq rs h serial name false)
  | .assign name value serial => by
    simp only [Sites.expr, expr, List.map_append, expr_sites rs h value, List.map_cons,
      List.map_nil, reference_eq rs h]
  | .binary lhs _ rhs | .logical lhs _ rhs => by
    simp only [Sites.expr, expr, List.map_append, expr_sites rs h lhs, expr_sites rs h rhs]
  | .unary _ arg => expr_sites rs h arg
  | .grouping inner => expr_sites rs h inner
  | .call callee _ args => by
    simp only [Sites.expr, expr, List.map_append, expr_sites rs h callee, exprs_sites rs h args]

theorem exprs_sites (rs : List Region) (h : s.Lists around) : ∀ es : List Expr,
    (Sites.exprs rs s es).map Site.reference = (exprs around es).map Place.reference
  | [] => rfl
  | e :: rest => by
    simp only [Sites.exprs, exprs, List.map_append, expr_sites rs h e, exprs_sites rs h rest]

end

theorem optional_sites (rs : List Region) (h : s.Lists around) (e : Option Expr) :
    (Sites.optional rs s e).map Site.reference = (optional around e).map Place.reference := by
  cases e with
  | none => rfl
  | some e => exact expr_sites rs h e

mutual

theorem stmt_sites (rs : List Region) {s : Scopes} {around : Begun} (h : s.Lists around) :
    ∀ st : Stmt, (Sites.stmt rs s st).map Site.reference = (stmt around st).map Place.reference
  | .expr e | .print _ e => expr_sites rs h e
  | .var name init => optional_sites rs (h.announce name) init
  | .block body => stmts_sites _ h.enter body
  | .branch condition yes none => by
    simp only [Sites.stmt, stmt, List.map_append, expr_sites rs h condition, stmt_sites rs h yes]
  | .branch condition yes (some no) => by
    simp only [Sites.stmt, stmt, List.map_append, expr_sites rs h condition, stmt_sites rs h yes,
      stmt_sites rs h no]
  | .loop condition body => by
    simp only [Sites.stmt, stmt, List.map_append, expr_sites rs h condition, stmt_sites rs h body]
  | .function name params body => stmts_sites _ ((h.settle name).within ⟨name, params, body⟩) body
  | .ret _ value => optional_sites rs h value

theorem stmts_sites (rs : List Region) {s : Scopes} {around : Begun} (h : s.Lists around) :
    ∀ sts : List Stmt, (Sites.stmts rs s sts).map Site.reference =
      (stmts around sts).map Place.reference
  | [] => rfl
  | st :: rest => by
    simp only [Sites.stmts, stmts, List.map_append, stmt_sites rs h st,
      stmts_sites rs (h.behind st) rest]

end

/-- The places of a program have its serials. -/
theorem map_serial_stmts (sts : List Stmt) :
    (stmts [] sts).map Place.serial = Serials.stmts sts := by
  have hsites := stmts_sites [] (Scopes.Lists.globals (.knowing [])) sts
  have hserials := congrArg (List.map Binding.Reference.serial) hsites
  rw [List.map_map, List.map_map] at hserials
  exact hserials.symm.trans (Sites.map_serial_stmts ..)

end Places

end Scriptlet

import Mathlib.Data.List.Basic
import Scriptlet.Proofs.Binding.Sites

/-!
# Globals behind statements

Outside of all blocks and functions a name has no layer, and the walk only keeps of it whether it is
pending and whether it is defined. A global is pending only in the initialiser of its first
declaration (`Globals.isPending_declare`). Behind every statement of a program none is pending, and
those are defined that were known and those that have been declared (`Globals.defined_behind`).
-/

namespace Scriptlet

namespace Globals

/-- Declares a name and makes it defined. -/
def settle (g : Globals) (name : Token) : Globals := (g.declare name).define name

/-- The globals behind statements that stand outside of all blocks and functions. -/
def behind (g : Globals) (sts : List Stmt) : Globals :=
  (sts.filterMap Stmt.declares?).foldl settle g

/-- A global is pending only in the initialiser of its first declaration. -/
theorem isPending_declare {g : Globals} (h : g.pending = []) (name : Token) (key : String) :
    (g.declare name).isPending key = true ↔ key = name.lexeme ∧ name.lexeme ∉ g.defined := by
  unfold declare isPending
  split
  · next hmem =>
    rw [h, decide_eq_true_eq]
    exact ⟨fun hkey => absurd hkey List.not_mem_nil, fun hkey => absurd hmem hkey.2⟩
  · next hmem =>
    dsimp only
    rw [h, decide_eq_true_eq, List.mem_insert_iff]
    exact ⟨fun hkey => ⟨hkey.resolve_right List.not_mem_nil, hmem⟩, fun hkey => .inl hkey.1⟩

theorem defined_settle (g : Globals) (name : Token) :
    (g.settle name).defined = g.defined.insert name.lexeme := by
  unfold settle declare
  split <;> rfl

theorem pending_settle {g : Globals} (h : g.pending = []) (name : Token) :
    (g.settle name).pending = [] := by
  unfold settle declare
  split
  · show g.pending.filter _ = []
    rw [h]
    rfl
  · show (g.pending.insert name.lexeme).filter _ = []
    rw [h]
    simp

theorem pending_behind {g : Globals} (h : g.pending = []) (sts : List Stmt) :
    (g.behind sts).pending = [] := by
  unfold behind
  generalize sts.filterMap Stmt.declares? = names
  induction names generalizing g with
  | nil => exact h
  | cons name names ih => exact ih (pending_settle h name)

/-- What was defined still is, and so is what statements declare. -/
theorem defined_behind (g : Globals) (sts : List Stmt) {name : String}
    (h : name ∈ g.defined ∨ ∃ st ∈ sts, ∃ n, st.declares? = some n ∧ n.lexeme = name) :
    name ∈ (g.behind sts).defined := by
  induction sts generalizing g with
  | nil =>
    rcases h with h | ⟨st, hst, -⟩
    · exact h
    · exact absurd hst List.not_mem_nil
  | cons st rest ih =>
    have hsettled : ∀ n, name ∈ g.defined ∨ n.lexeme = name → name ∈ (g.settle n).defined := by
      intro n hn
      rw [defined_settle, List.mem_insert_iff]
      exact hn.symm.imp_left Eq.symm
    unfold behind
    cases hd : st.declares? with
    | none =>
      rw [List.filterMap_cons_none hd]
      refine ih g (h.imp_right ?_)
      rintro ⟨st', hst', n, hn, hname⟩
      rcases List.mem_cons.1 hst' with rfl | hst'
      · rw [hd] at hn
        cases hn
      · exact ⟨st', hst', n, hn, hname⟩
    | some n =>
      rw [List.filterMap_cons_some hd, List.foldl_cons]
      refine ih (g.settle n) ?_
      rcases h with h | ⟨st', hst', n', hn, hname⟩
      · exact .inl (hsettled n (.inl h))
      · rcases List.mem_cons.1 hst' with rfl | hst'
        · obtain rfl := Option.some.inj (hd.symm.trans hn)
          exact .inl (hsettled n (.inr hname))
        · exact .inr ⟨st', hst', n', hn, hname⟩

end Globals

/-- The statements of a program leave no layers behind. -/
theorem Scopes.foldl_behind_globals (sts : List Stmt) (g : Globals) :
    sts.foldl behind ⟨[], .globals g⟩ = ⟨[], .globals (g.behind sts)⟩ := by
  induction sts generalizing g with
  | nil => rfl
  | cons st rest ih =>
    rw [List.foldl_cons]
    unfold behind Globals.behind
    cases hd : st.declares? with
    | none =>
      rw [List.filterMap_cons_none hd]
      exact ih g
    | some n =>
      rw [List.filterMap_cons_some hd]
      exact ih (g.settle n)

namespace Binding

theorem stmts_append (sts sts' : List Stmt) (w : Walk) :
    stmts (sts ++ sts') w = stmts sts' (stmts sts w) := by
  induction sts generalizing w with
  | nil => rfl
  | cons st sts ih => exact ih (stmt st w)

/-- The walk over a program in which these globals are defined, when it has come behind these
statements of it. -/
def walkBehind (known : List String) (front : List Stmt) : Walk :=
  stmts front ⟨.outermost (.globals (.knowing known)), 0, #[]⟩

/-- The walk over a program comes there, and goes on. -/
theorem log_append (known : List String) (front rest : List Stmt) :
    log known (front ++ rest) = (stmts rest (walkBehind known front)).log :=
  congrArg Walk.log (stmts_append front rest _)

/-- Outside of all blocks and functions, the walk knows of the globals what their declarations
have told it. -/
theorem scopes_walkBehind (known : List String) {front : List Stmt} (h : Shape.stmts front) :
    (walkBehind known front).scopes =
      .outermost (.globals ((Globals.knowing known).behind front)) :=
  (stmts_walked [] front _ h).scopes.trans (Scopes.foldl_behind_globals front (.knowing known))

end Binding

end Scriptlet

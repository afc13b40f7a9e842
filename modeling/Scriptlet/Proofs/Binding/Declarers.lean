import Scriptlet.Proofs.Binding.Sites
import Scriptlet.Proofs.Table

/-!
# Who declared a name

The scopes of a site are those of the regions around it, layer by layer: whatever a layer holds was
declared by a token that stands in its region (`Sites.stmts_owned`). So the depth of a reference
leads to the region that declares its name (`Owned.declarer`).
-/

namespace Scriptlet

/-- A layer holds only names that a region declares. -/
structure Layer.Of (l : Layer) (r : Region) : Prop where
  declared : ∀ name t, l.declarers.find? name = some t → t.lexeme = name ∧ t ∈ r.declarations
  holds : ∀ name, l.holds name = true → l.declarers.contains name = true

/-- Layer by layer, scopes hold what these regions declare; below are the globals. -/
structure Owned (s : Scopes) (rs : List Region) : Prop where
  root : ∃ g, s.root = .globals g
  layers : List.Forall₂ Layer.Of s.layers rs

variable {s : Scopes} {rs : List Region}

namespace Layer

theorem of_empty (r : Region) : Layer.empty.Of r := ⟨nofun, nofun⟩

/-- Entering a name and the token that declares it. -/
theorem Of.insert {l : Layer} {r : Region} {name : Token} (h : l.Of r)
    (hr : name ∈ r.declarations) (ready : Bool) :
    Layer.Of ⟨l.declarers.insert name.lexeme name, l.ready.insert name.lexeme ready⟩ r := by
  refine ⟨fun key t ht => ?_, fun key hk => ?_⟩
  · rw [Table.find?_insert] at ht
    split at ht
    · next heq =>
      obtain rfl := Option.some.inj ht
      exact ⟨heq.symm, hr⟩
    · exact h.declared key t ht
  · refine Table.contains_insert.2 ?_
    exact (Table.contains_insert.1 hk).imp_right (h.holds key)

theorem Of.declare {l l' : Layer} {r : Region} {name : Token} (h : l.Of r)
    (hr : name ∈ r.declarations) (hd : l.declare name = .ok l') : l'.Of r := by
  unfold Layer.declare at hd
  split at hd
  · cases hd
  · cases hd
    exact h.insert hr false

theorem Of.define {l : Layer} {r : Region} {name : Token} (h : l.Of r)
    (hr : name ∈ r.declarations) : (l.define name).Of r := by
  unfold Layer.define
  by_cases hc : l.declarers.contains name.lexeme = true
  · rw [if_pos hc]
    refine ⟨h.declared, fun key hk => ?_⟩
    rcases Table.contains_insert.1 hk with rfl | hk
    · exact hc
    · exact h.holds key hk
  · rw [if_neg hc]
    exact h.insert hr true

end Layer

/-! ## Declaring keeps it so -/

namespace Owned

theorem enter (h : Owned s rs) (r : Region) : Owned s.enter (r :: rs) :=
  ⟨h.root, .cons (Layer.of_empty r) h.layers⟩

theorem announce (h : Owned s rs) {name : Token} (hr : ∀ r ∈ rs.head?, name ∈ r.declarations) :
    Owned (s.announce name) rs := by
  obtain ⟨layers, root⟩ := s
  obtain ⟨⟨g, rfl⟩, hl⟩ := h
  cases hl with
  | nil => exact ⟨⟨_, rfl⟩, .nil⟩
  | @cons l r ls rs hl hls =>
    unfold Scopes.announce Scopes.declare
    cases hd : l.declare name with
    | ok l' =>
      simp only [hd, Except.map]
      exact ⟨⟨g, rfl⟩, .cons (hl.declare (hr r rfl) hd) hls⟩
    | error _ =>
      simp only [hd, Except.map]
      exact ⟨⟨g, rfl⟩, .cons hl hls⟩

theorem define (h : Owned s rs) {name : Token} (hr : ∀ r ∈ rs.head?, name ∈ r.declarations) :
    Owned (s.define name) rs := by
  obtain ⟨layers, root⟩ := s
  obtain ⟨⟨g, rfl⟩, hl⟩ := h
  cases hl with
  | nil => exact ⟨⟨_, rfl⟩, .nil⟩
  | @cons l r ls rs hl hls => exact ⟨⟨g, rfl⟩, .cons (hl.define (hr r rfl)) hls⟩

theorem settle (h : Owned s rs) {name : Token} (hr : ∀ r ∈ rs.head?, name ∈ r.declarations) :
    Owned (s.settle name) rs := (h.announce hr).define hr

theorem behind (h : Owned s rs) {st : Stmt}
    (hr : ∀ name, st.declares? = some name → ∀ r ∈ rs.head?, name ∈ r.declarations) :
    Owned (s.behind st) rs := by
  unfold Scopes.behind
  cases hd : st.declares? with
  | none => exact h
  | some name => exact h.settle (hr name hd)

theorem within (h : Owned s rs) (d : Declaration) : Owned (s.within d) (.function d :: rs) := by
  have hfold : ∀ (ps : List Token) (s : Scopes), ps ⊆ d.params → Owned s (.function d :: rs) →
      Owned (ps.foldl Scopes.settle s) (.function d :: rs) := by
    intro ps
    induction ps with
    | nil => exact fun _ _ h => h
    | cons p ps ih =>
      intro s hsub h
      refine ih _ (fun q hq => hsub (List.mem_cons_of_mem _ hq)) (h.settle ?_)
      rintro _ ⟨⟩
      exact List.mem_append_left _ (hsub List.mem_cons_self)
  exact hfold d.params s.enter (List.Subset.refl _) (h.enter _)

/-- The depth of a reference leads to the region that declares its name. -/
theorem declarer (h : Owned s rs) {name : String} {depth : Nat}
    (hd : s.depthOf name = some depth) :
    ∃ l r t, s.layers[depth]? = some l ∧ rs[depth]? = some r ∧ l.holds name = true ∧
      l.declarers.find? name = some t ∧ t ∈ r.declarations := by
  obtain ⟨layers, root⟩ := s
  obtain ⟨⟨g, rfl⟩, hl⟩ := h
  change List.Forall₂ Layer.Of layers rs at hl
  change Scopes.depthIn (.globals g) name layers = some depth at hd
  show ∃ l r t, layers[depth]? = some l ∧ _
  induction hl generalizing depth with
  | nil => cases hd
  | @cons l r ls rs hl hls ih =>
    unfold Scopes.depthIn at hd
    split at hd
    · next hholds =>
      obtain rfl := Option.some.inj hd
      obtain ⟨t, ht⟩ := Option.isSome_iff_exists.1 (hl.holds name hholds)
      exact ⟨l, r, t, rfl, rfl, hholds, ht, (hl.declared name t ht).2⟩
    · obtain ⟨depth', hd', rfl⟩ := Option.map_eq_some_iff.1 hd
      exact ih hd'

end Owned

/-! ## All sites -/

namespace Sites

mutual

theorem expr_place (rs : List Region) (s : Scopes) : ∀ (e : Expr),
    ∀ site ∈ expr rs s e, site.scopes = s ∧ site.regions = rs
  | .literal _, _, h => absurd h List.not_mem_nil
  | .ref _ _, _, h => by
    rw [List.mem_singleton.1 h]
    exact ⟨rfl, rfl⟩
  | .assign _ value _, site, h => by
    rcases List.mem_append.1 h with h | h
    · exact expr_place rs s value site h
    · rw [List.mem_singleton.1 h]
      exact ⟨rfl, rfl⟩
  | .binary lhs _ rhs, site, h | .logical lhs _ rhs, site, h =>
    (List.mem_append.1 h).elim (expr_place rs s lhs site) (expr_place rs s rhs site)
  | .unary _ arg, site, h => expr_place rs s arg site h
  | .grouping inner, site, h => expr_place rs s inner site h
  | .call callee _ args, site, h =>
    (List.mem_append.1 h).elim (expr_place rs s callee site) (exprs_place rs s args site)

theorem exprs_place (rs : List Region) (s : Scopes) : ∀ (es : List Expr),
    ∀ site ∈ exprs rs s es, site.scopes = s ∧ site.regions = rs
  | [], _, h => absurd h List.not_mem_nil
  | e :: rest, site, h =>
    (List.mem_append.1 h).elim (expr_place rs s e site) (exprs_place rs s rest site)

end

theorem expr_owned (h : Owned s rs) {e : Expr} : ∀ site ∈ expr rs s e,
    Owned site.scopes site.regions := by
  intro site hsite
  obtain ⟨rfl, rfl⟩ := expr_place rs s e site hsite
  exact h

theorem optional_owned (h : Owned s rs) {e : Option Expr} : ∀ site ∈ optional rs s e,
    Owned site.scopes site.regions := by
  cases e with
  | none => exact List.forall_mem_nil _
  | some e => exact expr_owned h

/-- What a statement declares is declared by the innermost region. -/
abbrev Declares (rs : List Region) (st : Stmt) : Prop :=
  ∀ name, st.declares? = some name → ∀ r ∈ rs.head?, name ∈ r.declarations

theorem declares_of_none {st : Stmt} (h : st.declares? = none) : Declares rs st := by
  intro name hname
  rw [h] at hname
  cases hname

mutual

theorem stmt_owned : ∀ (st : Stmt) (rs : List Region) (s : Scopes), Shape.stmt st →
    Owned s rs → Declares rs st → ∀ site ∈ stmt rs s st, Owned site.scopes site.regions
  | .expr _, _, _, _, h, _, site, hs | .print _ _, _, _, _, h, _, site, hs =>
    expr_owned h site hs
  | .var name _, _, _, _, h, hd, site, hs => optional_owned (h.announce (hd name rfl)) site hs
  | .block body, rs, s, hshape, h, _, site, hs => by
    refine stmts_owned body (.block body :: rs) s.enter hshape (h.enter _) ?_ site hs
    rintro st hst name hname _ ⟨⟩
    exact List.mem_filterMap.2 ⟨st, hst, hname⟩
  | .branch _ yes none, rs, s, hshape, h, _, site, hs => by
    rcases List.mem_append.1 hs with hs | hs
    · exact expr_owned h site hs
    · exact stmt_owned yes rs s hshape.1 h (declares_of_none hshape.2) site hs
  | .branch _ yes (some no), rs, s, hshape, h, _, site, hs => by
    rcases List.mem_append.1 hs with hs | hs
    · exact expr_owned h site hs
    · rcases List.mem_append.1 hs with hs | hs
      · exact stmt_owned yes rs s hshape.1.1 h (declares_of_none hshape.1.2) site hs
      · exact stmt_owned no rs s hshape.2.1 h (declares_of_none hshape.2.2) site hs
  | .loop _ body, rs, s, hshape, h, _, site, hs => by
    rcases List.mem_append.1 hs with hs | hs
    · exact expr_owned h site hs
    · exact stmt_owned body rs s hshape.1 h (declares_of_none hshape.2) site hs
  | .function name params body, rs, s, hshape, h, hd, site, hs => by
    refine stmts_owned body _ _ hshape ((h.settle (hd name rfl)).within _) ?_ site hs
    rintro st hst name hname _ ⟨⟩
    exact List.mem_append_right _ (List.mem_filterMap.2 ⟨st, hst, hname⟩)
  | .ret _ _, _, _, _, h, _, site, hs => optional_owned h site hs

theorem stmts_owned : ∀ (sts : List Stmt) (rs : List Region) (s : Scopes), Shape.stmts sts →
    Owned s rs → (∀ st ∈ sts, Declares rs st) → ∀ site ∈ stmts rs s sts,
      Owned site.scopes site.regions
  | [], _, _, _, _, _, _, hs => absurd hs List.not_mem_nil
  | st :: rest, rs, s, hshape, h, hd, site, hs => by
    have hst := hd st List.mem_cons_self
    rcases List.mem_append.1 hs with hs | hs
    · exact stmt_owned st rs s hshape.1 h hst site hs
    · refine stmts_owned rest rs (s.behind st) hshape.2 (h.behind hst) ?_ site hs
      exact fun st' hst' => hd st' (List.mem_cons_of_mem _ hst')

end

end Sites

end Scriptlet

import Scriptlet.Proofs.Binding.Lands
import Scriptlet.Proofs.Binding.Pending

/-!
# Depths without shadowing

When no scope declares a name that a scope around it declares too, the regions around a reference
tell its depth without the scopes: it is the number of regions to go out to the first that declares
the name anywhere, before the reference or behind it (`Site.Found.straight`).

A reference that is recorded as global has no depth, so no region around it may declare its name.
The scopes alone do not say this: a local variable that is declared behind the reference leaves it
a global.
-/

namespace Scriptlet

/-- Whether a region declares a name. -/
def Region.declares (r : Region) (name : String) : Bool :=
  r.declarations.any fun t => t.lexeme == name

/-- The names that a region declares are none of these. -/
def Region.apart (around : List String) (r : Region) : Bool :=
  r.declarations.all fun t => !around.contains t.lexeme

/-- The names that a region declares. -/
def Region.names (r : Region) : List String := r.declarations.map Token.lexeme

mutual

/-- No region of a statement declares a name that is declared around it; these are declared around
the statement. -/
def Stmt.unshadowed (around : List String) : Stmt → Bool
  | .expr _ | .print _ _ | .var _ _ | .ret _ _ => true
  | .block body =>
    (Region.block body).apart around && unshadowedAll ((Region.block body).names ++ around) body
  | .branch _ yes none => yes.unshadowed around
  | .branch _ yes (some no) => yes.unshadowed around && no.unshadowed around
  | .loop _ body => body.unshadowed around
  | .function name params body =>
    (Region.function ⟨name, params, body⟩).apart around &&
      unshadowedAll ((Region.function ⟨name, params, body⟩).names ++ around) body

/-- No region of these statements declares a name that is declared around it. -/
def Stmt.unshadowedAll (around : List String) : List Stmt → Bool
  | [] => true
  | st :: rest => st.unshadowed around && unshadowedAll around rest

end

variable {around : List String} {r : Region} {rs : List Region} {s : Scopes} {name : String}

namespace Region

theorem declares_iff : r.declares name = true ↔ ∃ t ∈ r.declarations, t.lexeme = name := by
  simp [declares]

theorem mem_names : name ∈ r.names ↔ r.declares name = true := by
  simp [names, declares]

theorem declares_of_apart (h : r.apart around = true) (hname : name ∈ around) :
    r.declares name = false := by
  simp only [apart, List.all_eq_true, Bool.not_eq_true', List.contains_eq_mem,
    decide_eq_false_iff_not] at h
  refine Bool.eq_false_iff.2 fun hdeclares => ?_
  obtain ⟨t, ht, rfl⟩ := declares_iff.1 hdeclares
  exact h t ht hname

end Region

/-! ## Regions in one another -/

/-- No region declares a name that one further out declares; the names of all are among these. -/
structure Parted (around : List String) (rs : List Region) : Prop where
  pairwise : rs.Pairwise fun inner outer =>
    ∀ name, outer.declares name = true → inner.declares name = false
  names : ∀ r ∈ rs, ∀ name, r.declares name = true → name ∈ around

theorem Parted.nil : Parted around [] := ⟨.nil, List.forall_mem_nil _⟩

theorem Parted.enter (h : Parted around rs) (hr : r.apart around = true) :
    Parted (r.names ++ around) (r :: rs) := by
  refine ⟨List.pairwise_cons.2 ⟨fun outer houter name hname => ?_, h.pairwise⟩,
    List.forall_mem_cons.2 ⟨fun name hname => ?_, fun outer houter name hname => ?_⟩⟩
  · exact Region.declares_of_apart hr (h.names outer houter name hname)
  · exact List.mem_append_left _ (Region.mem_names.2 hname)
  · exact List.mem_append_right _ (h.names outer houter name hname)

/-- Where a region is found whose name no other one declares, it is the first. -/
theorem Parted.findIdx? (h : Parted around rs) {depth : Nat} (hr : rs[depth]? = some r)
    (hname : r.declares name = true) : rs.findIdx? (·.declares name) = some depth := by
  obtain ⟨hlt, hget⟩ := List.getElem?_eq_some_iff.1 hr
  refine List.findIdx?_eq_some_iff_getElem.2 ⟨hlt, hget ▸ hname, fun i hi => ?_⟩
  have hfalse := List.pairwise_iff_getElem.1 h.pairwise i depth (by omega) hlt hi name
    (hget ▸ hname)
  simpa using hfalse

namespace Sites

theorem expr_parted (h : Parted around rs) {e : Expr} : ∀ site ∈ expr rs s e,
    ∃ around, Parted around site.regions := by
  intro site hsite
  obtain ⟨-, hregions⟩ := expr_place rs s e site hsite
  exact ⟨around, hregions ▸ h⟩

theorem optional_parted (h : Parted around rs) {e : Option Expr} : ∀ site ∈ optional rs s e,
    ∃ around, Parted around site.regions := by
  cases e with
  | none => exact List.forall_mem_nil _
  | some e => exact expr_parted h

mutual

theorem stmt_parted : ∀ (st : Stmt) {around : List String} {rs : List Region} {s : Scopes},
    Parted around rs → st.unshadowed around = true → ∀ site ∈ stmt rs s st,
      ∃ around, Parted around site.regions
  | .expr _, _, _, _, h, _, site, hs | .print _ _, _, _, _, h, _, site, hs => expr_parted h site hs
  | .var _ _, _, _, _, h, _, site, hs | .ret _ _, _, _, _, h, _, site, hs =>
    optional_parted h site hs
  | .block body, _, _, _, h, hst, site, hs => by
    obtain ⟨hapart, hbody⟩ := Bool.and_eq_true_iff.1 hst
    exact stmts_parted body (h.enter hapart) hbody site hs
  | .branch _ yes none, _, _, _, h, hst, site, hs => by
    rcases List.mem_append.1 hs with hs | hs
    · exact expr_parted h site hs
    · exact stmt_parted yes h hst site hs
  | .branch _ yes (some no), _, _, _, h, hst, site, hs => by
    obtain ⟨hyes, hno⟩ := Bool.and_eq_true_iff.1 hst
    rcases List.mem_append.1 hs with hs | hs
    · exact expr_parted h site hs
    · rcases List.mem_append.1 hs with hs | hs
      · exact stmt_parted yes h hyes site hs
      · exact stmt_parted no h hno site hs
  | .loop _ body, _, _, _, h, hst, site, hs => by
    rcases List.mem_append.1 hs with hs | hs
    · exact expr_parted h site hs
    · exact stmt_parted body h hst site hs
  | .function name params body, _, _, _, h, hst, site, hs => by
    obtain ⟨hapart, hbody⟩ := Bool.and_eq_true_iff.1 hst
    exact stmts_parted body (h.enter hapart) hbody site hs

theorem stmts_parted : ∀ (sts : List Stmt) {around : List String} {rs : List Region} {s : Scopes},
    Parted around rs → Stmt.unshadowedAll around sts = true → ∀ site ∈ stmts rs s sts,
      ∃ around, Parted around site.regions
  | [], _, _, _, _, _, _, hs => absurd hs List.not_mem_nil
  | st :: rest, _, _, _, h, hsts, site, hs => by
    obtain ⟨hst, hrest⟩ := Bool.and_eq_true_iff.1 hsts
    rcases List.mem_append.1 hs with hs | hs
    · exact stmt_parted st h hst site hs
    · exact stmts_parted rest h hrest site hs

end

end Sites

/-! ## Depths -/

/-- The depth of a reference leads to the first region around it that declares its name. -/
def Site.Straight (depths : Nat → Option Nat) (site : Site) : Prop :=
  depths site.serial = site.regions.findIdx? (·.declares site.name.lexeme)

/-- The region that the depth of a reference leads to declares the name. -/
theorem Owned.declares (h : Owned s rs) {depth : Nat} (hd : s.depthOf name = some depth) :
    ∃ r, rs[depth]? = some r ∧ r.declares name = true := by
  obtain ⟨l, r, t, hl, hr, -, ht, hmem⟩ := h.declarer hd
  obtain ⟨hl', rfl⟩ := List.getElem?_eq_some_iff.1 hl
  obtain ⟨hr', rfl⟩ := List.getElem?_eq_some_iff.1 hr
  have hof := List.Forall₂.get h.layers hl' hr'
  exact ⟨_, hr, Region.declares_iff.2 ⟨t, hmem, (hof.declared name t ht).1⟩⟩

/-- **Without shadowing, depths are straight.** -/
theorem Site.Found.straight {site : Site} {depths : Nat → Option Nat} (hfound : site.Found depths)
    (hparted : Parted around site.regions)
    (houtside : depths site.serial = none →
      ∀ r ∈ site.regions, r.declares site.name.lexeme = false) : site.Straight depths := by
  unfold Site.Straight
  cases hd : depths site.serial with
  | none => exact (List.findIdx?_eq_none_iff.2 (houtside hd)).symm
  | some depth =>
    obtain ⟨r, hr, hname⟩ := hfound.owned.declares (hfound.depth.symm.trans hd)
    exact (hparted.findIdx? hr hname).symm

end Scriptlet

import Scriptlet.Proofs.Binding.Declarers

/-!
# References in their own initialiser

A local name is pending only in the initialiser of its declaration, and there only in the innermost
scope. So a reference to a pending local variable stands in the initialiser of that very variable,
and its depth is zero (`Sites.pending_of_mem`).
-/

namespace Scriptlet

/-- The statements that a region begins with its scope. -/
def Region.body : Region → List Stmt
  | block body => body
  | function d => d.body

/-- The reference stands in the initialiser of a variable that has its name, and that is declared by
the innermost region around. -/
def Site.InInitialiser (site : Site) : Prop :=
  ∃ region rs t init, site.regions = region :: rs ∧ Stmt.var t (some init) ∈ region.body ∧
    t.lexeme = site.name.lexeme ∧ site ∈ Sites.expr site.regions site.scopes init

variable {s : Scopes} {rs : List Region} {site : Site}

namespace Layer

/-- A name that is pending is held. -/
theorem holds_of_isPending {l : Layer} {key : String} (h : l.isPending key = true) :
    l.holds key = true := by
  unfold isPending at h
  unfold holds Table.contains
  rw [beq_iff_eq.1 h]
  rfl

/-- No name of the layer is pending. -/
def Quiet (l : Layer) : Prop := ∀ name, l.isPending name = false

theorem quiet_empty : Layer.empty.Quiet := fun _ => rfl

theorem isPending_insert (l : Layer) (declarers : Table Token) (name key : String) (b : Bool) :
    isPending ⟨declarers, l.ready.insert name b⟩ key =
      if key = name then !b else l.isPending key := by
  unfold isPending
  rw [Table.find?_insert]
  by_cases hk : key = name
  · rw [if_pos hk, if_pos hk]
    cases b <;> rfl
  · rw [if_neg hk, if_neg hk]

/-- A declaration leaves its own name pending, and no other. -/
theorem Quiet.declare {l l' : Layer} (h : l.Quiet) {name : Token} (hd : l.declare name = .ok l') :
    ∀ key, l'.isPending key = true → key = name.lexeme := by
  intro key hkey
  unfold Layer.declare at hd
  split at hd
  · cases hd
  · cases hd
    rw [isPending_insert] at hkey
    split at hkey
    · assumption
    · rw [h] at hkey
      cases hkey

theorem define_quiet {l : Layer} {name : Token}
    (h : ∀ key, l.isPending key = true → key = name.lexeme) : (l.define name).Quiet := by
  intro key
  unfold Layer.define
  rw [isPending_insert]
  split
  · rfl
  · next hne => exact Bool.eq_false_iff.2 fun hkey => hne (h key hkey)

end Layer

namespace Scopes

/-- In no layer a name is pending. -/
def Quiet (s : Scopes) : Prop := ∀ l ∈ s.layers, l.Quiet

theorem Quiet.enter (h : s.Quiet) : s.enter.Quiet :=
  List.forall_mem_cons.2 ⟨Layer.quiet_empty, h⟩

/-- Behind a declaration only its name may be pending, in the innermost layer. -/
theorem Quiet.announce (h : s.Quiet) (name : Token) :
    (∀ l ∈ (s.announce name).layers.head?, ∀ key, l.isPending key = true → key = name.lexeme) ∧
      ∀ l ∈ (s.announce name).layers.tail, l.Quiet := by
  obtain ⟨layers, root⟩ := s
  cases layers with
  | nil =>
    have hnil : (Scopes.announce ⟨[], root⟩ name).layers = [] := by
      unfold Scopes.announce Scopes.declare
      cases root.declare name <;> rfl
    rw [hnil]
    exact ⟨nofun, nofun⟩
  | cons top outer =>
    obtain ⟨htop, houter⟩ := List.forall_mem_cons.1 h
    unfold Scopes.announce Scopes.declare
    cases hd : top.declare name with
    | ok top' =>
      simp only [hd, Except.map]
      refine ⟨?_, houter⟩
      rintro _ ⟨⟩
      exact htop.declare hd
    | error first =>
      simp only [hd, Except.map]
      refine ⟨?_, houter⟩
      rintro _ ⟨⟩ key hkey
      rw [htop] at hkey
      cases hkey

theorem Quiet.settle (h : s.Quiet) (name : Token) : (s.settle name).Quiet := by
  obtain ⟨hhead, htail⟩ := h.announce name
  unfold Scopes.settle Scopes.define
  generalize s.announce name = s' at hhead htail
  obtain ⟨layers, root⟩ := s'
  cases layers with
  | nil => exact nofun
  | cons top outer =>
    exact List.forall_mem_cons.2 ⟨Layer.define_quiet (hhead top rfl), htail⟩

theorem Quiet.behind (h : s.Quiet) (st : Stmt) : (s.behind st).Quiet := by
  unfold Scopes.behind
  cases st.declares? with
  | none => exact h
  | some name => exact h.settle name

theorem Quiet.within (h : s.Quiet) (d : Declaration) : (s.within d).Quiet := by
  unfold Scopes.within
  have henter := h.enter
  generalize s.enter = s' at henter
  induction d.params generalizing s' with
  | nil => exact henter
  | cons p ps ih => exact ih _ (henter.settle p)

/-- A name that is found in a quiet layer is not pending. -/
theorem Quiet.isPending {g : Globals} {layers : List Layer}
    (h : (⟨layers, .globals g⟩ : Scopes).Quiet) {name : String} {depth : Nat}
    (hd : depthIn (.globals g) name layers = some depth) :
    (⟨layers, .globals g⟩ : Scopes).isPending name = false := by
  induction layers generalizing depth with
  | nil => cases hd
  | cons top outer ih =>
    obtain ⟨htop, houter⟩ := List.forall_mem_cons.1 h
    rw [isPending_cons]
    unfold depthIn at hd
    split at hd
    · next hholds => rw [if_pos hholds, htop]
    · next hholds =>
      obtain ⟨depth', hd', -⟩ := Option.map_eq_some_iff.1 hd
      rw [if_neg hholds, ih houter hd']

/-- If only one name may be pending, and that in the innermost layer, then what is found and is
pending is that name, and is found there. -/
theorem zero_of_isPending {g : Globals} {layers : List Layer} {own : String}
    (hhead : ∀ l ∈ layers.head?, ∀ key, l.isPending key = true → key = own)
    (htail : ∀ l ∈ layers.tail, l.Quiet) {name : String} {depth : Nat}
    (hd : depthIn (.globals g) name layers = some depth)
    (hp : (⟨layers, .globals g⟩ : Scopes).isPending name = true) : depth = 0 ∧ name = own := by
  cases layers with
  | nil => cases hd
  | cons top outer =>
    rw [isPending_cons] at hp
    unfold depthIn at hd
    split at hd
    · next hholds =>
      rw [if_pos hholds] at hp
      exact ⟨(Option.some.inj hd).symm, hhead top rfl name hp⟩
    · next hholds =>
      obtain ⟨depth', hd', -⟩ := Option.map_eq_some_iff.1 hd
      rw [if_neg hholds, Quiet.isPending htail hd'] at hp
      cases hp

end Scopes

/-! ## All sites -/

/-- Nothing is pending where the site is, or it stands in an initialiser, and only what is
initialised is pending. -/
def Site.Placid (site : Site) : Prop :=
  site.scopes.Quiet ∨ ∃ region rs t init, site.regions = region :: rs ∧
    Stmt.var t (some init) ∈ region.body ∧ site ∈ Sites.expr site.regions site.scopes init ∧
    (∀ l ∈ site.scopes.layers.head?, ∀ key, l.isPending key = true → key = t.lexeme) ∧
    ∀ l ∈ site.scopes.layers.tail, l.Quiet

namespace Sites

/-- A statement that declares a name is one of those of the innermost region. -/
def Belongs (rs : List Region) (st : Stmt) : Prop :=
  ∀ name, st.declares? = some name → ∀ r ∈ rs.head?, st ∈ r.body

theorem Belongs.declares {st : Stmt} (h : Belongs rs st) : Declares rs st := by
  intro name hname r hr
  have hst := h name hname r hr
  cases r with
  | block body => exact List.mem_filterMap.2 ⟨st, hst, hname⟩
  | function d => exact List.mem_append_right _ (List.mem_filterMap.2 ⟨st, hst, hname⟩)

theorem belongs_of_mem {st : Stmt} {r : Region} (h : st ∈ r.body) : Belongs (r :: rs) st := by
  rintro name hname _ ⟨⟩
  exact h

theorem belongs_of_none {st : Stmt} (h : st.declares? = none) : Belongs rs st := by
  intro name hname
  rw [h] at hname
  cases hname

theorem expr_placid (h : s.Quiet) {e : Expr} : ∀ site ∈ expr rs s e, site.Placid := by
  intro site hsite
  obtain ⟨rfl, -⟩ := expr_place rs s e site hsite
  exact .inl h

theorem optional_placid (h : s.Quiet) {e : Option Expr} : ∀ site ∈ optional rs s e,
    site.Placid := by
  cases e with
  | none => exact List.forall_mem_nil _
  | some e => exact expr_placid h

theorem initialiser_placid (h : s.Quiet) (ho : Owned s rs) {name : Token} {init : Expr}
    (hb : Belongs rs (.var name (some init))) :
    ∀ site ∈ expr rs (s.announce name) init, site.Placid := by
  intro site hsite
  obtain ⟨hscopes, hregions⟩ := expr_place rs (s.announce name) init site hsite
  obtain ⟨hhead, htail⟩ := h.announce name
  cases rs with
  | nil =>
    -- Outside of all regions there are no layers.
    have hannounced : Owned (s.announce name) [] := ho.announce nofun
    have hnil := hannounced.layers
    rw [← hscopes] at hnil
    refine .inl fun l hl => ?_
    rw [List.forall₂_nil_right_iff.1 hnil] at hl
    cases hl
  | cons r rs =>
    rw [← hscopes] at hhead htail
    refine .inr ⟨r, rs, name, init, hregions, hb name rfl r rfl, ?_, hhead, htail⟩
    rw [hregions, hscopes]
    exact hsite

mutual

theorem stmt_placid : ∀ (st : Stmt) (rs : List Region) (s : Scopes), Shape.stmt st →
    Owned s rs → s.Quiet → Belongs rs st → ∀ site ∈ stmt rs s st, site.Placid
  | .expr _, _, _, _, _, h, _, site, hs | .print _ _, _, _, _, _, h, _, site, hs =>
    expr_placid h site hs
  | .var _ none, _, _, _, _, _, _, _, hs => absurd hs List.not_mem_nil
  | .var _ (some _), _, _, _, ho, h, hb, site, hs => initialiser_placid h ho hb site hs
  | .block body, rs, s, hshape, ho, h, _, site, hs => by
    refine stmts_placid body (.block body :: rs) s.enter hshape (ho.enter _) h.enter ?_ site hs
    exact fun _ hst => belongs_of_mem hst
  | .branch _ yes none, rs, s, hshape, ho, h, _, site, hs => by
    rcases List.mem_append.1 hs with hs | hs
    · exact expr_placid h site hs
    · exact stmt_placid yes rs s hshape.1 ho h (belongs_of_none hshape.2) site hs
  | .branch _ yes (some no), rs, s, hshape, ho, h, _, site, hs => by
    rcases List.mem_append.1 hs with hs | hs
    · exact expr_placid h site hs
    · rcases List.mem_append.1 hs with hs | hs
      · exact stmt_placid yes rs s hshape.1.1 ho h (belongs_of_none hshape.1.2) site hs
      · exact stmt_placid no rs s hshape.2.1 ho h (belongs_of_none hshape.2.2) site hs
  | .loop _ body, rs, s, hshape, ho, h, _, site, hs => by
    rcases List.mem_append.1 hs with hs | hs
    · exact expr_placid h site hs
    · exact stmt_placid body rs s hshape.1 ho h (belongs_of_none hshape.2) site hs
  | .function name params body, rs, s, hshape, ho, h, hb, site, hs => by
    refine stmts_placid body _ _ hshape ((ho.settle (hb.declares name rfl)).within _)
      ((h.settle name).within _) ?_ site hs
    exact fun _ hst => belongs_of_mem hst
  | .ret _ _, _, _, _, _, h, _, site, hs => optional_placid h site hs

theorem stmts_placid : ∀ (sts : List Stmt) (rs : List Region) (s : Scopes), Shape.stmts sts →
    Owned s rs → s.Quiet → (∀ st ∈ sts, Belongs rs st) → ∀ site ∈ stmts rs s sts, site.Placid
  | [], _, _, _, _, _, _, _, hs => absurd hs List.not_mem_nil
  | st :: rest, rs, s, hshape, ho, h, hb, site, hs => by
    obtain ⟨hst, hrest⟩ := List.forall_mem_cons.1 hb
    rcases List.mem_append.1 hs with hs | hs
    · exact stmt_placid st rs s hshape.1 ho h hst site hs
    · exact stmts_placid rest rs (s.behind st) hshape.2 (ho.behind hst.declares) (h.behind st)
        hrest site hs

end

/-- **A local name is pending only in its own initialiser.** A reference of a program to a local
name that is pending stands in the initialiser of that name, and its depth is zero. -/
theorem pending_of_mem {program : List Stmt} (hshape : Shape.stmts program) {known : List String}
    (hsite : site ∈ stmts [] (.outermost (.globals (.knowing known))) program) {depth : Nat}
    (hd : site.scopes.depthOf site.name.lexeme = some depth)
    (hp : site.scopes.isPending site.name.lexeme = true) : depth = 0 ∧ site.InInitialiser := by
  have howned : Owned (.outermost (.globals (.knowing known))) [] := ⟨⟨_, rfl⟩, .nil⟩
  obtain ⟨g, hroot⟩ := (stmts_owned program [] _ hshape howned
    (fun _ _ _ _ _ h => absurd h (Option.not_mem_none _)) site hsite).root
  have hplacid := stmts_placid program [] _ hshape howned (List.forall_mem_nil _)
    (fun _ _ _ _ _ h => absurd h (Option.not_mem_none _)) site hsite
  have hscopes : site.scopes = ⟨site.scopes.layers, .globals g⟩ := by rw [← hroot]
  unfold Scopes.depthOf at hd
  rw [hroot] at hd
  rcases hplacid with hquiet | ⟨r, rs, t, init, hregions, hvar, hmem, hhead, htail⟩
  · rw [hscopes] at hquiet hp
    rw [hquiet.isPending hd] at hp
    cases hp
  · rw [hscopes] at hp
    obtain ⟨rfl, hname⟩ := Scopes.zero_of_isPending hhead htail hd hp
    exact ⟨rfl, r, rs, t, init, hregions, hvar, hname.symm, hmem⟩

end Sites

end Scriptlet

import Scriptlet.Proofs.Binding.Sites
import Scriptlet.Proofs.Eval.Moment
import Scriptlet.Proofs.Heap

/-!
# Frames in the places of scopes

When a program runs, the frames outward from where it is are those that were made for the regions
around it, one for each, and at last the globals (`Placed`). A frame may hold more than its layer
declares, because the region may have run on behind the place that the layer is of, but it holds
every name that is ready there.

**Chronicles.** A chronicle says what a session has come to so far: the sites of its programs, and
the moments of its runs. A frame was made for a block if it is the frame that the next moment of a
block made, and for a function if a call made it (`Made`). A value is sound if it is no closure, or
its home is a frame in the place where the function was declared (`Value.Sound`).
-/

namespace Scriptlet

/-- What a session has come to. -/
structure Chronicle where
  site : Site → Prop
  moment : Moment → Prop

/-- A closure was made when its declaration was executed in its home. -/
def Chronicle.Closed (c : Chronicle) (identity : Nat) (d : Declaration) (home : Nat) : Prop :=
  ∃ fuel room m, c.moment ⟨fuel + 1, room, .stmt (.function d.name d.params d.body), m⟩ ∧
    m.closures = identity ∧ m.here = home

/-- A frame was made for a region, with a link: by the execution of a block in the frame of the
link, or by the call of a closure whose home is the frame of the link. -/
inductive Chronicle.Made (c : Chronicle) : Nat → Region → Nat → Prop
  | block {fuel room : Nat} {body : List Stmt} {m : Machine} :
      c.moment ⟨fuel + 1, room, .stmt (.block body), m⟩ → c.Made m.heap.size (.block body) m.here
  | call {fuel room identity home : Nat} {paren : Token} {d : Declaration} {args : List Value}
      {m : Machine} :
      c.moment ⟨fuel + 1, room + 1, .apply paren (.closure identity d home) args, m⟩ →
      args.length = d.params.length → c.Closed identity d home →
      c.Made m.heap.size (.function d) home

/-- The frames outward from one are those of these regions, and hold the names that are ready in
these layers. -/
inductive Placed (c : Chronicle) (h : Heap Value) : Nat → List Layer → List Region → Prop
  | root : Placed c h Heap.root [] []
  | inner {e link : Nat} {l : Layer} {ls : List Layer} {r : Region} {rs : List Region} :
      e ≠ Heap.root → c.Made e r link → h.link? e = some link →
      (∀ name, l.ready.find? name = some true → h.holds e name = true) →
      Placed c h link ls rs → Placed c h e (l :: ls) (r :: rs)

/-- The frames outward from one are in a place, and all references in this place are known. -/
def Stands (c : Chronicle) (h : Heap Value) (e : Nat) (sites : List Region → Scopes → List Site) :
    Prop :=
  ∃ rs layers g, Placed c h e layers rs ∧ ∀ site ∈ sites rs ⟨layers, .globals g⟩, c.site site

/-- The sites of the body of a function that is declared here. -/
def Sites.body (d : Declaration) (rs : List Region) (s : Scopes) : List Site :=
  Sites.stmts (.function d :: rs) (s.within d) d.body

/-- A closure has its home where it was declared. -/
def Value.Sound (c : Chronicle) (h : Heap Value) : Value → Prop
  | .closure identity d home =>
    c.Closed identity d home ∧ Shape.stmts d.body ∧ Stands c h home (Sites.body d)
  | _ => True

/-- All values on a heap are sound. -/
structure Heap.Sound (c : Chronicle) (h : Heap Value) : Prop where
  size : Heap.root < h.size
  values : ∀ e name v, h.local? e name = some v → v.Sound c h

/-! ## Later states -/

variable {c c' : Chronicle} {h h' : Heap Value} {e : Nat} {layers : List Layer}
  {rs : List Region} {sites sites' : List Region → Scopes → List Site}

/-- One chronicle goes on from another. -/
structure Chronicle.Upto (c c' : Chronicle) : Prop where
  site : ∀ site, c.site site → c'.site site
  moment : ∀ a, c.moment a → c'.moment a

theorem Chronicle.Upto.refl (c : Chronicle) : c.Upto c := ⟨fun _ h => h, fun _ h => h⟩

theorem Chronicle.Closed.mono {identity home : Nat} {d : Declaration} (hc : c.Upto c')
    (h : c.Closed identity d home) : c'.Closed identity d home := by
  obtain ⟨fuel, room, m, hm, hid, hhome⟩ := h
  exact ⟨fuel, room, m, hc.moment _ hm, hid, hhome⟩

theorem Chronicle.Made.mono {r : Region} {link : Nat} (hc : c.Upto c') (h : c.Made e r link) :
    c'.Made e r link := by
  cases h with
  | block hm => exact .block (hc.moment _ hm)
  | call hm hlen hclosed => exact .call (hc.moment _ hm) hlen (hclosed.mono hc)

theorem Placed.mono (hc : c.Upto c') (hext : h.Extends h') (hp : Placed c h e layers rs) :
    Placed c' h' e layers rs := by
  induction hp with
  | root => exact .root
  | inner hne hmade hlink hready _ ih =>
    exact .inner hne (hmade.mono hc) (hext.link_eq hlink)
      (fun name hname => hext.holds _ name (hready name hname)) ih

theorem Stands.mono (hc : c.Upto c') (hext : h.Extends h') (hs : Stands c h e sites) :
    Stands c' h' e sites := by
  obtain ⟨rs, layers, g, hp, hsites⟩ := hs
  exact ⟨rs, layers, g, hp.mono hc hext, fun site hsite => hc.site site (hsites site hsite)⟩

/-- Parts of what is in a place are in the same place. -/
theorem Stands.part (hs : Stands c h e sites)
    (hsub : ∀ rs s, ∀ site ∈ sites' rs s, site ∈ sites rs s) : Stands c h e sites' := by
  obtain ⟨rs, layers, g, hp, hsites⟩ := hs
  exact ⟨rs, layers, g, hp, fun site hsite => hsites site (hsub rs _ site hsite)⟩

theorem Value.Sound.mono {v : Value} (hc : c.Upto c') (hext : h.Extends h') (hv : v.Sound c h) :
    v.Sound c' h' := by
  cases v with
  | closure identity d home => exact ⟨hv.1.mono hc, hv.2.1, hv.2.2.mono hc hext⟩
  | _ => trivial

theorem Heap.Sound.mono (hc : c.Upto c') (hh : h.Sound c) : h.Sound c' :=
  ⟨hh.size, fun e name v hv => (hh.values e name v hv).mono hc (.refl h)⟩

theorem Heap.Sound.add (hh : h.Sound c) (link : Option Nat) : (h.add link).Sound c := by
  refine ⟨by rw [size_add]; exact Nat.succ_pos _, fun e name v hv => ?_⟩
  rw [local?_add] at hv
  exact (hh.values e name v hv).mono (.refl c) (extends_add h link)

/-- A value that is bound need only be sound on the heap that it is bound on. -/
theorem Heap.Sound.define (hh : h.Sound c) {v : Value} {e : Nat} {name : String}
    (hv : v.Sound c (h.define e name v)) : (h.define e name v).Sound c := by
  refine ⟨by rw [size_define]; exact hh.size, fun e' key v' hv' => ?_⟩
  rw [local?_define] at hv'
  split at hv'
  · exact Option.some.inj hv' ▸ hv
  · exact (hh.values e' key v' hv').mono (.refl c) (extends_define h e name v)

/-! ## Scopes and frames go along -/

theorem Placed.lt (hh : h.Sound c) (hp : Placed c h e layers rs) : e < h.size := by
  cases hp with
  | root => exact hh.size
  | inner _ _ hlink _ _ => exact Heap.lt_of_link? hlink

/-- With another innermost layer, if the frame holds what is ready in it. -/
theorem Placed.relayer {l l' : Layer} (hp : Placed c h e (l :: layers) rs)
    (hready : ∀ name, l'.ready.find? name = some true → l.ready.find? name = some true ∨
      h.holds e name = true) : Placed c h e (l' :: layers) rs := by
  cases hp with
  | inner hne hmade hlink hold hp =>
    refine .inner hne hmade hlink (fun name hname => ?_) hp
    rcases hready name hname with hl | hh
    · exact hold name hl
    · exact hh

/-- What is ready in a layer was ready before its name was declared. -/
theorem Layer.ready_of_declare {l l' : Layer} {name : Token} (h : l.declare name = .ok l')
    {key : String} (hk : l'.ready.find? key = some true) : l.ready.find? key = some true := by
  unfold declare at h
  split at h
  · cases h
  · cases h
    rw [Table.find?_insert] at hk
    split at hk
    · cases hk
    · exact hk

theorem Layer.ready_of_define {l : Layer} {name : Token} {key : String}
    (hk : (l.define name).ready.find? key = some true) :
    l.ready.find? key = some true ∨ key = name.lexeme := by
  unfold define at hk
  rw [Table.find?_insert] at hk
  split at hk
  · next heq => exact .inr heq
  · exact .inl hk

/-- A name that is only declared need not be held yet. -/
theorem Placed.announce {g : Globals} (name : Token) (hp : Placed c h e layers rs) :
    ∃ layers' g', (⟨layers, .globals g⟩ : Scopes).announce name = ⟨layers', .globals g'⟩ ∧
      Placed c h e layers' rs := by
  cases layers with
  | nil => exact ⟨[], g.declare name, rfl, hp⟩
  | cons l ls =>
    unfold Scopes.announce Scopes.declare
    cases hd : l.declare name with
    | error first => exact ⟨l :: ls, g, by simp [hd, Except.map], hp⟩
    | ok l' =>
      refine ⟨l' :: ls, g, by simp [hd, Except.map], hp.relayer fun key hk => ?_⟩
      exact .inl (Layer.ready_of_declare hd hk)

/-- A name that the frame holds may be ready. -/
theorem Placed.settle {g : Globals} {name : Token} (hp : Placed c h e layers rs)
    (hname : h.holds e name.lexeme = true) :
    ∃ layers' g', (⟨layers, .globals g⟩ : Scopes).settle name = ⟨layers', .globals g'⟩ ∧
      Placed c h e layers' rs := by
  obtain ⟨layers₁, g₁, heq, hp₁⟩ := hp.announce (g := g) name
  unfold Scopes.settle
  rw [heq]
  cases layers₁ with
  | nil => exact ⟨[], g₁.define name, rfl, hp₁⟩
  | cons l ls =>
    refine ⟨l.define name :: ls, g₁, rfl, hp₁.relayer fun key hk => ?_⟩
    rcases Layer.ready_of_define hk with hl | rfl
    · exact .inl hl
    · exact .inr hname

theorem Placed.behind {g : Globals} {st : Stmt} (hp : Placed c h e layers rs)
    (hst : ∀ name, st.declares? = some name → h.holds e name.lexeme = true) :
    ∃ layers' g', (⟨layers, .globals g⟩ : Scopes).behind st = ⟨layers', .globals g'⟩ ∧
      Placed c h e layers' rs := by
  unfold Scopes.behind
  cases hd : st.declares? with
  | none => exact ⟨layers, g, rfl, hp⟩
  | some name => exact hp.settle (hst name hd)

theorem Placed.params {g : Globals} {params : List Token} (hp : Placed c h e layers rs)
    (hps : ∀ p ∈ params, h.holds e p.lexeme = true) :
    ∃ layers' g', params.foldl Scopes.settle ⟨layers, .globals g⟩ = ⟨layers', .globals g'⟩ ∧
      Placed c h e layers' rs := by
  induction params generalizing layers g with
  | nil => exact ⟨layers, g, rfl, hp⟩
  | cons p rest ih =>
    obtain ⟨layers₁, g₁, heq, hp₁⟩ := hp.settle (g := g) (hps p List.mem_cons_self)
    rw [List.foldl_cons, heq]
    exact ih hp₁ fun q hq => hps q (List.mem_cons_of_mem _ hq)

end Scriptlet

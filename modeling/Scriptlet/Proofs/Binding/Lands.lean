import Scriptlet.Proofs.Binding.Declarers
import Scriptlet.Proofs.Binding.Soundness

/-!
# Where depths lead

When the frames outward from where a machine is are in the place of a reference, its depth leads to
the frame that was made for the region that declares its name, and never to that of the globals. If
the reference reads, the frame holds the name (`Lands`, `Site.Found.lands`).
-/

namespace Scriptlet

/-! ## From depths to frames -/

variable {c : Chronicle} {h : Heap Value} {e : Nat} {layers : List Layer} {rs : List Region}

/-- So many layers out is so many links out. -/
theorem Placed.outward (hp : Placed c h e layers rs) {depth : Nat} {l : Layer} {region : Region}
    (hl : layers[depth]? = some l) (hregion : rs[depth]? = some region) :
    ∃ frame link, h.outward? depth e = some frame ∧ frame ≠ Heap.root ∧
      c.Made frame region link ∧ h.link? frame = some link ∧
      ∀ name, l.ready.find? name = some true → h.holds frame name = true := by
  induction hp generalizing depth with
  | root => cases hl
  | @inner e link l' ls r' rs hne hmade hlink hready hp ih =>
    cases depth with
    | zero =>
      obtain rfl := Option.some.inj hl
      obtain rfl := Option.some.inj hregion
      exact ⟨e, link, rfl, hne, hmade, hlink, hready⟩
    | succ depth =>
      rw [Heap.outward?_succ hlink]
      exact ih hl hregion

/-- A name that is not pending is ready in the layer that it is found in. -/
theorem Scopes.ready_of_depthOf {root : Root} {name : String} {depth : Nat} {l : Layer}
    (hdepth : depthIn root name layers = some depth) (hl : layers[depth]? = some l)
    (hpending : (⟨layers, root⟩ : Scopes).isPending name = false) :
    l.ready.find? name = some true := by
  induction layers generalizing depth with
  | nil => cases hl
  | cons l' ls ih =>
    unfold depthIn at hdepth
    rw [isPending_cons] at hpending
    split at hdepth
    · next hholds =>
      obtain rfl := Option.some.inj hdepth
      obtain rfl := Option.some.inj hl
      rw [if_pos hholds] at hpending
      obtain ⟨b, hb⟩ := Option.isSome_iff_exists.1 hholds
      rw [hb]
      cases b with
      | true => rfl
      | false =>
        change (l'.ready.find? name == some false) = false at hpending
        rw [hb] at hpending
        cases hpending
    · next hholds =>
      obtain ⟨depth', hdepth', rfl⟩ := Option.map_eq_some_iff.1 hdepth
      rw [if_neg hholds] at hpending
      exact ih hdepth' hl hpending

/-- So many links out of where a machine is there is the frame of the region that declares the name
of a reference, and it holds what the reference reads. -/
structure Lands (c : Chronicle) (m : Machine) (site : Site) (depth : Nat) : Prop where
  frames : Placed c m.heap m.here site.scopes.layers site.regions
  target : ∃ frame link region layer t,
    m.heap.outward? depth m.here = some frame ∧ frame ≠ Heap.root ∧
      c.Made frame region link ∧ m.heap.link? frame = some link ∧
      site.regions[depth]? = some region ∧ site.scopes.layers[depth]? = some layer ∧
      layer.declarers.find? site.name.lexeme = some t ∧ t ∈ region.declarations
  reads : site.writes = false → ∃ v, m.heap.getAt depth m.here site.name.lexeme = .ok v

theorem Lands.mono {c' : Chronicle} {m : Machine} {site : Site} {depth : Nat} (hc : c.Upto c')
    (h : Lands c m site depth) : Lands c' m site depth := by
  obtain ⟨hp, ⟨frame, link, region, layer, t, hout, hne, hmade, hrest⟩, hreads⟩ := h
  exact ⟨hp.mono hc (.refl _), ⟨frame, link, region, layer, t, hout, hne, hmade.mono hc, hrest⟩,
    hreads⟩

/-- The depth of a reference is the one that its scopes have, and nothing was wrong with it. -/
structure Site.Found (site : Site) (depth : Nat → Option Nat) : Prop where
  depth : depth site.serial = site.scopes.depthOf site.name.lexeme
  settled : site.Settled
  owned : Owned site.scopes site.regions

/-- The depth of a reference leads to a frame, and the frame holds the name unless it is pending. -/
theorem Site.Found.holds {m : Machine} {site : Site} {depths : Nat → Option Nat}
    (hfound : site.Found depths) (hp : Placed c m.heap m.here site.scopes.layers site.regions)
    {depth : Nat} (hd : depths site.serial = some depth) :
    ∃ frame, m.heap.outward? depth m.here = some frame ∧
      (site.scopes.isPending site.name.lexeme = false →
        m.heap.holds frame site.name.lexeme = true) := by
  obtain ⟨hdepth, -, howned⟩ := hfound
  rw [hdepth] at hd
  obtain ⟨l, region, -, hl, hregion, -⟩ := howned.declarer hd
  obtain ⟨frame, -, hout, -, -, -, hready⟩ := hp.outward hl hregion
  obtain ⟨serial, name, writes, ⟨layers, root⟩, rs⟩ := site
  obtain ⟨g, rfl⟩ := howned.root
  exact ⟨frame, hout, fun hpending => hready _ (Scopes.ready_of_depthOf hd hl hpending)⟩

theorem Site.Found.lands {m : Machine} {site : Site} {depths : Nat → Option Nat}
    (hfound : site.Found depths) (hp : Placed c m.heap m.here site.scopes.layers site.regions)
    {depth : Nat} (hd : depths site.serial = some depth) : Lands c m site depth := by
  obtain ⟨frame, hout, hholds⟩ := hfound.holds hp hd
  obtain ⟨l, region, t, hl, hregion, -, ht, hmem⟩ :=
    hfound.owned.declarer (hfound.depth.symm.trans hd)
  obtain ⟨frame', link, hout', hne, hmade, hlink, -⟩ := hp.outward hl hregion
  obtain rfl := Option.some.inj (hout.symm.trans hout')
  refine ⟨hp, ⟨frame, link, region, l, t, hout, hne, hmade, hlink, hregion, hl, ht, hmem⟩, ?_⟩
  intro hreads
  obtain ⟨v, hv⟩ := Option.isSome_iff_exists.1 (hholds (hfound.settled hreads))
  refine ⟨v, ?_⟩
  unfold Heap.getAt
  simp only [hout, hv]

end Scriptlet

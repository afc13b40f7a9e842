import Scriptlet.Proofs.Binding.Unshadowed

/-!
# Frames hold what their regions declare

Every frame but that of the globals was made for a region, inside of the frames of the regions
around it. A `Lodging` says for each frame which regions these are. On a heap that is lodged so, a
frame holds no name but those that its region declares (`Heap.Lodged`).

**The search.** So a name is found from a frame outward no earlier than in the frame of the first
region that declares it (`Heap.Lodged.holder?`). If the references in a region are straight, this
is the frame that their depths lead to, and a reference without a depth passes all frames up to
that of the globals.
-/

namespace Scriptlet

/-- For each frame the regions that it is in, the innermost first. -/
abbrev Lodging := List (List Region)

variable {depths : Nat → Option Nat} {T T' : Lodging} {h : Heap Value} {e link : Nat}
  {r : Region} {rs : List Region} {name : String} {v : Value}

theorem Lodging.mono (hT : T <+: T') (he : T[e]? = some rs) : T'[e]? = some rs := by
  obtain ⟨more, rfl⟩ := hT
  rw [List.getElem?_append_left (List.getElem?_eq_some_iff.1 he).1]
  exact he

/-- The references of a function are straight in the regions of its home. -/
def Value.Lodged (depths : Nat → Option Nat) (T : Lodging) : Value → Prop
  | .closure _ d home =>
    ∃ rs s, T[home]? = some rs ∧ ∀ site ∈ Sites.body d rs s, site.Straight depths
  | _ => True

theorem Value.Lodged.mono (hT : T <+: T') (hv : v.Lodged depths T) : v.Lodged depths T' := by
  cases v with
  | closure identity d home =>
    obtain ⟨rs, s, hhome, hsites⟩ := hv
    exact ⟨rs, s, Lodging.mono hT hhome, hsites⟩
  | _ => trivial

/-- What a flow returns is lodged. -/
def Flow.Lodged (depths : Nat → Option Nat) (T : Lodging) : Flow → Prop
  | goOn => True
  | returning v => v.Lodged depths T

theorem Flow.Lodged.value {flow : Flow} (h : flow.Lodged depths T) :
    flow.value.Lodged depths T := by
  cases flow with
  | goOn => trivial
  | returning v => exact h

/-- The chronicle in which nothing has happened. -/
def Chronicle.blank : Chronicle := ⟨fun _ => False, fun _ => False⟩

/-- A value that is sound before anything has happened is no closure. -/
theorem Value.lodged_of_sound (hv : v.Sound .blank h) : v.Lodged depths T := by
  cases v with
  | closure identity d home =>
    obtain ⟨⟨_, _, _, hmoment, -⟩, -⟩ := hv
    exact hmoment.elim
  | _ => trivial

/-- A heap whose frames were made for these regions. -/
structure Heap.Lodged (depths : Nat → Option Nat) (T : Lodging) (h : Heap Value) : Prop where
  size : T.length = h.size
  root : T[Heap.root]? = some []
  outermost : ∀ e, T[e]? = some [] → e = Heap.root
  around : ∀ e r rs, T[e]? = some (r :: rs) →
    ∃ link, h.link? e = some link ∧ link < e ∧ T[link]? = some rs
  names : ∀ e r rs name, T[e]? = some (r :: rs) → h.holds e name = true → r.declares name = true
  values : ∀ e name v, h.local? e name = some v → v.Lodged depths T

namespace Heap.Lodged

theorem lt (hh : h.Lodged depths T) (he : T[e]? = some rs) : e < h.size :=
  hh.size ▸ (List.getElem?_eq_some_iff.1 he).1

/-! ## How a heap changes -/

theorem getElem?_new (hh : h.Lodged depths T) (rs : List Region) :
    (T ++ [rs])[h.size]? = some rs := by
  rw [← hh.size, List.getElem?_concat_length]

/-- A frame is added for a region inside of those of another frame. -/
theorem add (hh : h.Lodged depths T) (hlink : T[link]? = some rs) (r : Region) :
    (h.add (some link)).Lodged depths (T ++ [r :: rs]) := by
  have hT : T <+: T ++ [r :: rs] := List.prefix_append ..
  -- A frame is one of those before, or the new one.
  have hcases : ∀ e rs', (T ++ [r :: rs])[e]? = some rs' →
      T[e]? = some rs' ∨ e = h.size ∧ rs' = r :: rs := by
    intro e rs' he
    by_cases hlt : e < T.length
    · rw [List.getElem?_append_left hlt] at he
      exact .inl he
    · have hlen := (List.getElem?_eq_some_iff.1 he).1
      rw [List.length_append, List.length_singleton, hh.size] at hlen
      rw [hh.size] at hlt
      obtain rfl : e = h.size := by omega
      rw [hh.getElem?_new] at he
      exact .inr ⟨rfl, (Option.some.inj he).symm⟩
  refine ⟨?_, Lodging.mono hT hh.root, fun e he => ?_, fun e r' rs' he => ?_,
    fun e r' rs' name he hname => ?_, fun e name v hv => ?_⟩
  · rw [List.length_append, List.length_singleton, hh.size, size_add]
  · rcases hcases e [] he with he | ⟨-, hnil⟩
    · exact hh.outermost e he
    · cases hnil
  · rcases hcases e _ he with he | ⟨rfl, heq⟩
    · obtain ⟨link', hlink', hlt, hrs⟩ := hh.around e r' rs' he
      exact ⟨link', by rw [link?_add_of_lt (hh.lt he)]; exact hlink', hlt, Lodging.mono hT hrs⟩
    · obtain ⟨-, rfl⟩ := List.cons.inj heq
      exact ⟨link, link?_add_self .., hh.lt hlink, Lodging.mono hT hlink⟩
  · have hold : h.holds e name = true := by
      rwa [holds_add] at hname
    rcases hcases e _ he with he | ⟨rfl, -⟩
    · exact hh.names e r' rs' name he hold
    · -- The new frame holds nothing yet.
      exact absurd (lt_of_holds hold) (Nat.lt_irrefl _)
  · rw [local?_add] at hv
    exact (hh.values e name v hv).mono hT

/-- A name is bound that the region of the frame declares. -/
theorem define (hh : h.Lodged depths T) (hv : v.Lodged depths T)
    (hname : ∀ r rs, T[e]? = some (r :: rs) → r.declares name = true) :
    (h.define e name v).Lodged depths T := by
  refine ⟨by rw [size_define]; exact hh.size, hh.root, hh.outermost, fun e' r rs he => ?_,
    fun e' r rs key he hkey => ?_, fun e' key w hw => ?_⟩
  · rw [link?_define]
    exact hh.around e' r rs he
  · rcases holds_define_iff.1 hkey with ⟨rfl, rfl, -⟩ | hold
    · exact hname r rs he
    · exact hh.names e' r rs key he hold
  · rw [local?_define] at hw
    split at hw
    · exact Option.some.inj hw ▸ hv
    · exact hh.values e' key w hw

/-- A name that a frame holds is bound there again. -/
theorem overwrite (hh : h.Lodged depths T) (hv : v.Lodged depths T)
    (hholds : h.holds e name = true) : (h.define e name v).Lodged depths T :=
  hh.define hv fun r rs he => hh.names e r rs name he hholds

theorem defineAll {ps : List Token} {vs : List Value} (hh : h.Lodged depths T)
    (hvs : ∀ v ∈ vs, v.Lodged depths T)
    (hps : ∀ p ∈ ps, ∀ r rs, T[e]? = some (r :: rs) → r.declares p.lexeme = true) :
    (h.defineAll e ps vs).Lodged depths T := by
  induction ps generalizing h vs with
  | nil => exact hh
  | cons p ps ih =>
    cases vs with
    | nil => exact hh
    | cons v vs =>
      obtain ⟨hv, hvs⟩ := List.forall_mem_cons.1 hvs
      obtain ⟨hp, hps⟩ := List.forall_mem_cons.1 hps
      exact ih (hh.define hv hp) hvs hps

/-! ## The search -/

/-- From a frame outward a name is found no earlier than in the frame of the first region that
declares it, which is as many links out. If no region declares it, the globals are searched. -/
theorem holder? (hh : h.Lodged depths T) (he : T[e]? = some rs) (name : String) :
    match rs.findIdx? (·.declares name) with
    | some depth => ∃ frame, h.outward? depth e = some frame ∧
      (h.holds frame name = true → h.holder? e name = some frame)
    | none => h.holder? e name = h.holder? Heap.root name := by
  induction rs generalizing e with
  | nil =>
    obtain rfl := hh.outermost e he
    rfl
  | cons r rs ih =>
    obtain ⟨link, hlink, hlt, hrs⟩ := hh.around e r rs he
    have hholder := holder?_of_link hlink hlt name
    rw [List.findIdx?_cons]
    by_cases hdeclares : r.declares name = true
    · rw [if_pos hdeclares]
      refine ⟨e, rfl, fun hholds => ?_⟩
      rw [hholder, if_pos hholds]
    · rw [if_neg hdeclares]
      have hnot : ¬h.holds e name = true := fun hholds => hdeclares (hh.names e r rs name he hholds)
      rw [if_neg hnot] at hholder
      have hrest := ih hrs
      cases hfind : rs.findIdx? (·.declares name) with
      | none =>
        rw [hfind] at hrest
        exact hholder.trans hrest
      | some depth =>
        rw [hfind] at hrest
        obtain ⟨frame, hout, hfound⟩ := hrest
        refine ⟨frame, (outward?_succ hlink depth).trans hout, fun hholds => ?_⟩
        exact hholder.trans (hfound hholds)

end Heap.Lodged

end Scriptlet

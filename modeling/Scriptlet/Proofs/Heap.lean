import Scriptlet.Heap

/-!
# How a heap changes

A heap changes in two ways: a frame is added, or a name is bound in a frame. Each is told by what
it does to the size, the links and the variables. Either way the heap is extended
(`Heap.Extends`): links stay as they are, and no frame loses a name.
-/

namespace Scriptlet

variable {α : Type}

namespace Heap

/-! ## Adding and binding -/

@[simp] theorem size_add (h : Heap α) (link : Option Nat) : (h.add link).size = h.size + 1 :=
  Array.size_push ..

theorem link?_add_of_lt {h : Heap α} {link : Option Nat} {e : Nat} (he : e < h.size) :
    (h.add link).link? e = h.link? e := by
  unfold link? add
  rw [Array.getElem?_push_lt he]
  exact congrArg (Option.bind · _) (Array.getElem?_eq_getElem he).symm

@[simp] theorem link?_add_self (h : Heap α) (link : Option Nat) :
    (h.add link).link? h.size = link := by
  unfold link? add size
  rw [Array.getElem?_push_size]
  rfl

/-- A new frame holds nothing. -/
@[simp] theorem local?_add (h : Heap α) (link : Option Nat) (e : Nat) (name : String) :
    (h.add link).local? e name = h.local? e name := by
  unfold local? add
  rw [Array.getElem?_push]
  split
  · next he =>
    rw [he, Array.getElem?_eq_none (Nat.le_refl _)]
    rfl
  · rfl

@[simp] theorem holds_add (h : Heap α) (link : Option Nat) (e : Nat) (name : String) :
    (h.add link).holds e name = h.holds e name := by
  unfold holds
  rw [local?_add]

@[simp] theorem size_define (h : Heap α) (e : Nat) (name : String) (value : α) :
    (h.define e name value).size = h.size :=
  Array.size_modify ..

@[simp] theorem link?_define (h : Heap α) (e : Nat) (name : String) (value : α) (e' : Nat) :
    (h.define e name value).link? e' = h.link? e' := by
  unfold link? define
  rw [Array.getElem?_modify]
  split
  · cases h.frames[e']? <;> rfl
  · rfl

/-- Binding a name in a frame changes nothing else. -/
theorem local?_define (h : Heap α) (e : Nat) (name : String) (value : α) (e' : Nat)
    (key : String) : (h.define e name value).local? e' key =
      if e' = e ∧ key = name ∧ e < h.size then some value else h.local? e' key := by
  unfold local? define
  rw [Array.getElem?_modify]
  by_cases he : e = e'
  · subst he
    rw [if_pos rfl]
    by_cases hlt : e < h.size
    · rw [Array.getElem?_eq_getElem hlt]
      show (Table.insert _ name value).find? key = _
      rw [Table.find?_insert]
      by_cases hk : key = name
      · rw [if_pos hk, if_pos ⟨rfl, hk, hlt⟩]
      · rw [if_neg hk, if_neg fun hall => hk hall.2.1]
        rfl
    · rw [Array.getElem?_eq_none (Nat.le_of_not_lt hlt), if_neg fun hall => hlt hall.2.2]
      rfl
  · rw [if_neg he, if_neg fun hall => he hall.1.symm]

/-- A frame holds a name if it did before, or if the name was bound in it. -/
theorem holds_define_iff {h : Heap α} {e e' : Nat} {name key : String} {value : α} :
    (h.define e name value).holds e' key = true ↔
      (e' = e ∧ key = name ∧ e < h.size) ∨ h.holds e' key = true := by
  unfold holds
  rw [local?_define]
  split
  · next hnew => exact iff_of_true rfl (.inl hnew)
  · next hold => rw [or_iff_right hold]

theorem lt_of_link? {h : Heap α} {e link : Nat} (hl : h.link? e = some link) : e < h.size := by
  refine Nat.lt_of_not_le fun hge => ?_
  unfold link? at hl
  rw [Array.getElem?_eq_none hge] at hl
  cases hl

theorem lt_of_holds {h : Heap α} {e : Nat} {name : String} (hh : h.holds e name = true) :
    e < h.size := by
  refine Nat.lt_of_not_le fun hge => ?_
  unfold holds local? at hh
  rw [Array.getElem?_eq_none hge] at hh
  cases hh

/-- A name is found in a frame that holds it. -/
theorem holds_of_holder? {h : Heap α} {e frame : Nat} {name : String}
    (hf : h.holder? e name = some frame) : h.holds frame name = true := by
  have hholds := List.find?_some hf
  exact hholds

/-! ## In the outermost frame -/

theorem chain_of_outermost {h : Heap α} {e : Nat} (he : h.link? e = none) : h.chain e = [e] := by
  rw [chain, he]

/-- From a frame without a link nothing is looked up elsewhere. -/
theorem holder?_of_outermost {h : Heap α} {e : Nat} (he : h.link? e = none) (name : String) :
    h.holder? e name = if h.holds e name then some e else none := by
  unfold holder?
  rw [chain_of_outermost he, List.find?_singleton]

theorem get?_of_outermost {h : Heap α} {e : Nat} (he : h.link? e = none) (name : String) :
    h.get? e name = h.local? e name := by
  unfold get?
  rw [holder?_of_outermost he]
  unfold holds
  cases hl : h.local? e name with
  | none => rfl
  | some v => exact hl

theorem assign?_of_outermost {h : Heap α} {e : Nat} (he : h.link? e = none) (name : String)
    (value : α) :
    h.assign? e name value = if h.holds e name then some (h.define e name value) else none := by
  unfold assign?
  rw [holder?_of_outermost he]
  cases h.holds e name <;> rfl

/-- From the frame of the globals nothing is looked up elsewhere. -/
theorem holder?_root (h : Heap α) (name : String) :
    h.holder? root name = if h.holds root name then some root else none := by
  have hchain : h.chain root = [root] := by
    rw [chain]
    cases h.link? root with
    | none => rfl
    | some outer => exact if_neg (Nat.not_lt_zero outer)
  unfold holder?
  rw [hchain, List.find?_singleton]

theorem chain_of_link {h : Heap α} {e link : Nat} (hl : h.link? e = some link) (hlt : link < e) :
    h.chain e = e :: h.chain link := by
  rw [chain, hl]
  exact if_pos hlt

/-- From any other frame a name is looked up there, and then from the frame around. -/
theorem holder?_of_link {h : Heap α} {e link : Nat} (hl : h.link? e = some link) (hlt : link < e)
    (name : String) :
    h.holder? e name = if h.holds e name then some e else h.holder? link name := by
  unfold holder?
  rw [chain_of_link hl hlt, List.find?_cons]
  cases h.holds e name <;> rfl

/-! ## Going outward -/

@[simp] theorem outward?_zero (h : Heap α) (e : Nat) : h.outward? 0 e = some e := rfl

theorem outward?_succ {h : Heap α} {e link : Nat} (hl : h.link? e = some link) (depth : Nat) :
    h.outward? (depth + 1) e = h.outward? depth link := by
  show (h.ancestor depth (h.link? e)).join = _
  rw [hl]
  rfl

/-- No link leads out of the outermost frame. -/
theorem outward?_succ_of_outermost {h : Heap α} {e : Nat} (he : h.link? e = none) (depth : Nat) :
    h.outward? (depth + 1) e = none := by
  show (h.ancestor depth (h.link? e)).join = none
  rw [he]
  cases depth <;> rfl

/-! ## Extensions -/

/-- A later state of a heap. -/
structure Extends (h h' : Heap α) : Prop where
  size : h.size ≤ h'.size
  link : ∀ e, e < h.size → h'.link? e = h.link? e
  holds : ∀ e name, h.holds e name = true → h'.holds e name = true

theorem Extends.refl (h : Heap α) : h.Extends h :=
  ⟨Nat.le_refl _, fun _ _ => rfl, fun _ _ hh => hh⟩

theorem Extends.trans {h h' h'' : Heap α} (a : h.Extends h') (b : h'.Extends h'') :
    h.Extends h'' := by
  refine ⟨Nat.le_trans a.size b.size, fun e he => ?_, fun e name hh => ?_⟩
  · rw [b.link e (Nat.lt_of_lt_of_le he a.size), a.link e he]
  · exact b.holds e name (a.holds e name hh)

theorem extends_add (h : Heap α) (link : Option Nat) : h.Extends (h.add link) := by
  refine ⟨by rw [size_add]; exact Nat.le_succ _, fun e he => link?_add_of_lt he,
    fun e name hh => ?_⟩
  rw [holds_add]
  exact hh

theorem holds_define (h : Heap α) {e : Nat} (he : e < h.size) (name : String) (value : α) :
    (h.define e name value).holds e name = true := holds_define_iff.2 (.inl ⟨rfl, rfl, he⟩)

theorem extends_define (h : Heap α) (e : Nat) (name : String) (value : α) :
    h.Extends (h.define e name value) :=
  ⟨Nat.le_of_eq (size_define ..).symm, fun _ _ => link?_define ..,
    fun _ _ hh => holds_define_iff.2 (.inr hh)⟩

theorem Extends.link_eq {h h' : Heap α} (a : h.Extends h') {e link : Nat}
    (hl : h.link? e = some link) : h'.link? e = some link := by
  rw [a.link e (lt_of_link? hl), hl]

/-- The frame so many links out stays the same. -/
theorem Extends.outward? {h h' : Heap α} (a : h.Extends h') {depth e frame : Nat}
    (ho : h.outward? depth e = some frame) : h'.outward? depth e = some frame := by
  induction depth generalizing e with
  | zero => exact ho
  | succ depth ih =>
    cases hl : h.link? e with
    | some link =>
      rw [outward?_succ hl] at ho
      rw [outward?_succ (a.link_eq hl)]
      exact ih ho
    | none =>
      rw [outward?_succ_of_outermost hl] at ho
      cases ho

end Heap

end Scriptlet

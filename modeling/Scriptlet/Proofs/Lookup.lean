import Mathlib.Data.Nat.Find
import Mathlib.Order.Bounds.Basic
import Scriptlet.Proofs.Heap
import Scriptlet.Proofs.Table

/-!
# Where a name is found

A search goes outward from a frame and stops at the first one that holds the name. A jump goes as
many links out as it is told, whether the name is held there or not. If all links lead to older
frames (`Heap.Linked`), the frames that a search comes by are those that jumps lead to
(`Heap.Linked.getElem?_chain`). So a search stops where the least jump to a frame that holds the
name would lead (`Heap.Linked.holder?_eq_some_iff`), and finds nothing if there is no such jump.

**Binding a name** in a frame matters for the frames whose chain meets it, and meets no other
holder of the name before (`Heap.Meets`). From there the new value is found
(`Heap.Linked.get?_define_of_meets`), and from anywhere else, or for another name, what was found
before (`Heap.Linked.get?_define`). This tells of the heap behind a declaration, and also of the
one behind an assignment, where the frame held the name already.
-/

namespace Scriptlet.Heap

variable {α : Type} {h : Heap α} {e frame target link : Nat} {name key : String} {value : α}

/-- The frame so many links out holds the name. -/
def HoldsAt (h : Heap α) (e : Nat) (name : String) (depth : Nat) : Prop :=
  ∃ frame, h.outward? depth e = some frame ∧ h.holds frame name = true

/-- Of the frames outward that hold the name, this one is nearest. -/
def Nearest (h : Heap α) (e : Nat) (name : String) (frame : Nat) : Prop :=
  ∃ depth, IsLeast {d | h.HoldsAt e name d} depth ∧ h.outward? depth e = some frame

/-- Links lead outward to this frame, and none of the frames before it holds the name. -/
def Meets (h : Heap α) (e : Nat) (name : String) (frame : Nat) : Prop :=
  ∃ depth, h.outward? depth e = some frame ∧ ∀ d < depth, ¬h.HoldsAt e name d

theorem nearest_iff :
    h.Nearest e name frame ↔ h.Meets e name frame ∧ h.holds frame name = true := by
  constructor
  · rintro ⟨depth, ⟨⟨frame', hout', hholds⟩, hleast⟩, hout⟩
    obtain rfl := Option.some.inj (hout'.symm.trans hout)
    exact ⟨⟨depth, hout, fun d hd hat => Nat.not_le_of_lt hd (hleast hat)⟩, hholds⟩
  · rintro ⟨⟨depth, hout, hbefore⟩, hholds⟩
    refine ⟨depth, ⟨⟨frame, hout, hholds⟩, fun d hat => ?_⟩, hout⟩
    exact Nat.le_of_not_lt fun hd => hbefore d hd hat

/-- A frame that is met is met for a first time. -/
theorem Meets.first (hm : h.Meets e name frame) : ∃ depth, h.outward? depth e = some frame ∧
    ∀ d < depth, h.outward? d e ≠ some frame ∧ ¬h.HoldsAt e name d := by
  obtain ⟨depth, hout, hbefore⟩ := hm
  have hex : ∃ depth, h.outward? depth e = some frame := ⟨depth, hout⟩
  refine ⟨Nat.find hex, Nat.find_spec hex, fun d hd => ⟨Nat.find_min hex hd, ?_⟩⟩
  exact hbefore d (Nat.lt_of_lt_of_le hd (Nat.find_min' hex hout))

/-! ## Links to older frames -/

/-- Every link leads to an older frame. -/
def Linked (h : Heap α) : Prop := ∀ e link, h.link? e = some link → link < e

theorem linked_empty : (empty : Heap α).Linked := by
  intro e link hl
  exact absurd (lt_of_link? hl) (Nat.not_lt_zero e)

theorem Linked.add (hh : h.Linked) {outer : Option Nat} (houter : ∀ link ∈ outer, link < h.size) :
    (h.add outer).Linked := by
  intro e link hl
  have he := lt_of_link? hl
  rw [size_add] at he
  rcases Nat.lt_succ_iff_lt_or_eq.1 he with hlt | rfl
  · rw [link?_add_of_lt hlt] at hl
    exact hh e link hl
  · rw [link?_add_self] at hl
    exact houter link hl

theorem Linked.define (hh : h.Linked) (e : Nat) (name : String) (value : α) :
    (h.define e name value).Linked := by
  intro e' link hl
  rw [link?_define] at hl
  exact hh e' link hl

/-- **A search comes by the frames that jumps lead to**, in their order. -/
theorem Linked.getElem?_chain (hh : h.Linked) (e depth : Nat) :
    (h.chain e)[depth]? = h.outward? depth e := by
  induction depth generalizing e with
  | zero =>
    cases hl : h.link? e with
    | none => rw [chain_of_outermost hl]; rfl
    | some link => rw [chain_of_link hl (hh e link hl)]; rfl
  | succ depth ih =>
    cases hl : h.link? e with
    | none => rw [chain_of_outermost hl, outward?_succ_of_outermost hl]; rfl
    | some link =>
      rw [chain_of_link hl (hh e link hl), outward?_succ hl, List.getElem?_cons_succ]
      exact ih link

/-- **A search stops at the nearest frame** that holds the name. -/
theorem Linked.holder?_eq_some_iff (hh : h.Linked) :
    h.holder? e name = some frame ↔ h.Nearest e name frame := by
  rw [nearest_iff]
  unfold holder?
  rw [List.find?_eq_some_iff_getElem]
  constructor
  · rintro ⟨hholds, depth, hlt, hframe, hbefore⟩
    refine ⟨⟨depth, ?_, fun d hd => ?_⟩, hholds⟩
    · rw [← hh.getElem?_chain, List.getElem?_eq_some_iff]
      exact ⟨hlt, hframe⟩
    · rintro ⟨frame', hout, hheld⟩
      rw [← hh.getElem?_chain, List.getElem?_eq_some_iff] at hout
      obtain ⟨_, rfl⟩ := hout
      have hnot := hbefore d hd
      rw [hheld] at hnot
      cases hnot
  · rintro ⟨⟨depth, hout, hbefore⟩, hholds⟩
    rw [← hh.getElem?_chain, List.getElem?_eq_some_iff] at hout
    obtain ⟨hlt, hframe⟩ := hout
    refine ⟨hholds, depth, hlt, hframe, fun d hd => ?_⟩
    rw [Bool.not_eq_true', Bool.eq_false_iff]
    refine fun hheld => hbefore d hd ⟨_, ?_, hheld⟩
    rw [← hh.getElem?_chain]
    exact List.getElem?_eq_getElem _

/-- A search finds nothing if and only if no jump leads to a frame that holds the name. -/
theorem Linked.holder?_eq_none_iff (hh : h.Linked) :
    h.holder? e name = none ↔ ∀ depth, ¬h.HoldsAt e name depth := by
  unfold holder?
  rw [List.find?_eq_none]
  constructor
  · rintro hnone depth ⟨frame, hout, hholds⟩
    rw [← hh.getElem?_chain] at hout
    exact hnone frame (List.mem_of_getElem? hout) hholds
  · intro hnever frame hmem hholds
    obtain ⟨depth, hout⟩ := List.mem_iff_getElem?.1 hmem
    rw [hh.getElem?_chain] at hout
    exact hnever depth ⟨frame, hout, hholds⟩

/-! ## Binding a name -/

theorem outward?_define (h : Heap α) (target : Nat) (name : String) (value : α) (depth e : Nat) :
    (h.define target name value).outward? depth e = h.outward? depth e := by
  induction depth generalizing e with
  | zero => rfl
  | succ depth ih =>
    cases hl : h.link? e with
    | none => rw [outward?_succ_of_outermost hl, outward?_succ_of_outermost (by rwa [link?_define])]
    | some link => rw [outward?_succ hl, outward?_succ (by rwa [link?_define]), ih]

/-- Where a frame is met, it is nearest when the name is bound in it. -/
theorem Meets.define (hm : h.Meets e name target) (hlt : target < h.size) (value : α) :
    (h.define target name value).Nearest e name target := by
  obtain ⟨depth, hout, hbefore⟩ := hm.first
  rw [nearest_iff]
  refine ⟨⟨depth, by rwa [outward?_define], fun d hd => ?_⟩, h.holds_define hlt name value⟩
  rintro ⟨frame, hout', hholds⟩
  rw [outward?_define] at hout'
  obtain ⟨hother, hnot⟩ := hbefore d hd
  rcases holds_define_iff.1 hholds with ⟨rfl, -, -⟩ | hheld
  · exact hother hout'
  · exact hnot ⟨frame, hout', hheld⟩

/-- Where a frame is not met, a name that is bound in it changes nothing. -/
theorem nearest_define (hnot : key = name → ¬h.Meets e name target) :
    (h.define target name value).Nearest e key frame ↔ h.Nearest e key frame := by
  rw [nearest_iff, nearest_iff]
  constructor
  · rintro ⟨⟨depth, hout, hbefore⟩, hholds⟩
    rw [outward?_define] at hout
    have hmeets : h.Meets e key frame := by
      refine ⟨depth, hout, fun d hd hat => hbefore d hd ?_⟩
      obtain ⟨frame', hout', hheld⟩ := hat
      exact ⟨frame', by rwa [outward?_define], holds_define_iff.2 (.inr hheld)⟩
    refine ⟨hmeets, (holds_define_iff.1 hholds).resolve_left ?_⟩
    rintro ⟨rfl, rfl, -⟩
    exact hnot rfl hmeets
  · rintro ⟨⟨depth, hout, hbefore⟩, hholds⟩
    refine ⟨⟨depth, by rwa [outward?_define], fun d hd => ?_⟩, holds_define_iff.2 (.inr hholds)⟩
    rintro ⟨frame', hout', hheld'⟩
    rw [outward?_define] at hout'
    rcases holds_define_iff.1 hheld' with ⟨rfl, rfl, -⟩ | hheld
    · exact hnot rfl ⟨d, hout', fun d' hd' => hbefore d' (Nat.lt_trans hd' hd)⟩
    · exact hbefore d hd ⟨frame', hout', hheld⟩

/-- **A value is found from where its frame is met.** -/
theorem Linked.get?_define_of_meets (hh : h.Linked) (hm : h.Meets e name target)
    (hlt : target < h.size) (value : α) :
    (h.define target name value).get? e name = some value := by
  unfold get?
  rw [(hh.define target name value).holder?_eq_some_iff.2 (hm.define hlt value)]
  show (h.define target name value).local? target name = some value
  rw [local?_define, if_pos ⟨rfl, rfl, hlt⟩]

/-- **All else is found as before.** -/
theorem Linked.get?_define (hh : h.Linked) (hnot : key = name → ¬h.Meets e name target) :
    (h.define target name value).get? e key = h.get? e key := by
  have hsame : (h.define target name value).holder? e key = h.holder? e key := by
    refine Option.ext fun frame => ?_
    rw [(hh.define target name value).holder?_eq_some_iff, hh.holder?_eq_some_iff,
      nearest_define hnot]
  unfold get?
  rw [hsame]
  cases hf : h.holder? e key with
  | none => rfl
  | some frame =>
    show (h.define target name value).local? frame key = h.local? frame key
    rw [local?_define, if_neg]
    rintro ⟨rfl, rfl, -⟩
    exact hnot rfl (nearest_iff.1 (hh.holder?_eq_some_iff.1 hf)).1

/-- From these frames the name is found with this value, and all else is found as before. -/
structure Shows (h h' : Heap α) (frames : Nat → Prop) (name : String) (value : α) : Prop where
  found : ∀ e, frames e → h'.get? e name = some value
  same : ∀ e key, ¬(key = name ∧ frames e) → h'.get? e key = h.get? e key

/-- A name that is bound in a frame is found from where the frame is met. -/
theorem Linked.shows_define (hh : h.Linked) (hlt : target < h.size) (name : String) (value : α) :
    h.Shows (h.define target name value) (h.Meets · name target) name value where
  found _ hm := hh.get?_define_of_meets hm hlt value
  same _ _ hnot := hh.get?_define fun hkey hm => hnot ⟨hkey, hm⟩

/-! ## Binding a name again -/

/-- A name that is bound again is found from where its frame is nearest. -/
theorem Linked.shows_define_of_holds (hh : h.Linked) (hholds : h.holds target name = true)
    (value : α) : h.Shows (h.define target name value) (h.Nearest · name target) name value := by
  have hmeets : ∀ e, h.Meets e name target ↔ h.Nearest e name target := fun e => by
    rw [nearest_iff, and_iff_left hholds]
  have hshows := hh.shows_define (lt_of_holds hholds) name value
  refine ⟨fun e hn => hshows.found e ((hmeets e).2 hn), fun e key hnot => hshows.same e key ?_⟩
  exact fun hm => hnot ⟨hm.1, (hmeets e).1 hm.2⟩

/-- The names that a frame holds, in the order in which they were first bound. -/
def names (h : Heap α) (e : Nat) : List String :=
  (h.frames[e]?.map fun f => f.bindings.keys).getD []

/-- One variable of one frame has this value, and all else is the same: the frames and their links,
the names in each, their order, and the values of other variables. -/
structure Overwrites (h h' : Heap α) (frame : Nat) (name : String) (value : α) : Prop where
  size : h'.size = h.size
  link : ∀ e, h'.link? e = h.link? e
  names : ∀ e, h'.names e = h.names e
  changed : h'.local? frame name = some value
  same : ∀ e key, ¬(e = frame ∧ key = name) → h'.local? e key = h.local? e key

/-- A name keeps its place among the others when it is bound again. -/
theorem names_define (hh : h.holds frame name = true) (value : α) (e : Nat) :
    (h.define frame name value).names e = h.names e := by
  unfold names define
  rw [Array.getElem?_modify]
  split
  · next he =>
    subst he
    unfold holds local? at hh
    cases hf : h.frames[frame]? with
    | none => rfl
    | some f =>
      rw [hf] at hh
      show (f.bindings.insert name value).keys = f.bindings.keys
      rw [Table.keys_insert, if_pos (Table.contains_iff.1 hh)]
  · rfl

theorem overwrites_define (hh : h.holds frame name = true) (value : α) :
    h.Overwrites (h.define frame name value) frame name value where
  size := size_define ..
  link := link?_define h frame name value
  names := names_define hh value
  changed := by rw [local?_define, if_pos ⟨rfl, rfl, lt_of_holds hh⟩]
  same e key hother := by
    rw [local?_define, if_neg]
    exact fun hall => hother ⟨hall.1, hall.2.1⟩

end Scriptlet.Heap

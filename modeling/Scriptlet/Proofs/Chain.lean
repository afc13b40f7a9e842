import Scriptlet.Proofs.Heap

/-!
# The frames around a frame

Going outward from a frame, the frames around it are found (`Heap.Around`). On a heap where the
globals have no link and every other frame has one to an older frame (`Heap.Rooted`), this comes to
an end, and the end are the globals (`Heap.Rooted.around_root`). Such a heap stays so when frames
are added to it that have a link to a frame there is. The frames around the old ones then stay the
same (`Heap.Rooted.around_iff`).
-/

namespace Scriptlet.Heap

variable {α : Type} {h h' : Heap α} {e frame link : Nat}

/-- Some number of links lead from one frame out to another. -/
def Around (h : Heap α) (e frame : Nat) : Prop := ∃ depth, h.outward? depth e = some frame

theorem around_self (h : Heap α) (e : Nat) : h.Around e e := ⟨0, rfl⟩

/-- Around a frame is the frame itself, and what is around the frame of its link. -/
theorem around_of_link (hl : h.link? e = some link) :
    h.Around e frame ↔ frame = e ∨ h.Around link frame := by
  constructor
  · rintro ⟨_ | depth, ho⟩
    · exact .inl (Option.some.inj ho).symm
    · rw [outward?_succ hl] at ho
      exact .inr ⟨depth, ho⟩
  · rintro (rfl | ⟨depth, ho⟩)
    · exact around_self h frame
    · exact ⟨depth + 1, by rwa [outward?_succ hl]⟩

/-- Around a frame without a link is no other. -/
theorem eq_of_around (hl : h.link? e = none) (ha : h.Around e frame) : frame = e := by
  obtain ⟨_ | depth, ho⟩ := ha
  · exact (Option.some.inj ho).symm
  · rw [outward?_succ_of_outermost hl] at ho
    cases ho

/-- What is around a frame stays around it. -/
theorem Extends.around (a : h.Extends h') (ha : h.Around e frame) : h'.Around e frame := by
  obtain ⟨depth, ho⟩ := ha
  exact ⟨depth, a.outward? ho⟩

theorem around_of_mem_chain : ∀ {e : Nat}, frame ∈ h.chain e → h.Around e frame := by
  intro e
  induction e using Nat.strongRecOn with
  | ind e ih =>
    intro hmem
    rw [chain] at hmem
    cases hl : h.link? e with
    | none =>
      rw [hl] at hmem
      obtain rfl := List.mem_singleton.1 hmem
      exact around_self h _
    | some outer =>
      rw [hl] at hmem
      dsimp only at hmem
      split at hmem
      · next hlt =>
        rw [around_of_link hl]
        exact (List.mem_cons.1 hmem).imp_right (ih outer hlt)
      · obtain rfl := List.mem_singleton.1 hmem
        exact around_self h _

/-- A name is looked up in the frames around. -/
theorem around_of_holder? {name : String} (hf : h.holder? e name = some frame) :
    h.Around e frame := around_of_mem_chain (List.mem_of_find?_eq_some hf)

/-! ## Heaps with the globals at the end -/

/-- The globals have no link, and every other frame has a link to an older one. -/
structure Rooted (h : Heap α) : Prop where
  size : root < h.size
  outermost : h.link? root = none
  older : ∀ e, e < h.size → e ≠ root → ∃ link, h.link? e = some link ∧ link < e

namespace Rooted

/-- A frame is the one of the globals or has a link to an older one. -/
theorem induction (hr : h.Rooted) {P : Nat → Prop} (hroot : P root)
    (hlink : ∀ e link, h.link? e = some link → P link → P e) : ∀ e, e < h.size → P e := by
  intro e
  induction e using Nat.strongRecOn with
  | ind e ih =>
    intro he
    by_cases hne : e = root
    · exact hne ▸ hroot
    · obtain ⟨link, hl, hlt⟩ := hr.older e he hne
      exact hlink e link hl (ih link hlt (Nat.lt_trans hlt he))

/-- **Every chain ends in the globals.** -/
theorem around_root (hr : h.Rooted) (he : e < h.size) : h.Around e root :=
  hr.induction (P := (h.Around · root)) (around_self h root)
    (fun _ _ hl ih => (around_of_link hl).2 (.inr ih)) e he

/-- New frames are around no old one. -/
theorem around_iff (hr : h.Rooted) (a : h.Extends h') (he : e < h.size) :
    h'.Around e frame ↔ h.Around e frame := by
  refine ⟨hr.induction (P := fun e => h'.Around e frame → h.Around e frame) ?_ ?_ e he, a.around⟩
  · intro ha
    have hl : h'.link? root = none := (a.link root hr.size).trans hr.outermost
    rw [eq_of_around hl ha]
    exact around_self h root
  · intro e link hl ih ha
    rw [around_of_link hl]
    exact ((around_of_link (a.link_eq hl)).1 ha).imp_right ih

theorem add (hr : h.Rooted) (hl : link < h.size) : (h.add (some link)).Rooted := by
  refine ⟨?_, ?_, fun e he hne => ?_⟩
  · rw [size_add]
    exact Nat.succ_pos _
  · rw [link?_add_of_lt hr.size]
    exact hr.outermost
  · rw [size_add] at he
    rcases Nat.lt_succ_iff_lt_or_eq.1 he with hlt | rfl
    · rw [link?_add_of_lt hlt]
      exact hr.older e hlt hne
    · exact ⟨link, link?_add_self .., hl⟩

theorem define (hr : h.Rooted) (e : Nat) (name : String) (value : α) :
    (h.define e name value).Rooted := by
  refine ⟨by rw [size_define]; exact hr.size, by rw [link?_define]; exact hr.outermost,
    fun e' he' hne => ?_⟩
  rw [size_define] at he'
  rw [link?_define]
  exact hr.older e' he' hne

end Rooted

/-- Every chain is finite, and its last frame is that of the globals. -/
def EndsAtRoot (h : Heap α) : Prop :=
  h.link? root = none ∧ ∀ e, e < h.size → h.Around e root

theorem Rooted.endsAtRoot (hr : h.Rooted) : h.EndsAtRoot :=
  ⟨hr.outermost, fun _ he => hr.around_root he⟩

end Scriptlet.Heap

import Scriptlet.Proofs.Binding.Soundness
import Scriptlet.Proofs.Chain
import Scriptlet.Proofs.Eval.History

/-!
# The footprint of a run

A run changes no frame that it has no business with. Of the frames that there are when a task is
begun, those that differ behind it are around the frame that it is begun in, or around the home of a
closure that was invoked meanwhile (`Moment.footprint`). It does not matter where the closure comes
from: it may have been stored anywhere, or made by the run itself.

By itself a moment binds names only in frames around the one that it is in (`Changes.around`). So
what remains is which frames a run gets into, and it gets into new ones only: a block makes a frame
around which is what was around before, and a call makes one around which is what is around the home
of the closure (`Starts.enters`).

All this is said of heaps where every chain ends in the globals. A run keeps them so
(`Moment.Grounded.rooted`) if the frames that it is in, and the homes of the closures that it calls,
are on the heap.
-/

namespace Scriptlet

open Relation (ReflTransGen)

variable {s : Setting} {a b : Moment} {h h' : Heap Value} {m m' : Machine} {e frame link : Nat}

/-! ## Heaps -/

theorem Heap.Rooted.defineAll (hr : h.Rooted) (e : Nat) (ps : List Token) (vs : List Value) :
    (h.defineAll e ps vs).Rooted := by
  induction ps generalizing h vs with
  | nil => exact hr
  | cons p ps ih =>
    cases vs with
    | nil => exact hr
    | cons v vs => exact ih (hr.define e p.lexeme v) vs

/-- Binding a name changes no other frame. -/
theorem Heap.frames_define (h : Heap Value) {target : Nat} (name : String) (v : Value)
    (he : e ≠ target) : (h.define target name v).frames[e]? = h.frames[e]? := by
  unfold Heap.define
  rw [Array.getElem?_modify, if_neg he.symm]

theorem Heap.frames_defineAll (h : Heap Value) {target : Nat} (ps : List Token) (vs : List Value)
    (he : e ≠ target) : (h.defineAll target ps vs).frames[e]? = h.frames[e]? := by
  induction ps generalizing h vs with
  | nil => rfl
  | cons p ps ih =>
    cases vs with
    | nil => rfl
    | cons v vs => exact (ih _ vs).trans (h.frames_define p.lexeme v he)

theorem Heap.frames_add (h : Heap Value) (link : Option Nat) (he : e < h.size) :
    (h.add link).frames[e]? = h.frames[e]? := by
  unfold Heap.add
  rw [Array.getElem?_push_lt he]
  exact (Array.getElem?_eq_getElem he).symm

namespace Moment

/-! ## What a moment does by itself -/

/-- What a moment does extends the heap. -/
theorem Changes.extends (hc : a.Changes s h h') : h.Extends h' := by
  cases hc with
  | var | initialise _ | function | assign _ _ => exact Heap.extends_define ..
  | block => exact Heap.extends_add ..
  | call _ => exact (Heap.extends_add ..).trans (Heap.extends_defineAll ..)

theorem History.extends (hh : a.History s h h') : h.Extends h' := by
  induction hh with
  | refl => exact .refl _
  | tail _ hstep ih =>
    obtain ⟨b, -, hc⟩ := hstep
    exact ih.trans hc.extends

/-- The moment invokes a closure with this home. -/
inductive Invokes : Moment → Nat → Prop
  | intro {fuel room identity home : Nat} {paren : Token} {d : Declaration} {vs : List Value}
      {m : Machine} : vs.length = d.params.length →
      Invokes ⟨fuel + 1, room + 1, .apply paren (.closure identity d home) vs, m⟩ home

/-- The frame that a moment is in, and the home of a closure that it invokes, are on the heap. -/
structure Housed (a : Moment) : Prop where
  here : a.machine.here < a.machine.heap.size
  home : ∀ e, a.Invokes e → e < a.machine.heap.size

/-- A moment below which all is on the heap, and with a heap where all chains end in the globals. -/
structure Grounded (s : Setting) (a : Moment) : Prop where
  rooted : a.machine.heap.Rooted
  housed : ∀ b, Reaches s a b → b.Housed

/-- What a moment does keeps chains as they should be. -/
theorem Changes.rooted (hc : a.Changes s h h') (ha : a.Housed) (hr : h.Rooted) : h'.Rooted := by
  cases hc with
  | var | initialise _ | function | assign _ _ => exact hr.define ..
  | block => exact hr.add ha.here
  | call hlen => exact (hr.add (ha.home _ (.intro hlen))).defineAll ..

theorem Grounded.history (ha : a.Grounded s) (hh : a.History s a.machine.heap h) : h.Rooted := by
  induction hh with
  | refl => exact ha.rooted
  | tail _ hstep ih =>
    obtain ⟨b, hb, hc⟩ := hstep
    exact hc.rooted (ha.housed b hb) ih

/-- What is below a moment that is grounded is so too. -/
theorem Grounded.reaches (ha : a.Grounded s) (hb : Reaches s a b) : b.Grounded s :=
  ⟨ha.history (Reaches.history hb), fun c hc => ha.housed c (hb.trans hc)⟩

/-- **A moment binds names around it only.** A frame that it changes, and has not made, is around
the one that it is in. -/
theorem Changes.around (hc : a.Changes s h h') (ha : a.Housed) (hr : a.machine.heap.Rooted)
    (he : e < a.machine.heap.size) (hne : h'.frames[e]? ≠ h.frames[e]?) :
    a.machine.heap.Around a.machine.here e := by
  have hself : ∀ {h : Heap Value} {target : Nat} {name : String} {v : Value},
      (h.define target name v).frames[e]? ≠ h.frames[e]? → e = target := fun hne =>
    Decidable.byContradiction fun he => hne (Heap.frames_define _ _ _ he)
  cases hc with
  | var | initialise _ | function =>
    rw [hself hne]
    exact Heap.around_self ..
  | @assign fuel room serial frame name value v m m' hv hf =>
    rw [hself hne]
    have hleft := (Moment.left s ⟨fuel, room, .expr value, m⟩).ok hv
    -- The target is looked for when the value is there.
    have hlater : m'.heap.Around m'.here frame → m.heap.Around m.here frame := by
      rw [hleft.here]
      exact (hr.around_iff hleft.extended ha.here).1
    unfold Setting.target? at hf
    split at hf
    · rw [Heap.holder?_root] at hf
      split at hf
      · obtain rfl := Option.some.inj hf
        exact hr.around_root ha.here
      · cases hf
    · exact hlater ⟨_, hf⟩
    · exact hlater (Heap.around_of_holder? hf)
  | block => exact absurd (Heap.frames_add _ _ he) hne
  | call hlen =>
    refine absurd ?_ hne
    exact (Heap.frames_defineAll _ _ _ (Nat.ne_of_lt he)).trans (Heap.frames_add _ _ he)

end Moment

/-! ## Where a run gets to -/

/-- What a moment begins is in the same frame, or in a new one, whose link leads to this frame or to
the home of a closure that is invoked. -/
theorem Starts.enters (h : Starts s a b) : b.machine.here = a.machine.here ∨
    ∃ link, (link = a.machine.here ∨ a.Invokes link) ∧
      b.machine.here = a.machine.heap.size ∧
      b.machine.heap.link? a.machine.heap.size = some link := by
  cases h with
  | binaryRight hr | logicalRight hr _ | arguments hr | others hr | yes hr _ | no hr _
  | turn hr _ =>
    exact .inl (here_of_expr hr)
  | @call fuel room m m₁ m₂ _ _ args _ vs hr hr' =>
    have hhere : m₂.here = m₁.here := Moment.here_of_ok (a := ⟨fuel, room, .exprs args, m₁⟩) hr'
    exact .inl (hhere.trans (here_of_expr hr))
  | next hr => exact .inl (here_of_stmt hr)
  | again hr _ hr' => exact .inl ((here_of_stmt hr').trans (here_of_expr hr))
  | block => exact .inr ⟨_, .inl rfl, rfl, Heap.link?_add_self ..⟩
  | body hlen =>
    refine .inr ⟨_, .inr (.intro hlen), rfl, ?_⟩
    exact (Heap.extends_defineAll ..).link_eq (Heap.link?_add_self ..)
  | _ => exact .inl rfl

namespace Moment

/-- At or below the moment a closure is invoked around whose home is the frame. -/
def CallsInto (s : Setting) (a : Moment) (e : Nat) : Prop :=
  ∃ b home, Reaches s a b ∧ b.Invokes home ∧ b.machine.heap.Around home e

/-- The frame is around the one that the moment is in, or closures are called into it. -/
def Near (s : Setting) (a : Moment) (e : Nat) : Prop :=
  a.machine.heap.Around a.machine.here e ∨ a.CallsInto s e

/-- **A run gets into new frames only.** Of the old frames, those around a moment below are near. -/
theorem Grounded.near (ha : a.Grounded s) (hb : Reaches s a b) (he : e < a.machine.heap.size)
    (haround : b.machine.heap.Around b.machine.here e) : a.Near s e := by
  induction hb with
  | refl => exact .inl haround
  | @tail b c hb hbc ih =>
    have hgrounded := ha.reaches hb
    have hextends : b.machine.heap.Extends c.machine.heap := hbc.history.extends
    have hhoused := hgrounded.housed b .refl
    have hsize : e < b.machine.heap.size := Nat.lt_of_lt_of_le he (Reaches.history hb).extends.size
    rcases hbc.enters with hhere | ⟨link, hlink, hhere, hnew⟩
    · rw [hhere, hgrounded.rooted.around_iff hextends hhoused.here] at haround
      exact ih haround
    · rw [hhere, Heap.around_of_link hnew] at haround
      rcases haround with rfl | haround
      · exact absurd hsize (Nat.lt_irrefl _)
      · rcases hlink with rfl | hinvokes
        · exact ih ((hgrounded.rooted.around_iff hextends hhoused.here).1 haround)
        · refine .inr ⟨b, link, hb, hinvokes, ?_⟩
          exact (hgrounded.rooted.around_iff hextends (hhoused.home link hinvokes)).1 haround

/-- A frame that a history has changed was changed by one of its steps. -/
theorem History.step (hh : a.History s h h') (hne : h'.frames[e]? ≠ h.frames[e]?) :
    ∃ b h₁ h₂, Reaches s a b ∧ b.Changes s h₁ h₂ ∧ h₂.frames[e]? ≠ h₁.frames[e]? := by
  induction hh with
  | refl => exact absurd rfl hne
  | @tail h₁ h₂ _ hstep ih =>
    by_cases hsame : h₂.frames[e]? = h₁.frames[e]?
    · exact ih (hsame ▸ hne)
    · obtain ⟨b, hb, hc⟩ := hstep
      exact ⟨b, h₁, h₂, hb, hc, hsame⟩

/-- Of the frames that there were, only those near a moment have changed. -/
def Footprint (s : Setting) (a : Moment) (h : Heap Value) : Prop :=
  ∀ e, e < a.machine.heap.size → h.frames[e]? ≠ a.machine.heap.frames[e]? → a.Near s e

/-- **A run changes frames only that are near.** -/
theorem Grounded.footprint (ha : a.Grounded s) : a.Leaves s fun m => a.Footprint s m.heap := by
  refine (Moment.history s a).mono fun m hh e he hne => ?_
  obtain ⟨b, h₁, h₂, hb, hc, hne⟩ := hh.step hne
  have hsize : e < b.machine.heap.size := Nat.lt_of_lt_of_le he (Reaches.history hb).extends.size
  have hgrounded := ha.reaches hb
  exact ha.near hb he (hc.around (ha.housed b hb) hgrounded.rooted hsize hne)

end Moment

end Scriptlet

import Scriptlet.Eval.Operator
import Scriptlet.Proofs.Heap
import Scriptlet.Proofs.Table
import Scriptlet.Proofs.Tree.Alike

/-!
# Machines that are alike

When two programs that are alike run side by side, they make the same frames, and the frames of
equal numbers hold values that are alike, under names that are mapped (`Heap.Alike`). What is known
of the frames is a list: for each frame the marks of its region and those around, the innermost
first. It only grows, by the marks of new frames.

Closures are alike if they were made alike: with the same identity and the same home, from
declarations that are alike in the place of the home (`Value.Alike`).
-/

namespace Scriptlet

variable (K : Likeness)

/-- Functions are declared alike in a place with these marks. -/
inductive Declaration.Alike (marks : List Bool) : Declaration → Declaration → Prop
  | intro (b : Bool) {d d' : Declaration} : d'.name.lexeme = d.name.lexeme →
      List.Forall₂ (K.Named b) d.params d'.params →
      Stmts.Alike K (b :: marks) d.body d'.body → Declaration.Alike marks d d'

/-- Values are alike when these are the marks of frames. -/
inductive Value.Alike (marks : List (List Bool)) : Value → Value → Prop
  | nil : Value.Alike marks .nil .nil
  | bool {b : Bool} : Value.Alike marks (.bool b) (.bool b)
  | number {x : Float} : Value.Alike marks (.number x) (.number x)
  | string {s : String} : Value.Alike marks (.string s) (.string s)
  | native {n : Native} : Value.Alike marks (.native n) (.native n)
  | closure {identity home : Nat} {ms : List Bool} {d d' : Declaration} :
      marks[home]? = some ms → Declaration.Alike K ms d d' →
      Value.Alike marks (.closure identity d home) (.closure identity d' home)

/-- The mark of a frame is that of its region. -/
def Likeness.frameName (ms : List Bool) : String → String := K.name (ms.head?.getD false)

/-- Heaps are alike when these are the marks of their frames. -/
structure Heap.Alike (marks : List (List Bool)) (h h' : Heap Value) : Prop where
  size : h.size = marks.length
  size_eq : h'.size = h.size
  links : ∀ e, h'.link? e = h.link? e
  root : marks[Heap.root]? = some []
  outermost : h.link? Heap.root = none
  around : ∀ (e link : Nat) (ms : List Bool), h.link? e = some link → marks[e]? = some ms →
    ∃ b ms', ms = b :: ms' ∧ marks[link]? = some ms'
  frames : ∀ (e : Nat) (ms : List Bool), marks[e]? = some ms → ∃ f f' : Frame Value,
    h.frames[e]? = some f ∧ h'.frames[e]? = some f' ∧
      f.bindings.Like (K.frameName ms) (Value.Alike K marks) f'.bindings

/-- Machines are alike when these are the marks of their frames. -/
structure Machine.Alike (marks : List (List Bool)) (m m' : Machine) : Prop where
  heap : m.heap.Alike K marks m'.heap
  here : m'.here = m.here
  printed : m'.printed = m.printed
  closures : m'.closures = m.closures
  answers : m'.answers = m.answers

/-- Stops are alike: the same cause, blamed on related tokens. -/
inductive Stop.Alike : Stop → Stop → Prop
  | crash {t t' : Token} {cause : Crash.Cause} : K.token false t t' →
      Stop.Alike (.crash ⟨t, cause⟩) (.crash ⟨t', cause⟩)
  | fault {f : Fault} : Stop.Alike (.fault f) (.fault f)
  | outOfFuel : Stop.Alike .outOfFuel .outOfFuel

variable {K} {marks marks' : List (List Bool)} {v v' w w' : Value}

/-- The marks of frames stay. -/
theorem get_of_initial (hm : marks <+: marks') {e : Nat} {ms : List Bool}
    (he : marks[e]? = some ms) : marks'[e]? = some ms := by
  obtain ⟨more, rfl⟩ := hm
  rw [List.getElem?_append_left (List.getElem?_eq_some_iff.1 he).1, he]

/-! ## Values -/

theorem Value.Alike.mono (hm : marks <+: marks') (h : Value.Alike K marks v v') :
    Value.Alike K marks' v v' := by
  cases h with
  | closure hhome hd => exact .closure (get_of_initial hm hhome) hd
  | _ => constructor

theorem Value.Alike.isTruthy (h : Value.Alike K marks v v') : v'.isTruthy = v.isTruthy := by
  cases h <;> rfl

theorem Value.Alike.text (h : Value.Alike K marks v v') : v'.text = v.text := by
  cases h with
  | closure hhome hd =>
    cases hd with
    | intro b hname _ _ =>
      show "<fn " ++ _ ++ ">" = _
      rw [hname]
      rfl
  | _ => rfl

theorem Value.Alike.equals (h : Value.Alike K marks v v') (hw : Value.Alike K marks w w') :
    v'.equals w' = v.equals w := by
  cases h <;> cases hw <;> rfl

theorem Value.alike_ofLiteral (l : Literal) :
    Value.Alike K marks (.ofLiteral l) (.ofLiteral l) := by
  cases l <;> constructor

/-! ## Heaps -/

namespace Heap.Alike

variable {h h' : Heap Value} {e link : Nat} {ms : List Bool}

theorem lt (a : h.Alike K marks h') (he : marks[e]? = some ms) : e < h.size := by
  rw [a.size]
  exact (List.getElem?_eq_some_iff.1 he).1

theorem outward?_eq (a : h.Alike K marks h') (depth e : Nat) :
    h'.outward? depth e = h.outward? depth e := by
  have hancestor : ∀ e : Option Nat, h'.ancestor depth e = h.ancestor depth e := by
    induction depth with
    | zero => exact fun _ => rfl
    | succ depth ih =>
      intro e
      cases e with
      | none => rfl
      | some e =>
        show h'.ancestor depth (h'.link? e) = h.ancestor depth (h.link? e)
        rw [a.links, ih]
  exact congrArg Option.join (hancestor (some e))

/-- The frame so many links out has the mark that so many marks out there is. -/
theorem outward (a : h.Alike K marks h') {depth frame : Nat} (he : marks[e]? = some ms)
    (hout : h.outward? depth e = some frame) : ∃ ms', marks[frame]? = some ms' ∧
      ms'.head?.getD false = Likeness.mark ms (some depth) := by
  induction depth generalizing e ms with
  | zero =>
    obtain rfl := Option.some.inj hout
    refine ⟨ms, he, ?_⟩
    cases ms <;> rfl
  | succ depth ih =>
    cases hl : h.link? e with
    | none =>
      have hnone : h.outward? (depth + 1) e = (h.ancestor depth none).join :=
        congrArg (fun l => (h.ancestor depth l).join) hl
      rw [hnone] at hout
      cases depth <;> cases hout
    | some link =>
      obtain ⟨b, ms', rfl, hlink⟩ := a.around e link ms hl he
      rw [outward?_succ hl] at hout
      exact ih hlink hout

theorem local? (a : h.Alike K marks h') (he : marks[e]? = some ms) (name : String) :
    Option.Rel (Value.Alike K marks) (h.local? e name) (h'.local? e (K.frameName ms name)) := by
  obtain ⟨f, f', hf, hf', hlike⟩ := a.frames e ms he
  unfold Heap.local?
  rw [hf, hf']
  exact hlike.find? (K.injective _) name

theorem holds (a : h.Alike K marks h') (he : marks[e]? = some ms) (name : String) :
    h'.holds e (K.frameName ms name) = h.holds e name := by
  have hrel := a.local? he name
  unfold Heap.holds
  generalize h.local? e name = o at hrel
  generalize h'.local? e (K.frameName ms name) = o' at hrel
  cases hrel <;> rfl

/-- New frames with equal links may get any mark. -/
theorem add (a : h.Alike K marks h') (hlink : marks[link]? = some ms) (b : Bool) :
    (h.add (some link)).Alike K (marks ++ [b :: ms]) (h'.add (some link)) := by
  have hsize := a.size
  have hmono : marks <+: marks ++ [b :: ms] := List.prefix_append ..
  have hnew : (marks ++ [b :: ms])[h.size]? = some (b :: ms) := by
    rw [hsize, List.getElem?_concat_length]
  have hcases : ∀ e ms', (marks ++ [b :: ms])[e]? = some ms' →
      (e < h.size ∧ marks[e]? = some ms') ∨ (e = h.size ∧ ms' = b :: ms) := by
    intro e ms' he
    rcases Nat.lt_trichotomy e h.size with hlt | rfl | hgt
    · rw [List.getElem?_append_left (hsize ▸ hlt)] at he
      exact .inl ⟨hlt, he⟩
    · exact .inr ⟨rfl, Option.some.inj (he.symm.trans hnew)⟩
    · rw [List.getElem?_eq_none (by simp; omega)] at he
      cases he
  refine ⟨by simp [hsize], by simp [a.size_eq], fun e => ?_, ?_, ?_, ?_, ?_⟩
  · unfold Heap.link? Heap.add
    have hframes : h'.frames.size = h.frames.size := a.size_eq
    rw [Array.getElem?_push, Array.getElem?_push, hframes]
    split
    · rfl
    · exact a.links e
  · exact get_of_initial hmono a.root
  · rw [link?_add_of_lt (a.lt a.root)]
    exact a.outermost
  · intro e link' ms' hl he
    rcases hcases e ms' he with ⟨hlt, he⟩ | ⟨rfl, rfl⟩
    · rw [link?_add_of_lt hlt] at hl
      obtain ⟨b', ms'', rfl, hms⟩ := a.around e link' ms' hl he
      exact ⟨b', ms'', rfl, get_of_initial hmono hms⟩
    · rw [link?_add_self] at hl
      obtain rfl := Option.some.inj hl
      exact ⟨b, ms, rfl, get_of_initial hmono hlink⟩
  · intro e ms' he
    unfold Heap.add
    dsimp only
    have hframes : h'.frames.size = h.frames.size := a.size_eq
    rw [Array.getElem?_push, Array.getElem?_push, hframes]
    rcases hcases e ms' he with ⟨hlt, he⟩ | ⟨rfl, rfl⟩
    · obtain ⟨f, f', hf, hf', hlike⟩ := a.frames e ms' he
      have hne : ¬ e = h.frames.size := Nat.ne_of_lt hlt
      rw [if_neg hne, if_neg hne]
      exact ⟨f, f', hf, hf', hlike.mono fun _ _ hv => hv.mono hmono⟩
    · exact ⟨⟨.empty, some link⟩, ⟨.empty, some link⟩, if_pos rfl, if_pos rfl, Table.like_empty⟩

theorem define (a : h.Alike K marks h') (he : marks[e]? = some ms) (hv : Value.Alike K marks v v')
    (name : String) :
    (h.define e name v).Alike K marks (h'.define e (K.frameName ms name) v') := by
  refine ⟨by rw [size_define, a.size], by rw [size_define, size_define, a.size_eq], fun e' => ?_,
    a.root, ?_, ?_, ?_⟩
  · rw [link?_define, link?_define, a.links]
  · rw [link?_define]
    exact a.outermost
  · intro e' link ms' hl he'
    rw [link?_define] at hl
    exact a.around e' link ms' hl he'
  · intro e' ms' he'
    obtain ⟨f, f', hf, hf', hlike⟩ := a.frames e' ms' he'
    unfold Heap.define
    dsimp only
    rw [Array.getElem?_modify, Array.getElem?_modify, hf, hf']
    by_cases heq : e = e'
    · subst heq
      obtain rfl := Option.some.inj (he.symm.trans he')
      rw [if_pos rfl, if_pos rfl]
      exact ⟨_, _, rfl, rfl, hlike.insert (K.injective _) hv⟩
    · rw [if_neg heq, if_neg heq]
      exact ⟨f, f', rfl, rfl, hlike⟩

end Heap.Alike

end Scriptlet

import Scriptlet.Proofs.Eval.Activation
import Scriptlet.Proofs.Lookup

/-!
# Reading and changing variables

**Theorem (`Heap.variables_of_history`).** On a heap that has come of any history, let the name of a
variable be held at a least depth outward from a frame. Then to search for it and to jump by this
depth is the same: both read the value there, and both change that value and nothing else. If it is
held at no depth, reading and changing it stops the program, which leaves everything as it was. A
declaration in the frame is seen only from the frames whose chain meets it.

A history makes frames, declares variables and assigns to them, by a search or by a jump
(`Heap.Deed`). The links that it leaves all lead to older frames (`Heap.linked_of_made`), and this
is all that the theorem needs to know of it. So there may be any number of outermost frames, and
any number of frames around which another one is.
-/

namespace Scriptlet

namespace Heap

variable {α : Type}

/-- What is done to a heap. -/
inductive Deed (α : Type) where
  /-- Makes a frame around which is another one, or none. -/
  | new (outer : Option Nat)
  | define (e : Nat) (name : String) (value : α)
  /-- Changes the value of a name that is searched for. -/
  | assign (e : Nat) (name : String) (value : α)
  /-- Binds a name in the frame a number of links out. -/
  | assignAt (depth e : Nat) (name : String) (value : α)

/-- The heap behind a deed, if it is done to frames that there are. If a name that is assigned to is
not found, all stays as it was. -/
def after? (h : Heap α) : Deed α → Option (Heap α)
  | .new outer => if outer.all (· < h.size) then some (h.add outer) else none
  | .define e name value => if e < h.size then some (h.define e name value) else none
  | .assign e name value => if e < h.size then some ((h.assign? e name value).getD h) else none
  | .assignAt depth e name value => if e < h.size then h.assignAt? depth e name value else none

/-- The heap that deeds make of nothing. -/
def made? (deeds : List (Deed α)) : Option (Heap α) := deeds.foldlM after? empty

variable {h h' : Heap α} {deeds : List (Deed α)}

/-- What is done to a heap keeps its links in order. -/
theorem Linked.after? (hh : h.Linked) {deed : Deed α} (hd : h.after? deed = some h') :
    h'.Linked := by
  unfold Heap.after? at hd
  split at hd <;> split at hd
  · next outer houter =>
    obtain rfl := Option.some.inj hd
    refine hh.add fun link hlink => ?_
    obtain rfl : outer = some link := hlink
    exact of_decide_eq_true houter
  · cases hd
  · obtain rfl := Option.some.inj hd
    exact hh.define _ _ _
  · cases hd
  · next e name value _ =>
    obtain rfl := Option.some.inj hd
    unfold assign?
    cases h.holder? e name with
    | none => exact hh
    | some holder => exact hh.define holder name value
  · cases hd
  · obtain ⟨target, -, rfl⟩ := Option.map_eq_some_iff.1 hd
    exact hh.define _ _ _
  · cases hd

theorem Linked.foldlM (hh : h.Linked) (hd : deeds.foldlM Heap.after? h = some h') :
    h'.Linked := by
  induction deeds generalizing h with
  | nil =>
    obtain rfl := Option.some.inj hd
    exact hh
  | cons deed deeds ih =>
    rw [List.foldlM_cons] at hd
    obtain ⟨h₁, hfirst, hrest⟩ := Option.bind_eq_some_iff.1 hd
    exact ih (hh.after? hfirst) hrest

/-- **Histories link to older frames only.** -/
theorem linked_of_made (hd : made? deeds = some h) : h.Linked := linked_empty.foldlM hd

end Heap

/-! ## What the machine does -/

namespace Eval

variable {m : Machine} {e depth frame : Nat} {name : Token} {v : Value}

theorem readNearest_ok (hh : m.heap.Linked) (hn : m.heap.Nearest e name.lexeme frame)
    (hv : m.heap.local? frame name.lexeme = some v) : readNearest e name m = .ok v m := by
  unfold readNearest Heap.get?
  rw [hh.holder?_eq_some_iff.2 hn, Option.bind_some, hv]

theorem writeNearest_ok (hh : m.heap.Linked) (hn : m.heap.Nearest e name.lexeme frame)
    (value : Value) : writeNearest e name value m =
      .ok () { m with heap := m.heap.define frame name.lexeme value } := by
  unfold writeNearest Heap.assign?
  rw [hh.holder?_eq_some_iff.2 hn]
  rfl

theorem inside_readOutward (hout : m.heap.outward? depth e = some frame)
    (hv : m.heap.local? frame name.lexeme = some v) :
    inside e (readOutward depth name) m = .ok v m := by
  unfold inside readOutward Heap.getAt
  simp only [hout, hv]

theorem inside_writeOutward (hout : m.heap.outward? depth e = some frame) (value : Value) :
    inside e (writeOutward depth name value) m =
      .ok () { m with heap := m.heap.define frame name.lexeme value } := by
  have hwrite := writeOutward_eq (m := { m with here := e }) name value hout
  exact inside_ok hwrite

/-- A variable that is not found stops the program, and nothing else happens. -/
theorem readNearest_undefined (hh : m.heap.Linked)
    (hnone : ∀ depth, ¬m.heap.HoldsAt e name.lexeme depth) :
    readNearest e name m = .error (.crash ⟨name, .undefined name.lexeme⟩) m := by
  unfold readNearest Heap.get?
  rw [hh.holder?_eq_none_iff.2 hnone]
  rfl

theorem writeNearest_undefined (hh : m.heap.Linked)
    (hnone : ∀ depth, ¬m.heap.HoldsAt e name.lexeme depth) (value : Value) :
    writeNearest e name value m = .error (.crash ⟨name, .undefined name.lexeme⟩) m := by
  unfold writeNearest Heap.assign?
  rw [hh.holder?_eq_none_iff.2 hnone]
  rfl

end Eval

namespace Heap

/-- **The laws of variables.** From a frame of a heap that has come of a history, a search agrees
with the jump by the least depth at which the name is held, and changes one variable only; where
there is no such depth, it stops the program and changes nothing; and a declaration is seen from
where its frame is met before another holder of the name. -/
theorem variables_of_history {deeds : List (Deed Value)} {m : Machine} {e : Nat}
    (hm : made? deeds = some m.heap) (he : e < m.heap.size) (name : Token) :
    (∀ depth, IsLeast {d | m.heap.HoldsAt e name.lexeme d} depth → ∃ frame v,
      m.heap.outward? depth e = some frame ∧ m.heap.local? frame name.lexeme = some v ∧
      Eval.readNearest e name m = .ok v m ∧
      Eval.inside e (Eval.readOutward depth name) m = .ok v m ∧
      ∀ value, ∃ h',
        Eval.writeNearest e name value m = .ok () { m with heap := h' } ∧
        Eval.inside e (Eval.writeOutward depth name value) m = .ok () { m with heap := h' } ∧
        m.heap.Overwrites h' frame name.lexeme value ∧
        m.heap.Shows h' (m.heap.Nearest · name.lexeme frame) name.lexeme value) ∧
    ((∀ depth, ¬m.heap.HoldsAt e name.lexeme depth) →
      Eval.readNearest e name m = .error (.crash ⟨name, .undefined name.lexeme⟩) m ∧
      ∀ value, Eval.writeNearest e name value m =
        .error (.crash ⟨name, .undefined name.lexeme⟩) m) ∧
    ∀ value, ∃ h', Eval.define e name.lexeme value m = .ok () { m with heap := h' } ∧
      m.heap.Shows h' (m.heap.Meets · name.lexeme e) name.lexeme value := by
  have hh := linked_of_made hm
  refine ⟨fun depth hleast => ?_, fun hnone => ?_, fun value => ?_⟩
  · obtain ⟨frame, hout, hholds⟩ := hleast.1
    have hnearest : m.heap.Nearest e name.lexeme frame := ⟨depth, hleast, hout⟩
    obtain ⟨v, hv⟩ := Option.isSome_iff_exists.1 hholds
    refine ⟨frame, v, hout, hv, Eval.readNearest_ok hh hnearest hv,
      Eval.inside_readOutward hout hv, fun value => ?_⟩
    exact ⟨_, Eval.writeNearest_ok hh hnearest value, Eval.inside_writeOutward hout value,
      overwrites_define hholds value, hh.shows_define_of_holds hholds value⟩
  · exact ⟨Eval.readNearest_undefined hh hnone, Eval.writeNearest_undefined hh hnone⟩
  · exact ⟨_, rfl, hh.shows_define he name.lexeme value⟩

/-- Two frames inside of one where a name has no value, inside of one where it has; and a frame
apart, from where it is not found. -/
def siblings : List (Deed Value) :=
  [.new none, .define 0 "a" (.bool true), .new (some 0), .define 1 "a" .nil, .new (some 1),
    .new (some 1), .new none, .assign 4 "a" .nil]

/-- What is assigned from one of two frames beside each other is found from the other, and not from
outside. Another name is not found there, nor is this one from a frame apart. -/
theorem variables_of_history_siblings : ∃ (m : Machine) (h' : Heap Value),
    let name (lexeme : String) : Token := ⟨.name, lexeme, .nil, 1, 0⟩
    made? siblings = some m.heap ∧ 2 < m.heap.size ∧
      IsLeast {d | m.heap.HoldsAt 2 "a" d} 1 ∧ (∀ depth, ¬m.heap.HoldsAt 2 "b" depth) ∧
      Eval.writeNearest 2 (name "a") (.bool false) m = .ok () { m with heap := h' } ∧
      h'.get? 3 "a" = some (.bool false) ∧ h'.get? 0 "a" = m.heap.get? 0 "a" ∧
      h'.get? 4 "a" = m.heap.get? 4 "a" ∧
      Eval.readNearest 2 (name "b") m = .error (.crash ⟨name "b", .undefined "b"⟩) m := by
  have hfacts : (made? siblings).any (fun h => 2 < h.size ∧ h.outward? 1 2 = some 1 ∧
      h.holds 1 "a" = true ∧ h.holds 2 "a" = false ∧ h.holder? 2 "b" = none ∧
      h.holder? 3 "a" = some 1 ∧ h.holder? 0 "a" = some 0 ∧ h.holder? 4 "a" = none) = true := by
    decide +kernel
  obtain ⟨h, hm, hfacts⟩ := (Option.any_eq_true _ _).1 hfacts
  obtain ⟨hsize, hout, hholds, hinner, hunheld, hbeside, houtside, hapart⟩ :=
    of_decide_eq_true hfacts
  have hh := linked_of_made hm
  have hleast : IsLeast {d | h.HoldsAt 2 "a" d} 1 := by
    refine ⟨⟨1, hout, hholds⟩, fun d hd => Nat.one_le_iff_ne_zero.2 ?_⟩
    rintro rfl
    obtain ⟨frame, hframe, hheld⟩ := hd
    obtain rfl : 2 = frame := Option.some.inj hframe
    rw [hinner] at hheld
    cases hheld
  have hnone := hh.holder?_eq_none_iff.1 hunheld
  let m : Machine := ⟨h, root, #[], 0, 0⟩
  obtain ⟨hfound, -, -⟩ := variables_of_history (m := m) hm hsize ⟨.name, "a", .nil, 1, 0⟩
  obtain ⟨-, hundefined, -⟩ := variables_of_history (m := m) hm hsize ⟨.name, "b", .nil, 1, 0⟩
  obtain ⟨frame, -, hframe, -, -, -, hassign⟩ := hfound 1 hleast
  obtain rfl : 1 = frame := Option.some.inj (hout.symm.trans hframe)
  obtain ⟨h', hwrite, -, -, hshows⟩ := hassign (.bool false)
  refine ⟨m, h', hm, hsize, hleast, hnone, hwrite, ?_, ?_, ?_, (hundefined hnone).1⟩
  · exact hshows.found 3 (hh.holder?_eq_some_iff.1 hbeside)
  · refine hshows.same 0 "a" fun hnearest => ?_
    have hsame := houtside.symm.trans (hh.holder?_eq_some_iff.2 hnearest.2)
    cases hsame
  · refine hshows.same 4 "a" fun hnearest => ?_
    have hsame := hapart.symm.trans (hh.holder?_eq_some_iff.2 hnearest.2)
    cases hsame

end Heap

end Scriptlet

import Scriptlet.Proofs.Binding.Lodging
import Scriptlet.Session

/-!
# Searching for variables

A reference can follow its depth, or it can be searched for from the frame that the machine is in
outward (`Setting.searching`). On frames that are lodged in regions where references are straight,
both ways lead to the same variable if the depth leads to a frame that holds the name
(`Machine.Finds`). So a run that serves its references does the same in both ways
(`Moment.Lodged.agrees`).

**One step** is told by what it does in both ways (`Eval.Agrees`): it ends the same, and if it ends
with a result, the machine is in the frame that it was in and the frames are still lodged, new ones
besides. So what is done next begins under the same conditions.
-/

namespace Scriptlet

open Binding (depthOf)

/-- The setting in which every reference is searched for. -/
def Setting.searching (host : Host) : Setting := ⟨fun _ => .nearest, host⟩

variable {depths : Binding.Depths} {host : Host} {T T' T'' : Lodging} {m m' m'' : Machine}

/-! ## Staying lodged -/

/-- The machine is in the frame that it was in, and frames have been added to the lodging. -/
structure Stays (depths : Binding.Depths) (T : Lodging) (m : Machine) (T' : Lodging)
    (m' : Machine) : Prop where
  lodging : T <+: T'
  heap : m'.heap.Lodged (depthOf depths) T'
  here : m'.here = m.here

theorem Stays.refl (h : m.heap.Lodged (depthOf depths) T) : Stays depths T m T m :=
  ⟨List.prefix_rfl, h, rfl⟩

theorem Stays.trans (h : Stays depths T m T' m') (h' : Stays depths T' m' T'' m'') :
    Stays depths T m T'' m'' :=
  ⟨h.lodging.trans h'.lodging, h'.heap, h'.here.trans h.here⟩

/-- The machine is in the same regions as before. -/
theorem Stays.place {rs : List Region} (h : Stays depths T m T' m')
    (hplace : T[m.here]? = some rs) : T'[m'.here]? = some rs := by
  rw [h.here]
  exact Lodging.mono h.lodging hplace

/-- A frame is added for a region. -/
theorem stays_add {rs : List Region} {link : Nat} (h : m.heap.Lodged (depthOf depths) T)
    (hlink : T[link]? = some rs) (r : Region) :
    Stays depths T m (T ++ [r :: rs]) { m with heap := m.heap.add (some link) } :=
  ⟨List.prefix_append .., h.add hlink r, rfl⟩

/-- A name is bound that is declared where the machine is. -/
theorem stays_define {rs : List Region} {name : Token} {v : Value}
    (h : m.heap.Lodged (depthOf depths) T) (hplace : T[m.here]? = some rs)
    (hname : ∀ r ∈ rs.head?, name ∈ r.declarations) (hv : v.Lodged (depthOf depths) T) :
    Stays depths T m T { m with heap := m.heap.define m.here name.lexeme v } := by
  refine ⟨List.prefix_rfl, h.define hv fun r rs' hregion => ?_, rfl⟩
  rw [hplace] at hregion
  obtain rfl := Option.some.inj hregion
  exact Region.declares_iff.2 ⟨name, hname r rfl, rfl⟩

/-! ## Doing the same -/

namespace Eval

variable {α β : Type} {act act' : Eval α} {f f' : α → Eval β} {Q : Lodging → α → Prop}
  {R : Lodging → β → Prop}

/-- Two ways of doing something end the same, and the machine stays. -/
structure Agrees (depths : Binding.Depths) (T : Lodging) (m : Machine) (act act' : Eval α)
    (Q : Lodging → α → Prop) : Prop where
  same : act' m = act m
  stays : ∀ a m', act m = .ok a m' → ∃ T', Stays depths T m T' m' ∧ Q T' a

theorem Agrees.pure {a : α} (h : m.heap.Lodged (depthOf depths) T) (ha : Q T a) :
    Agrees depths T m (Pure.pure a) (Pure.pure a) Q := by
  refine ⟨rfl, fun b m' hb => ?_⟩
  cases hb
  exact ⟨T, .refl h, ha⟩

theorem Agrees.throw {stop : Stop} :
    Agrees depths T m (MonadExcept.throw stop : Eval α) (MonadExcept.throw stop) Q :=
  ⟨rfl, nofun⟩

theorem Agrees.lift {result : Except Stop α} (h : m.heap.Lodged (depthOf depths) T)
    (hQ : ∀ a, result = .ok a → Q T a) :
    Agrees depths T m (Eval.lift result) (Eval.lift result) Q := by
  cases result with
  | ok a => exact .pure h (hQ a rfl)
  | error stop => exact .throw

/-- What is done the same in both ways, and what is done behind it. -/
theorem Agrees.bind (h : Agrees depths T m act act' Q)
    (hf : ∀ a T' m', act m = .ok a m' → Stays depths T m T' m' → Q T' a →
      Agrees depths T' m' (f a) (f' a) R) :
    Agrees depths T m (act >>= f) (act' >>= f') R := by
  cases hr : act m with
  | ok a m' =>
    obtain ⟨T', hstays, ha⟩ := h.stays a m' hr
    have hnext := hf a T' m' hr hstays ha
    refine ⟨?_, fun b m'' hb => ?_⟩
    · rw [bind_ok hr, bind_ok (h.same.trans hr)]
      exact hnext.same
    · rw [bind_ok hr] at hb
      obtain ⟨T'', hstays', hb⟩ := hnext.stays b m'' hb
      exact ⟨T'', hstays.trans hstays', hb⟩
  | error stop m' =>
    refine ⟨?_, fun b m'' hb => ?_⟩
    · rw [bind_error hr, bind_error (h.same.trans hr)]
    · rw [bind_error hr] at hb
      cases hb

/-- A step that does not depend on the way. -/
theorem Agrees.behind {a : α} (hr : act m = .ok a m') (hstays : Stays depths T m T' m')
    (h : Agrees depths T' m' (f a) (f' a) R) : Agrees depths T m (act >>= f) (act >>= f') R := by
  refine ⟨?_, fun b m'' hb => ?_⟩
  · rw [bind_ok hr, bind_ok hr]
    exact h.same
  · rw [bind_ok hr] at hb
    obtain ⟨T'', hstays', hb⟩ := h.stays b m'' hb
    exact ⟨T'', hstays.trans hstays', hb⟩

theorem Agrees.inside {frame : Nat}
    (h : Agrees depths T { m with here := frame } act act' Q) :
    Agrees depths T m (Eval.inside frame act) (Eval.inside frame act') Q := by
  refine ⟨?_, fun a m' hr => ?_⟩
  · unfold Eval.inside
    dsimp only
    rw [h.same]
  · unfold Eval.inside at hr
    dsimp only at hr
    cases hact : act { m with here := frame } with
    | ok b m₁ =>
      rw [hact] at hr
      cases hr
      obtain ⟨T', hstays, ha⟩ := h.stays _ m₁ hact
      exact ⟨T', ⟨hstays.lodging, hstays.heap, rfl⟩, ha⟩
    | error stop m₁ =>
      rw [hact] at hr
      cases hr

end Eval

/-! ## Variables -/

/-- If there is a depth, it leads to a frame that holds the name. -/
def Machine.Finds (m : Machine) (depth? : Option Nat) (name : String) : Prop :=
  ∀ depth, depth? = some depth →
    ∃ frame, m.heap.outward? depth m.here = some frame ∧ m.heap.holds frame name = true

variable {rs : List Region} {name : Token} {serial : Nat} {v : Value}

/-- Where the search for a straight reference ends: among the globals if it has no depth, and else
in the frame that the depth leads to. -/
theorem Heap.Lodged.search (h : m.heap.Lodged (depthOf depths) T) (hplace : T[m.here]? = some rs)
    (hstraight : depthOf depths serial = rs.findIdx? (·.declares name.lexeme))
    (hfinds : m.Finds (depthOf depths serial) name.lexeme) :
    match depthOf depths serial with
    | none => m.heap.holder? m.here name.lexeme = m.heap.holder? Heap.root name.lexeme
    | some depth => ∃ frame v, m.heap.outward? depth m.here = some frame ∧
      m.heap.holder? m.here name.lexeme = some frame ∧
      m.heap.local? frame name.lexeme = some v := by
  have hholder := h.holder? hplace name.lexeme
  rw [← hstraight] at hholder
  cases hd : depthOf depths serial with
  | none =>
    rw [hd] at hholder
    exact hholder
  | some depth =>
    rw [hd] at hholder
    obtain ⟨frame, hout, hholds⟩ := hfinds depth hd
    obtain ⟨frame', hout', hfound⟩ := hholder
    obtain rfl := Option.some.inj (hout.symm.trans hout')
    obtain ⟨v, hv⟩ := Option.isSome_iff_exists.1 hholds
    exact ⟨frame, v, hout, hfound hholds, hv⟩

namespace Eval

/-- Two ways of reading from the nearest frame that holds a name. -/
theorem agrees_readNearest (h : m.heap.Lodged (depthOf depths) T) {act act' : Eval Value}
    (frame : Nat) (name : Token) (hact : act m = readNearest frame name m)
    (hact' : act' m = readNearest frame name m) :
    Agrees depths T m act act' fun T' v => v.Lodged (depthOf depths) T' := by
  refine ⟨hact'.trans hact.symm, fun v m' hr => ?_⟩
  rw [hact] at hr
  unfold readNearest at hr
  cases hget : m.heap.get? frame name.lexeme with
  | none =>
    rw [hget] at hr
    cases hr
  | some w =>
    rw [hget] at hr
    cases hr
    obtain ⟨e, -, he⟩ := Option.bind_eq_some_iff.1 hget
    exact ⟨T, .refl h, h.values e _ _ he⟩

/-- Two ways of overwriting a value in the nearest frame that holds a name. -/
theorem agrees_writeNearest (h : m.heap.Lodged (depthOf depths) T) {act act' : Eval Unit}
    (frame : Nat) (name : Token) (hv : v.Lodged (depthOf depths) T)
    (hact : act m = writeNearest frame name v m) (hact' : act' m = writeNearest frame name v m) :
    Agrees depths T m act act' fun _ _ => True := by
  refine ⟨hact'.trans hact.symm, fun _ m' hr => ?_⟩
  rw [hact] at hr
  unfold writeNearest Heap.assign? at hr
  cases hholder : m.heap.holder? frame name.lexeme with
  | none =>
    rw [hholder] at hr
    cases hr
  | some e =>
    rw [hholder] at hr
    cases hr
    have hholds := Heap.holds_of_holder? hholder
    exact ⟨T, ⟨List.prefix_rfl, h.overwrite hv hholds, rfl⟩, trivial⟩

/-- A reference reads the same value if it is searched for. -/
theorem agrees_readVariable (h : m.heap.Lodged (depthOf depths) T) (hplace : T[m.here]? = some rs)
    (hstraight : depthOf depths serial = rs.findIdx? (·.declares name.lexeme))
    (hfinds : m.Finds (depthOf depths serial) name.lexeme) :
    Agrees depths T m (readVariable (.following depths host) name serial)
      (readVariable (.searching host) name serial) fun T' v => v.Lodged (depthOf depths) T' := by
  refine agrees_readNearest h m.here name ?_ rfl
  have hsearch := h.search hplace hstraight hfinds
  unfold readVariable Setting.following
  dsimp only
  cases hd : depthOf depths serial with
  | none =>
    rw [hd] at hsearch
    show readNearest Heap.root name m = _
    unfold readNearest Heap.get?
    rw [hsearch]
  | some depth =>
    rw [hd] at hsearch
    obtain ⟨frame, v, hout, hfound, hv⟩ := hsearch
    show readOutward depth name m = _
    simp only [readOutward, readNearest, Heap.getAt, Heap.get?, hout, hfound, hv, Option.bind_some]

/-- A reference overwrites the same value if it is searched for. -/
theorem agrees_writeVariable (h : m.heap.Lodged (depthOf depths) T) (hplace : T[m.here]? = some rs)
    (hstraight : depthOf depths serial = rs.findIdx? (·.declares name.lexeme))
    (hfinds : m.Finds (depthOf depths serial) name.lexeme) (hv : v.Lodged (depthOf depths) T) :
    Agrees depths T m (writeVariable (.following depths host) name serial v)
      (writeVariable (.searching host) name serial v) fun _ _ => True := by
  refine agrees_writeNearest h m.here name hv ?_ rfl
  have hsearch := h.search hplace hstraight hfinds
  unfold writeVariable Setting.following
  dsimp only
  cases hd : depthOf depths serial with
  | none =>
    rw [hd] at hsearch
    show writeNearest Heap.root name v m = _
    unfold writeNearest Heap.assign?
    rw [hsearch]
  | some depth =>
    rw [hd] at hsearch
    obtain ⟨frame, -, hout, hfound, -⟩ := hsearch
    show writeOutward depth name v m = _
    rw [writeOutward_eq name v hout]
    simp only [writeNearest, Heap.assign?, hfound, Option.map_some]

end Eval

/-! ## Moments -/

/-- What a task declares is declared by the innermost region. -/
def Task.Declared (rs : List Region) : Task → Prop
  | stmt st => Sites.Declares rs st
  | stmts sts => ∀ st ∈ sts, Sites.Declares rs st
  | _ => True

/-- What a task results in is lodged. -/
def Task.Yields (depths : Nat → Option Nat) (T : Lodging) : (t : Task) → t.Result → Prop
  | .expr _, v | .apply _ _ _, v => v.Lodged depths T
  | .exprs _, vs => ∀ v ∈ vs, v.Lodged depths T
  | .stmt _, flow | .stmts _, flow | .turns _ _, flow => flow.Lodged depths T

namespace Moment

/-- A moment on lodged frames, whose task stands in the regions of the frame that it is begun in,
with straight references. -/
structure Lodged (depths : Binding.Depths) (T : Lodging) (a : Moment) : Prop where
  heap : a.machine.heap.Lodged (depthOf depths) T
  place : ∃ rs s, T[a.machine.here]? = some rs ∧ a.task.Declared rs ∧
    ∀ site ∈ a.task.sites rs s, site.Straight (depthOf depths)
  values : ∀ v ∈ a.task.values, v.Lodged (depthOf depths) T

/-- The depth of a reference leads to a frame that holds the name, when a variable is read and when
one is overwritten. -/
structure Serves (depths : Binding.Depths) (host : Host) (a : Moment) : Prop where
  shape : a.task.Shaped
  reads : ∀ name serial, a.task = .expr (.ref name serial) →
    a.machine.Finds (depthOf depths serial) name.lexeme
  writes : ∀ name value serial fuel v m, a.task = .expr (.assign name value serial) →
    a.fuel = fuel + 1 →
    Eval.expr (.following depths host) fuel a.room value a.machine = .ok v m →
    m.Finds (depthOf depths serial) name.lexeme

/-- What the task of a moment does is the same in both ways. -/
def Agrees (depths : Binding.Depths) (host : Host) (T : Lodging) (a : Moment) : Prop :=
  Eval.Agrees depths T a.machine (a.task.run (.following depths host) a.fuel a.room)
    (a.task.run (.searching host) a.fuel a.room)
    fun T' r => a.task.Yields (depthOf depths) T' r

/-- What a moment begins directly is the same in both ways. -/
def Concurs (depths : Binding.Depths) (host : Host) (a : Moment) : Prop :=
  ∀ b, Starts (.following depths host) a b → ∀ T, b.Lodged depths T → b.Agrees depths host T

/-! ## One step of each kind -/

section Steps

variable {fuel fuel' room room' : Nat} {t t' : Task} {e : Expr}

/-- A part of a task is lodged like the task. -/
theorem Lodged.part (ha : Lodged depths T ⟨fuel, room, t, m⟩) (hstays : Stays depths T m T' m')
    (t' : Task) (hdeclared : ∀ rs, t.Declared rs → t'.Declared rs) (hvalues : t'.values = [])
    (hsub : ∀ rs s, ∃ s', t'.sites rs s' ⊆ t.sites rs s) :
    Lodged depths T' ⟨fuel', room', t', m'⟩ := by
  obtain ⟨-, ⟨rs, s, hplace, hdecl, hsites⟩, -⟩ := ha
  obtain ⟨s', hs'⟩ := hsub rs s
  refine ⟨hstays.heap, ⟨rs, s', hstays.place hplace, hdeclared rs hdecl, ?_⟩, fun v hv => ?_⟩
  · exact fun site hsite => hsites site (hs' hsite)
  · rw [hvalues] at hv
    cases hv

/-- An expression declares nothing. -/
theorem Lodged.expr (ha : Lodged depths T ⟨fuel, room, t, m⟩) (hstays : Stays depths T m T' m')
    (hsub : ∀ rs s, ∃ s', Sites.expr rs s' e ⊆ t.sites rs s) :
    Lodged depths T' ⟨fuel', room', .expr e, m'⟩ :=
  ha.part hstays (.expr e) (fun _ _ => trivial) rfl hsub

/-- Neither does a statement that the shape keeps from it. -/
theorem Lodged.stmt {st : Stmt} (ha : Lodged depths T ⟨fuel, room, t, m⟩)
    (hstays : Stays depths T m T' m') (hst : st.declares? = none)
    (hsub : ∀ rs s, ∃ s', Sites.stmt rs s' st ⊆ t.sites rs s) :
    Lodged depths T' ⟨fuel', room', .stmt st, m'⟩ :=
  ha.part hstays (.stmt st) (fun _ _ => Sites.declares_of_none hst) rfl hsub

theorem agrees_expr (ha : Lodged depths T ⟨fuel + 1, room, .expr e, m⟩)
    (hserves : Serves depths host ⟨fuel + 1, room, .expr e, m⟩)
    (hsub : Concurs depths host ⟨fuel + 1, room, .expr e, m⟩) :
    Agrees depths host T ⟨fuel + 1, room, .expr e, m⟩ := by
  unfold Agrees
  have hm := Stays.refl ha.heap
  cases e with
  | literal value =>
    simp only [Task.run, Eval.expr]
    exact .pure ha.heap (by cases value <;> exact trivial)
  | ref name serial =>
    simp only [Task.run, Eval.expr]
    obtain ⟨rs, s, hplace, -, hsites⟩ := ha.place
    exact Eval.agrees_readVariable ha.heap hplace (hsites _ List.mem_cons_self)
      (hserves.reads name serial rfl)
  | assign name value serial =>
    simp only [Task.run, Eval.expr]
    obtain ⟨rs, s, hplace, -, hsites⟩ := ha.place
    refine .bind (hsub _ .assign T (ha.expr hm fun _ s => ⟨s, List.subset_append_left ..⟩)) ?_
    intro v T₁ m₁ hr hstays hv
    refine .bind (Eval.agrees_writeVariable hstays.heap (hstays.place hplace)
      (hsites _ (List.mem_append_right _ List.mem_cons_self))
      (hserves.writes name value serial fuel v m₁ rfl rfl hr) hv) ?_
    intro _ T₂ m₂ _ hstays' _
    exact .pure hstays'.heap (hv.mono hstays'.lodging)
  | binary lhs op rhs =>
    simp only [Task.run, Eval.expr]
    refine .bind (hsub _ .binaryLeft T (ha.expr hm fun _ s => ⟨s, List.subset_append_left ..⟩)) ?_
    intro v T₁ m₁ hr hstays _
    refine .bind (hsub _ (.binaryRight hr) T₁
      (ha.expr hstays fun _ s => ⟨s, List.subset_append_right ..⟩)) ?_
    intro w T₂ m₂ _ hstays' _
    exact .lift hstays'.heap fun u hu =>
      Value.lodged_of_sound (h := .empty) (Operator.sound_binary hu)
  | logical lhs op rhs =>
    simp only [Task.run, Eval.expr]
    refine .bind (hsub _ .logicalLeft T (ha.expr hm fun _ s => ⟨s, List.subset_append_left ..⟩)) ?_
    intro v T₁ m₁ hr hstays hv
    split
    · exact .pure hstays.heap hv
    · next hdecides =>
      exact hsub _ (.logicalRight hr (Bool.eq_false_iff.2 hdecides)) T₁
        (ha.expr hstays fun _ s => ⟨s, List.subset_append_right ..⟩)
  | unary op arg =>
    simp only [Task.run, Eval.expr]
    refine .bind (hsub _ .unary T (ha.expr hm fun _ s => ⟨s, List.Subset.refl _⟩)) ?_
    intro v T₁ m₁ _ hstays _
    exact .lift hstays.heap fun u hu =>
      Value.lodged_of_sound (h := .empty) (Operator.sound_unary hu)
  | grouping inner =>
    simp only [Task.run, Eval.expr]
    exact hsub _ .grouping T (ha.expr hm fun _ s => ⟨s, List.Subset.refl _⟩)
  | call callee paren args =>
    simp only [Task.run, Eval.expr]
    refine .bind (hsub _ .callee T (ha.expr hm fun _ s => ⟨s, List.subset_append_left ..⟩)) ?_
    intro f T₁ m₁ hr hstays hf
    refine .bind (hsub _ (.arguments hr) T₁ (ha.part hstays (.exprs args) (fun _ _ => trivial) rfl
      fun _ s => ⟨s, List.subset_append_right ..⟩)) ?_
    intro vs T₂ m₂ hr' hstays' hvs
    -- The values are lodged themselves; the call only begins in the same frame.
    obtain ⟨rs, s, hplace, -, -⟩ := ha.place
    exact hsub _ (.call hr hr') T₂ ⟨hstays'.heap,
      ⟨rs, s, (hstays.trans hstays').place hplace, trivial, List.forall_mem_nil _⟩,
      List.forall_mem_cons.2 ⟨hf.mono hstays'.lodging, hvs⟩⟩

theorem agrees_exprs {es : List Expr} (ha : Lodged depths T ⟨fuel + 1, room, .exprs es, m⟩)
    (hsub : Concurs depths host ⟨fuel + 1, room, .exprs es, m⟩) :
    Agrees depths host T ⟨fuel + 1, room, .exprs es, m⟩ := by
  unfold Agrees
  have hm := Stays.refl ha.heap
  cases es with
  | nil =>
    simp only [Task.run, Eval.exprs]
    exact .pure ha.heap (List.forall_mem_nil _)
  | cons e rest =>
    simp only [Task.run, Eval.exprs]
    refine .bind (hsub _ .first T (ha.expr hm fun _ s => ⟨s, List.subset_append_left ..⟩)) ?_
    intro v T₁ m₁ hr hstays hv
    refine .bind (hsub _ (.others hr) T₁ (ha.part hstays (.exprs rest) (fun _ _ => trivial) rfl
      fun _ s => ⟨s, List.subset_append_right ..⟩)) ?_
    intro vs T₂ m₂ _ hstays' hvs
    exact .pure hstays'.heap (List.forall_mem_cons.2 ⟨hv.mono hstays'.lodging, hvs⟩)

/-- The frame of a call is in the region of the function, and holds the parameters. -/
theorem agrees_apply (hplain : (Setting.following depths host).Plain) {paren : Token} {f : Value}
    {args : List Value} (ha : Lodged depths T ⟨fuel + 1, room, .apply paren f args, m⟩)
    (hsub : Concurs depths host ⟨fuel + 1, room, .apply paren f args, m⟩) :
    Agrees depths host T ⟨fuel + 1, room, .apply paren f args, m⟩ := by
  unfold Agrees
  cases f with
  | closure identity d home =>
    unfold Task.run Eval.apply
    dsimp only
    split
    · exact .throw
    · next hlen =>
      cases room with
      | zero => exact .throw
      | succ room =>
        obtain ⟨hf, hargs⟩ := List.forall_mem_cons.1 ha.values
        obtain ⟨rs, s, hhome, hsites⟩ := hf
        have hnew := ha.heap.getElem?_new (.function d :: rs)
        have hadded := stays_add ha.heap hhome (.function d)
        have hcalled : ((m.heap.add (some home)).defineAll m.heap.size d.params args).Lodged
            (depthOf depths) (T ++ [.function d :: rs]) := by
          refine hadded.heap.defineAll (fun v hv => (hargs v hv).mono hadded.lodging) ?_
          intro p hp r rs' hregion
          rw [hnew] at hregion
          obtain ⟨rfl, -⟩ := List.cons.inj (Option.some.inj hregion)
          exact Region.declares_iff.2 ⟨p, List.mem_append_left _ hp, rfl⟩
        have hbody := hsub _ (.body (not_not.1 hlen)) (T ++ [.function d :: rs])
          ⟨hcalled, ⟨.function d :: rs, s.within d, hnew,
            fun st hst => (Sites.belongs_of_mem hst).declares, hsites⟩, List.forall_mem_nil _⟩
        have hparams : Stays depths (T ++ [.function d :: rs])
            { m with heap := m.heap.add (some home) } (T ++ [.function d :: rs])
            { m with heap := (m.heap.add (some home)).defineAll m.heap.size d.params args } :=
          ⟨List.prefix_rfl, hcalled, rfl⟩
        refine .behind rfl hadded (.behind (Eval.defineAll_eq ..) hparams ?_)
        refine .bind (.inside hbody) fun flow T' m' _ hstays hflow => ?_
        exact .pure hstays.heap (Flow.Lodged.value hflow)
  | native n =>
    unfold Task.run Eval.apply
    dsimp only
    split
    · exact .throw
    · refine ⟨rfl, fun v m' hr => ?_⟩
      unfold Eval.ask at hr
      split at hr
      · next hv =>
        cases hr
        exact ⟨T, ⟨List.prefix_rfl, ha.heap, rfl⟩,
          Value.lodged_of_sound (hplain _ _ _ _ hv .blank .empty)⟩
      · cases hr
  | _ =>
    unfold Task.run Eval.apply
    exact .throw

theorem agrees_stmt {st : Stmt} (ha : Lodged depths T ⟨fuel + 1, room, .stmt st, m⟩)
    (hshape : Shape.stmt st) (hsub : Concurs depths host ⟨fuel + 1, room, .stmt st, m⟩) :
    Agrees depths host T ⟨fuel + 1, room, .stmt st, m⟩ := by
  unfold Agrees
  have hm := Stays.refl ha.heap
  cases st with
  | expr e =>
    simp only [Task.run, Eval.stmt]
    refine .bind (hsub _ .statement T (ha.expr hm fun _ s => ⟨s, List.Subset.refl _⟩)) ?_
    intro v T₁ m₁ _ hstays _
    exact .pure hstays.heap trivial
  | print keyword e =>
    simp only [Task.run, Eval.stmt]
    refine .bind (hsub _ .print T (ha.expr hm fun _ s => ⟨s, List.Subset.refl _⟩)) ?_
    intro v T₁ m₁ _ hstays _
    have hprint : Stays depths T₁ m₁ T₁ { m₁ with printed := m₁.printed.push v.text } :=
      ⟨List.prefix_rfl, hstays.heap, rfl⟩
    exact .behind rfl hprint (.pure hstays.heap trivial)
  | var name init =>
    obtain ⟨rs, _, hplace, hdecl, -⟩ := ha.place
    cases init with
    | none =>
      simp only [Task.run, Eval.stmt]
      have hdefine := stays_define (v := .nil) ha.heap hplace (hdecl name rfl) trivial
      exact .behind rfl hm (.behind rfl hdefine (.pure hdefine.heap trivial))
    | some init =>
      simp only [Task.run, Eval.stmt]
      refine .bind (hsub _ .initialiser T
        (ha.expr hm fun _ s => ⟨s.announce name, List.Subset.refl _⟩)) ?_
      intro v T₁ m₁ _ hstays hv
      have hdefine := stays_define hstays.heap (hstays.place hplace) (hdecl name rfl) hv
      have hm₁ := Stays.refl hstays.heap
      exact .behind rfl hm₁ (.behind rfl hdefine (.pure hdefine.heap trivial))
  | block body =>
    simp only [Task.run, Eval.stmt]
    obtain ⟨rs, s, hplace, -, hsites⟩ := ha.place
    have hnew := ha.heap.getElem?_new (.block body :: rs)
    have hadded := stays_add ha.heap hplace (.block body)
    have hbody := hsub _ .block (T ++ [.block body :: rs])
      ⟨hadded.heap, ⟨.block body :: rs, s.enter, hnew,
        fun st hst => (Sites.belongs_of_mem hst).declares, hsites⟩, List.forall_mem_nil _⟩
    exact .behind rfl hm (.behind rfl hadded (.inside hbody))
  | branch condition yes no =>
    cases no with
    | none =>
      simp only [Task.run, Eval.stmt]
      refine .bind (hsub _ .branch T (ha.expr hm fun _ s => ⟨s, List.subset_append_left ..⟩)) ?_
      intro v T₁ m₁ hr hstays _
      split
      · next htrue =>
        exact hsub _ (.yes hr htrue) T₁
          (ha.stmt hstays hshape.2 fun _ s => ⟨s, List.subset_append_right ..⟩)
      · exact .pure hstays.heap trivial
    | some no =>
      simp only [Task.run, Eval.stmt]
      refine .bind (hsub _ .branch T (ha.expr hm fun _ s => ⟨s, List.subset_append_left ..⟩)) ?_
      intro v T₁ m₁ hr hstays _
      split
      · next htrue =>
        exact hsub _ (.yes hr htrue) T₁ (ha.stmt hstays hshape.1.2 fun _ s =>
          ⟨s, List.subset_append_of_subset_right _ (List.subset_append_left ..)⟩)
      · next hfalse =>
        exact hsub _ (.no hr (Bool.eq_false_iff.2 hfalse)) T₁ (ha.stmt hstays hshape.2.2 fun _ s =>
          ⟨s, List.subset_append_of_subset_right _ (List.subset_append_right ..)⟩)
  | loop condition body =>
    simp only [Task.run, Eval.stmt]
    exact hsub _ .loop T (ha.part hm (.turns condition body) (fun _ _ => trivial) rfl
      fun _ s => ⟨s, List.Subset.refl _⟩)
  | function name params body =>
    simp only [Task.run, Eval.stmt]
    obtain ⟨rs, s, hplace, hdecl, hsites⟩ := ha.place
    have hcount : Stays depths T m T { m with closures := m.closures + 1 } :=
      ⟨List.prefix_rfl, ha.heap, rfl⟩
    -- The body stands behind its name, in the regions that are around the function.
    have hdefine := stays_define (v := .closure m.closures ⟨name, params, body⟩ m.here)
      hcount.heap hplace (hdecl name rfl) ⟨rs, s.settle name, hplace, hsites⟩
    exact .behind rfl hm (.behind rfl hcount (.behind rfl hdefine (.pure hdefine.heap trivial)))
  | ret keyword value =>
    cases value with
    | none =>
      simp only [Task.run, Eval.stmt]
      exact .pure ha.heap trivial
    | some value =>
      simp only [Task.run, Eval.stmt]
      refine .bind (hsub _ .returned T (ha.expr hm fun _ s => ⟨s, List.Subset.refl _⟩)) ?_
      intro v T₁ m₁ _ hstays hv
      exact .pure hstays.heap hv

theorem agrees_stmts {sts : List Stmt} (ha : Lodged depths T ⟨fuel + 1, room, .stmts sts, m⟩)
    (hsub : Concurs depths host ⟨fuel + 1, room, .stmts sts, m⟩) :
    Agrees depths host T ⟨fuel + 1, room, .stmts sts, m⟩ := by
  unfold Agrees
  have hm := Stays.refl ha.heap
  cases sts with
  | nil =>
    simp only [Task.run, Eval.stmts]
    exact .pure ha.heap trivial
  | cons st rest =>
    simp only [Task.run, Eval.stmts]
    refine .bind (hsub _ .front T (ha.part hm (.stmt st) (fun _ h => h st List.mem_cons_self) rfl
      fun _ s => ⟨s, List.subset_append_left ..⟩)) ?_
    intro flow T₁ m₁ hr hstays hflow
    cases flow with
    | goOn =>
      exact hsub _ (.next hr) T₁ (ha.part hstays (.stmts rest)
        (fun _ h st' hst' => h st' (List.mem_cons_of_mem _ hst')) rfl
        fun _ s => ⟨s.behind st, List.subset_append_right ..⟩)
    | returning v => exact .pure hstays.heap hflow

theorem agrees_turns {condition : Expr} {body : Stmt}
    (ha : Lodged depths T ⟨fuel + 1, room, .turns condition body, m⟩)
    (hbody : body.declares? = none)
    (hsub : Concurs depths host ⟨fuel + 1, room, .turns condition body, m⟩) :
    Agrees depths host T ⟨fuel + 1, room, .turns condition body, m⟩ := by
  unfold Agrees
  simp only [Task.run, Eval.turns]
  refine .bind (hsub _ .condition T
    (ha.expr (.refl ha.heap) fun _ s => ⟨s, List.subset_append_left ..⟩)) ?_
  intro v T₁ m₁ hr hstays _
  split
  · next htrue =>
    refine .bind (hsub _ (.turn hr htrue) T₁
      (ha.stmt hstays hbody fun _ s => ⟨s, List.subset_append_right ..⟩)) ?_
    intro flow T₂ m₂ hr' hstays' hflow
    cases flow with
    | goOn =>
      exact hsub _ (.again hr htrue hr') T₂ (ha.part (hstays.trans hstays')
        (.turns condition body) (fun _ h => h) rfl fun _ s => ⟨s, List.Subset.refl _⟩)
    | returning v => exact .pure hstays'.heap hflow
  · exact .pure hstays.heap trivial

end Steps

/-- **Following and searching agree.** A run on lodged frames that serves its references does the
same whether they follow their depths or are searched for. -/
theorem Lodged.agrees (hplain : (Setting.following depths host).Plain) :
    ∀ (fuel room : Nat) (t : Task) (m : Machine) (T : Lodging),
      Lodged depths T ⟨fuel, room, t, m⟩ →
      (∀ b, Reaches (.following depths host) ⟨fuel, room, t, m⟩ b → b.Serves depths host) →
      Agrees depths host T ⟨fuel, room, t, m⟩ := by
  intro fuel
  induction fuel with
  | zero =>
    intro room t m T _ _
    unfold Agrees
    cases t <;>
      simp only [Task.run, Eval.expr, Eval.exprs, Eval.apply, Eval.stmt, Eval.stmts, Eval.turns] <;>
      exact .throw
  | succ fuel ih =>
    intro room t m T ha hserves
    have hsub : Concurs depths host ⟨fuel + 1, room, t, m⟩ := by
      intro b hb T hlodged
      obtain ⟨fuel', room', t', m'⟩ := b
      obtain rfl := Nat.succ.inj hb.fuel_eq
      exact ih room' t' m' T hlodged fun b' hb' => hserves b' (.head hb hb')
    have hnow := hserves _ .refl
    cases t with
    | expr e => exact agrees_expr ha hnow hsub
    | exprs es => exact agrees_exprs ha hsub
    | apply paren f args => exact agrees_apply hplain ha hsub
    | stmt st => exact agrees_stmt ha hnow.shape hsub
    | stmts sts => exact agrees_stmts ha hsub
    | turns condition body => exact agrees_turns ha hnow.shape.2 hsub

end Moment

/-- **A program does the same in both ways** if it begins outside of all blocks and functions. -/
theorem Machine.run_agrees (hplain : (Setting.following depths host).Plain) (fuel room : Nat)
    {program : List Stmt} {s : Scopes} (hm : m.heap.Lodged (depthOf depths) T)
    (hhere : T[m.here]? = some [])
    (hsites : ∀ site ∈ Sites.stmts [] s program, site.Straight (depthOf depths))
    (hserves : ∀ front st rest m₁, program = front ++ st :: rest →
      m.run (.following depths host) fuel room front = (.finished, m₁) →
      ∀ b, Reaches (.following depths host) ⟨fuel, room, .stmt st, m₁⟩ b →
        b.Serves depths host) :
    m.run (.searching host) fuel room program =
      m.run (.following depths host) fuel room program := by
  induction program generalizing m T s with
  | nil => rfl
  | cons st rest ih =>
    have hfirst : Moment.Lodged depths T ⟨fuel, room, .stmt st, m⟩ := by
      refine ⟨hm, ⟨[], s, hhere, fun _ _ _ h => absurd h (Option.not_mem_none _), ?_⟩,
        List.forall_mem_nil _⟩
      exact fun site hsite => hsites site (List.mem_append_left _ hsite)
    have hagrees := hfirst.agrees hplain fuel room (.stmt st) m T (hserves [] st rest m rfl rfl)
    have hsame : Eval.stmt (.searching host) fuel room st m =
        Eval.stmt (.following depths host) fuel room st m := hagrees.same
    unfold Machine.run
    rw [hsame]
    cases hr : Eval.stmt (.following depths host) fuel room st m with
    | error stop m₁ => rfl
    | ok flow m₁ =>
      obtain ⟨T₁, hstays, -⟩ := hagrees.stays flow m₁ hr
      refine ih hstays.heap (hstays.place hhere)
        (fun site hsite => hsites site (List.mem_append_right _ hsite)) ?_
      intro front st' rest' m₂ heq hrun b hb
      refine hserves (st :: front) st' rest' m₂ (by rw [heq]; rfl) ?_ b hb
      unfold Machine.run
      rw [hr]
      exact hrun

end Scriptlet

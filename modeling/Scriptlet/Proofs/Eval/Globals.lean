import Scriptlet.Proofs.Eval.Moment
import Scriptlet.Proofs.Heap
import Scriptlet.Proofs.Tree.Wellformed

/-!
# The names of the globals

What a program defines among the globals is what its outermost statements declare
(`Machine.run_grown`). Blocks and calls define names in frames of their own, and an assignment
never defines a name. To be sure of the latter, no depth of an assignment may lead to the globals
(`Moment.Aside`): the frame so many links out is not asked whether it holds the name.
-/

namespace Scriptlet

variable {D : String → Prop} {m m' m'' : Machine} {s : Setting} {fuel room : Nat}

/-! ## Growing -/

/-- What a part of a run may do to the globals: define some of these names. -/
structure Grown (D : String → Prop) (m m' : Machine) : Prop where
  here : m'.here = m.here
  extended : m.heap.Extends m'.heap
  names : ∀ name, m'.heap.holds Heap.root name = true →
    m.heap.holds Heap.root name = true ∨ D name

theorem Grown.refl (m : Machine) : Grown D m m := ⟨rfl, .refl _, fun _ h => .inl h⟩

theorem Grown.trans (h : Grown D m m') (h' : Grown D m' m'') : Grown D m m'' := by
  refine ⟨h'.here.trans h.here, h.extended.trans h'.extended, fun name hname => ?_⟩
  rcases h'.names name hname with hold | hnew
  · exact h.names name hold
  · exact .inr hnew

/-- A change that leaves the heap and the frame. -/
theorem Grown.same (hheap : m'.heap = m.heap) (hhere : m'.here = m.here) : Grown D m m' := by
  refine ⟨hhere, ?_, fun name hname => ?_⟩
  · rw [hheap]
    exact .refl _
  · rw [hheap] at hname
    exact .inl hname

/-- Binding a name, which must be one of those allowed if it is not held by the globals yet. -/
theorem Grown.define {e : Nat} {name : String} (v : Value)
    (h : e = Heap.root → m.heap.holds Heap.root name = true ∨ D name) :
    Grown D m { m with heap := m.heap.define e name v } := by
  refine ⟨rfl, Heap.extends_define .., fun key hkey => ?_⟩
  rcases Heap.holds_define_iff.1 hkey with ⟨he, rfl, -⟩ | hold
  · exact h he.symm
  · exact .inl hold

theorem Grown.add (link : Nat) : Grown D m { m with heap := m.heap.add (some link) } := by
  refine ⟨rfl, Heap.extends_add .., fun name hname => ?_⟩
  rw [Heap.holds_add] at hname
  exact .inl hname

/-- Binding parameters in a frame that is not that of the globals. -/
theorem Grown.defineAll {e : Nat} (he : e ≠ Heap.root) (ps : List Token) (vs : List Value) :
    Grown D m { m with heap := m.heap.defineAll e ps vs } := by
  induction ps generalizing m vs with
  | nil => exact .refl m
  | cons p ps ih =>
    cases vs with
    | nil => exact .refl m
    | cons v vs => exact (Grown.define v fun h => absurd h he).trans (ih vs)

namespace Eval

variable {α β : Type} {act : Eval α} {f : α → Eval β}

/-- However a part of a run ends, it has defined no other names. -/
def Grows (D : String → Prop) (m : Machine) (act : Eval α) : Prop :=
  act.Ends m (fun _ m' => Grown D m m') fun _ m' => Grown D m m'

theorem Grows.pure (a : α) : Grows D m (Pure.pure a) := Grown.refl m

theorem Grows.throw (stop : Stop) : Grows D m (MonadExcept.throw stop : Eval α) := Grown.refl m

theorem Grows.lift (result : Except Stop α) : Grows D m (Eval.lift result) := by
  cases result with
  | ok a => exact .pure a
  | error stop => exact .throw stop

theorem Grows.bind (h : Grows D m act)
    (hf : ∀ a m', act m = .ok a m' → Grown D m m' → Grows D m' (f a)) :
    Grows D m (act >>= f) := by
  refine Ends.bind h fun a m' hr hg => ?_
  exact (hf a m' hr hg).mono (fun _ _ hg' => hg.trans hg') fun _ _ hg' => hg.trans hg'

/-- A step that does not stop. -/
theorem Grows.step {a : α} (hr : act m = .ok a m') (hg : Grown D m m') (hf : Grows D m' (f a)) :
    Grows D m (act >>= f) := by
  refine Ends.bind (Q := fun a₁ m₁ => a₁ = a ∧ m₁ = m') ?_ ?_
  · unfold Ends
    rw [hr]
    exact ⟨rfl, rfl⟩
  · rintro _ _ - ⟨rfl, rfl⟩
    exact hf.mono (fun _ _ hg' => hg.trans hg') fun _ _ hg' => hg.trans hg'

theorem Grows.inside {frame : Nat} (h : Grows D { m with here := frame } act) :
    Grows D m (inside frame act) :=
  Ends.inside (h.mono (fun _ _ hg => ⟨rfl, hg.extended, hg.names⟩)
    fun _ _ hg => ⟨rfl, hg.extended, hg.names⟩)

/-! ## Variables -/

theorem grows_readVariable (name : Token) (serial : Nat) :
    Grows D m (readVariable s name serial) := by
  have hnearest : ∀ frame, Grows D m (readNearest frame name) := by
    intro frame
    unfold Grows Ends readNearest
    cases m.heap.get? frame name.lexeme <;> exact .refl m
  unfold readVariable
  split
  · exact hnearest _
  · next depth _ =>
    unfold Grows Ends readOutward
    rcases m.heap.getAt depth m.here name.lexeme with (_ | _) | _ <;> exact .refl m
  · exact .step rfl (.refl m) (hnearest _)

theorem grows_writeVariable {name : Token} {serial : Nat} {v : Value}
    (h : ∀ depth frame, s.route serial = .outward depth →
      m.heap.outward? depth m.here = some frame → frame ≠ Heap.root) :
    Grows D m (writeVariable s name serial v) := by
  have hnearest : ∀ frame, Grows D m (writeNearest frame name v) := by
    intro frame
    unfold Grows Ends writeNearest Heap.assign?
    cases hholder : m.heap.holder? frame name.lexeme with
    | none => exact .refl m
    | some e =>
      have hholds := List.find?_some hholder
      exact Grown.define v fun he => .inl (he ▸ hholds)
  unfold writeVariable
  split
  · exact hnearest _
  · next depth hroute =>
    unfold Grows Ends writeOutward Heap.assignAt?
    cases hout : m.heap.outward? depth m.here with
    | none => exact .refl m
    | some frame => exact Grown.define v fun he => absurd he (h depth frame hroute hout)
  · exact .step rfl (.refl m) (hnearest _)

end Eval

/-! ## One step of each kind -/

/-- The depth of an assignment does not lead to the globals. -/
def Moment.Aside (s : Setting) (a : Moment) : Prop :=
  ∀ name value serial depth, a.task = .expr (.assign name value serial) →
    s.route serial = .outward depth →
    ∃ frame, a.machine.heap.outward? depth a.machine.here = some frame ∧ frame ≠ Heap.root

/-- A moment at which there are globals, and below which no depth of an assignment leads to them. -/
structure Calm (s : Setting) (a : Moment) : Prop where
  size : 0 < a.machine.heap.size
  aside : ∀ b, Reaches s a b → b.Aside s

theorem Calm.starts {a b : Moment} (h : Calm s a) (hb : Starts s a b)
    (hsize : a.machine.heap.size ≤ b.machine.heap.size) : Calm s b :=
  ⟨Nat.lt_of_lt_of_le h.size hsize, fun c hc => h.aside c (.head hb hc)⟩

theorem Calm.next {a b : Moment} (h : Calm s a) (hb : Starts s a b)
    (hg : Grown D a.machine b.machine) : Calm s b := h.starts hb hg.extended.size

theorem Calm.first {t t' : Task} (h : Calm s ⟨fuel + 1, room, t, m⟩)
    (hb : Starts s ⟨fuel + 1, room, t, m⟩ ⟨fuel, room, t', m⟩) : Calm s ⟨fuel, room, t', m⟩ :=
  h.starts hb (Nat.le_refl _)

/-- A statement that may stand outside of all blocks and functions if these names may be defined. -/
structure Stmt.Allowed (D : String → Prop) (st : Stmt) : Prop where
  shape : Shape.stmt st
  declared : ∀ name, st.declares? = some name → D name.lexeme

theorem Stmt.Allowed.plain {st : Stmt} (hshape : Shape.stmt st) (hst : st.declares? = none) :
    st.Allowed D := by
  refine ⟨hshape, fun name hname => ?_⟩
  rw [hst] at hname
  cases hname

open Eval (Grows)

/-- With so much fuel, every task defines only these names among the globals. -/
structure Growth (D : String → Prop) (s : Setting) (fuel : Nat) : Prop where
  expr : ∀ {room e m}, Calm s ⟨fuel, room, .expr e, m⟩ → Grows D m (Eval.expr s fuel room e)
  exprs : ∀ {room es m}, Calm s ⟨fuel, room, .exprs es, m⟩ → Grows D m (Eval.exprs s fuel room es)
  apply : ∀ {room paren f vs m}, Calm s ⟨fuel, room, .apply paren f vs, m⟩ →
    Grows D m (Eval.apply s fuel room paren f vs)
  stmt : ∀ {room st m}, Calm s ⟨fuel, room, .stmt st, m⟩ → (m.here = Heap.root → st.Allowed D) →
    Grows D m (Eval.stmt s fuel room st)
  stmts : ∀ {room sts m}, Calm s ⟨fuel, room, .stmts sts, m⟩ → m.here ≠ Heap.root →
    Grows D m (Eval.stmts s fuel room sts)
  turns : ∀ {room condition body m}, Calm s ⟨fuel, room, .turns condition body, m⟩ →
    (m.here = Heap.root → body.Allowed D) → Grows D m (Eval.turns s fuel room condition body)

namespace Growth

section Steps

variable (ih : Growth D s fuel)

include ih

theorem expr_step {e : Expr} (h : Calm s ⟨fuel + 1, room, .expr e, m⟩) :
    Grows D m (Eval.expr s (fuel + 1) room e) := by
  cases e with
  | literal value =>
    simp only [Eval.expr]
    exact .pure _
  | ref name serial =>
    simp only [Eval.expr]
    exact Eval.grows_readVariable name serial
  | assign name value serial =>
    simp only [Eval.expr]
    refine .bind (ih.expr (h.first .assign)) fun v m₁ _ hg => ?_
    refine .bind (Eval.grows_writeVariable fun depth frame hroute hout => ?_)
      fun _ _ _ _ => .pure v
    obtain ⟨frame', hout', hne⟩ := h.aside _ .refl name value serial depth rfl hroute
    have hlater := hg.extended.outward? hout'
    rw [hg.here, hlater] at hout
    obtain rfl := Option.some.inj hout
    exact hne
  | binary lhs op rhs =>
    simp only [Eval.expr]
    refine .bind (ih.expr (h.first .binaryLeft)) fun v m₁ hr hg => ?_
    refine .bind (ih.expr (h.next (.binaryRight hr) hg)) fun w m₂ _ _ => ?_
    exact .lift _
  | logical lhs op rhs =>
    simp only [Eval.expr]
    refine .bind (ih.expr (h.first .logicalLeft)) fun v m₁ hr hg => ?_
    by_cases hd : Operator.decides op v = true
    · rw [if_pos hd]
      exact .pure v
    · rw [if_neg hd]
      exact ih.expr (h.next (.logicalRight hr (Bool.eq_false_iff.2 hd)) hg)
  | unary op arg =>
    simp only [Eval.expr]
    exact .bind (ih.expr (h.first .unary)) fun v m₁ _ _ => .lift _
  | grouping inner =>
    simp only [Eval.expr]
    exact ih.expr (h.first .grouping)
  | call callee paren args =>
    simp only [Eval.expr]
    refine .bind (ih.expr (h.first .callee)) fun f m₁ hr hg => ?_
    refine .bind (ih.exprs (h.next (.arguments hr) hg)) fun vs m₂ hr' hg' => ?_
    exact ih.apply (h.next (.call hr hr') (hg.trans hg'))

theorem exprs_step {es : List Expr} (h : Calm s ⟨fuel + 1, room, .exprs es, m⟩) :
    Grows D m (Eval.exprs s (fuel + 1) room es) := by
  cases es with
  | nil =>
    simp only [Eval.exprs]
    exact .pure _
  | cons e rest =>
    simp only [Eval.exprs]
    refine .bind (ih.expr (h.first .first)) fun v m₁ hr hg => ?_
    exact .bind (ih.exprs (h.next (.others hr) hg)) fun vs m₂ _ _ => .pure _

theorem apply_step {paren : Token} {f : Value} {vs : List Value}
    (h : Calm s ⟨fuel + 1, room, .apply paren f vs, m⟩) :
    Grows D m (Eval.apply s (fuel + 1) room paren f vs) := by
  cases f with
  | closure identity d home =>
    unfold Eval.apply
    dsimp only
    by_cases hlen : vs.length = d.params.length
    · rw [if_neg (not_not.2 hlen)]
      cases room with
      | zero => exact .throw _
      | succ room =>
        -- The frame of the call is a new one, so it is not that of the globals.
        have hne : m.heap.size ≠ Heap.root := Nat.ne_of_gt h.size
        refine .step rfl (.add home) (.step (Eval.defineAll_eq ..) (.defineAll hne _ _) ?_)
        refine .bind (.inside (ih.stmts (h.starts (.body hlen) ?_) hne)) fun _ _ _ _ => .pure _
        have hadd := Heap.extends_add m.heap (some home)
        have hall : Grown D _ _ := Grown.defineAll (m := { m with heap := m.heap.add (some home) })
          hne d.params vs
        exact (hadd.trans hall.extended).size
    · rw [if_pos hlen]
      exact .throw _
  | native n =>
    unfold Eval.apply
    dsimp only
    by_cases hlen : vs.length = n.arity
    · rw [if_neg (not_not.2 hlen)]
      unfold Grows Eval.Ends Eval.ask
      cases s.answer m.answers n vs with
      | none => exact Grown.refl m
      | some v => exact Grown.same rfl rfl
    · rw [if_pos hlen]
      exact .throw _
  | _ =>
    unfold Eval.apply
    exact .throw _

theorem stmt_step {st : Stmt} (h : Calm s ⟨fuel + 1, room, .stmt st, m⟩)
    (hst : m.here = Heap.root → st.Allowed D) : Grows D m (Eval.stmt s (fuel + 1) room st) := by
  have hdeclare : ∀ {m₁ : Machine} {name : Token} (v : Value), Grown D m m₁ →
      st.declares? = some name → Grows D m₁ (do
        Eval.define m₁.here name.lexeme v
        return Flow.goOn) := by
    intro m₁ name v hg hname
    refine .step rfl (.define v fun hroot => ?_) (.pure _)
    exact .inr ((hst (hg.here.symm.trans hroot)).declared name hname)
  cases st with
  | expr e =>
    simp only [Eval.stmt]
    exact .bind (ih.expr (h.first .statement)) fun _ _ _ _ => .pure _
  | print keyword e =>
    simp only [Eval.stmt]
    refine .bind (ih.expr (h.first .print)) fun v m₁ _ _ => ?_
    exact .step rfl (.same rfl rfl) (.pure _)
  | var name init =>
    cases init with
    | none =>
      simp only [Eval.stmt]
      exact .step rfl (.refl m) (hdeclare _ (.refl m) rfl)
    | some init =>
      simp only [Eval.stmt]
      refine .bind (ih.expr (h.first .initialiser)) fun v m₁ _ hg => ?_
      exact .step rfl (.refl m₁) (hdeclare v hg rfl)
  | block body =>
    simp only [Eval.stmt]
    have hne : m.heap.size ≠ Heap.root := Nat.ne_of_gt h.size
    refine .step rfl (.refl m) (.step rfl (.add m.here) (.inside ?_))
    exact ih.stmts (h.starts .block (Heap.extends_add m.heap (some m.here)).size) hne
  | branch condition yes no =>
    cases no with
    | none =>
      simp only [Eval.stmt]
      refine .bind (ih.expr (h.first .branch)) fun v m₁ hr hg => ?_
      by_cases htrue : v.isTruthy = true
      · rw [if_pos htrue]
        refine ih.stmt (h.next (.yes hr htrue) hg) fun hroot => ?_
        have hshape := (hst (hg.here.symm.trans hroot)).shape
        exact .plain hshape.1 hshape.2
      · rw [if_neg htrue]
        exact .pure _
    | some no =>
      simp only [Eval.stmt]
      refine .bind (ih.expr (h.first .branch)) fun v m₁ hr hg => ?_
      by_cases htrue : v.isTruthy = true
      · rw [if_pos htrue]
        refine ih.stmt (h.next (.yes hr htrue) hg) fun hroot => ?_
        have hshape := (hst (hg.here.symm.trans hroot)).shape.1
        exact .plain hshape.1 hshape.2
      · rw [if_neg htrue]
        refine ih.stmt (h.next (.no hr (Bool.eq_false_iff.2 htrue)) hg) fun hroot => ?_
        have hshape := (hst (hg.here.symm.trans hroot)).shape.2
        exact .plain hshape.1 hshape.2
  | loop condition body =>
    simp only [Eval.stmt]
    refine ih.turns (h.first .loop) fun hroot => ?_
    have hshape := (hst hroot).shape
    exact .plain hshape.1 hshape.2
  | function name params body =>
    simp only [Eval.stmt]
    exact .step rfl (.refl m) (.step rfl (.same rfl rfl) (hdeclare _ (.same rfl rfl) rfl))
  | ret keyword value =>
    cases value with
    | none =>
      simp only [Eval.stmt]
      exact .pure _
    | some value =>
      simp only [Eval.stmt]
      exact .bind (ih.expr (h.first .returned)) fun _ _ _ _ => .pure _

theorem stmts_step {sts : List Stmt} (h : Calm s ⟨fuel + 1, room, .stmts sts, m⟩)
    (hne : m.here ≠ Heap.root) : Grows D m (Eval.stmts s (fuel + 1) room sts) := by
  cases sts with
  | nil =>
    simp only [Eval.stmts]
    exact .pure _
  | cons st rest =>
    simp only [Eval.stmts]
    refine .bind (ih.stmt (h.first .front) fun hroot => absurd hroot hne) fun flow m₁ hr hg => ?_
    cases flow with
    | goOn => exact ih.stmts (h.next (.next hr) hg) (hg.here.symm ▸ hne)
    | returning v => exact .pure _

theorem turns_step {condition : Expr} {body : Stmt}
    (h : Calm s ⟨fuel + 1, room, .turns condition body, m⟩)
    (hbody : m.here = Heap.root → body.Allowed D) :
    Grows D m (Eval.turns s (fuel + 1) room condition body) := by
  simp only [Eval.turns]
  refine .bind (ih.expr (h.first .condition)) fun v m₁ hr hg => ?_
  by_cases htrue : v.isTruthy = true
  · rw [if_pos htrue]
    refine .bind (ih.stmt (h.next (.turn hr htrue) hg) fun hroot =>
      hbody (hg.here.symm.trans hroot)) fun flow m₂ hr' hg' => ?_
    have hall := hg.trans hg'
    cases flow with
    | goOn =>
      exact ih.turns (h.next (.again hr htrue hr') hall) fun hroot =>
        hbody (hall.here.symm.trans hroot)
    | returning v => exact .pure _
  · rw [if_neg htrue]
    exact .pure _

end Steps

theorem all (D : String → Prop) (s : Setting) (fuel : Nat) : Growth D s fuel := by
  induction fuel with
  | zero =>
    refine ⟨fun _ => ?_, fun _ => ?_, fun _ => ?_, fun _ _ => ?_, fun _ _ => ?_, fun _ _ => ?_⟩ <;>
      simp only [Eval.expr, Eval.exprs, Eval.apply, Eval.stmt, Eval.stmts, Eval.turns] <;>
      exact .throw _
  | succ fuel ih =>
    exact ⟨ih.expr_step, ih.exprs_step, ih.apply_step, ih.stmt_step, ih.stmts_step, ih.turns_step⟩

end Growth

/-! ## Programs -/

/-- **The outermost declarations define the globals.** A program that runs outside of all blocks and
functions defines no other names among the globals. -/
theorem Machine.run_grown {program : List Stmt} (hsize : 0 < m.heap.size)
    (hhere : m.here = Heap.root) (hprogram : ∀ st ∈ program, st.Allowed D)
    (haside : ∀ front st rest m₁, program = front ++ st :: rest →
      m.run s fuel room front = (.finished, m₁) →
      ∀ b, Reaches s ⟨fuel, room, .stmt st, m₁⟩ b → b.Aside s) :
    Grown D m (m.run s fuel room program).2 := by
  induction program generalizing m with
  | nil => exact .refl m
  | cons st rest ih =>
    obtain ⟨hst, hrest⟩ := List.forall_mem_cons.1 hprogram
    have hgrows : Grows D m (Eval.stmt s fuel room st) :=
      (Growth.all D s fuel).stmt ⟨hsize, haside [] st rest m rfl rfl⟩ fun _ => hst
    unfold Machine.run
    cases hr : Eval.stmt s fuel room st m with
    | error stop m₁ => exact hgrows.error hr
    | ok flow m₁ =>
      have hg := hgrows.ok hr
      have hsize' := Nat.lt_of_lt_of_le hsize hg.extended.size
      refine hg.trans (ih hsize' (hg.here.trans hhere) hrest ?_)
      intro front st₂ rest₂ m₂ heq hrun b hb
      refine haside (st :: front) st₂ rest₂ m₂ (by rw [heq]; rfl) ?_ b hb
      unfold Machine.run
      rw [hr]
      exact hrun

end Scriptlet

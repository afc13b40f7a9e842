import Scriptlet.Proofs.Eval.Limits

/-!
# What a return ends

The statements of an activation are those that its call runs, or that one of them runs, but not
those of calls that are nested in it (`Runs`). As soon as a return is executed among them, the
activation is over: the call has the value of the return, and the machine is as the return has left
it, back in the frame of the caller (`Runs.yields`). A call whose activation executes no return has
no value but `nil` (`call_value`).
-/

namespace Scriptlet

/-- Tasks of running statements. -/
def Task.flows : Task → Bool
  | .stmt _ | .stmts _ | .turns _ _ => true
  | .expr _ | .exprs _ | .apply _ _ _ => false

/-- To do the first thing, a machine runs the statements of the second one, in the same
activation. -/
def Runs (s : Setting) : Moment → Moment → Prop :=
  Relation.ReflTransGen fun a b => Starts s a b ∧ b.task.flows = true

namespace Moment

/-- A return statement is begun. -/
def IsReturn (a : Moment) : Prop := ∃ keyword value, a.task = .stmt (.ret keyword value)

/-- Statements end by returning a value, and a call has it. -/
def Yields (s : Setting) (a : Moment) (v : Value) (m : Machine) : Prop :=
  match a.task with
  | .expr _ | .exprs _ => False
  | .apply paren f args => Eval.apply s a.fuel a.room paren f args a.machine = .ok v m
  | .stmt st => Eval.stmt s a.fuel a.room st a.machine = .ok (.returning v) m
  | .stmts sts => Eval.stmts s a.fuel a.room sts a.machine = .ok (.returning v) m
  | .turns condition body =>
    Eval.turns s a.fuel a.room condition body a.machine = .ok (.returning v) m

variable {s : Setting} {a b : Moment} {v v' : Value} {m m' : Machine}

theorem Yields.unique (h : a.Yields s v m) (h' : a.Yields s v' m') : v = v' ∧ m = m' := by
  obtain ⟨fuel, room, task, machine⟩ := a
  cases task with
  | expr _ | exprs _ => exact h.elim
  | apply _ _ _ => exact EStateM.Result.ok.inj (h.symm.trans h')
  | stmt _ | stmts _ | turns _ _ =>
    obtain ⟨hflow, hm⟩ := EStateM.Result.ok.inj (h.symm.trans h')
    exact ⟨Flow.returning.inj hflow, hm⟩

/-- A task that has a result comes back to the frame that it was begun in. -/
theorem here_of_ok {r : a.task.Result} (h : a.task.run s a.fuel a.room a.machine = .ok r m) :
    m.here = a.machine.here := ((left s a).ok h).here

theorem Yields.here (h : a.Yields s v m) : m.here = a.machine.here := by
  obtain ⟨fuel, room, task, machine⟩ := a
  cases task with
  | expr _ | exprs _ => exact h.elim
  | apply _ _ _ | stmt _ | stmts _ | turns _ _ => exact here_of_ok h

end Moment

open Eval (bind_ok)

variable {s : Setting} {a b : Moment} {v : Value} {m m' : Machine} {fuel room : Nat}

theorem Machine.back_self {frame : Nat} (h : m.here = frame) : { m with here := frame } = m := by
  subst h
  rfl

/-- What is begun on the machine that an expression has left is begun in the same frame. -/
theorem here_of_expr {e : Expr} (h : Eval.expr s fuel room e m = .ok v m') : m'.here = m.here :=
  Moment.here_of_ok (a := ⟨fuel, room, .expr e, m⟩) h

theorem here_of_stmt {st : Stmt} {flow : Flow} (h : Eval.stmt s fuel room st m = .ok flow m') :
    m'.here = m.here :=
  Moment.here_of_ok (a := ⟨fuel, room, .stmt st, m⟩) h

/-! ## Bodies -/

theorem Eval.inside_ok {α : Type} {act : Eval α} {frame : Nat} {r : α}
    (h : act { m with here := frame } = .ok r m') :
    inside frame act m = .ok r { m' with here := m.here } := by
  unfold inside
  dsimp only
  rw [h]

/-- The value of a call whose body has ended so. -/
theorem apply_of_body {paren : Token} {identity home : Nat} {d : Declaration} {vs : List Value}
    {flow : Flow} (hlen : vs.length = d.params.length)
    (h : Eval.stmts s fuel room d.body (m.called home d.params vs) = .ok flow m') :
    Eval.apply s (fuel + 1) (room + 1) paren (.closure identity d home) vs m =
      .ok flow.value { m' with here := m.here } := by
  simp only [Eval.apply]
  rw [if_neg (not_not_intro hlen)]
  let m₁ : Machine := { m with heap := m.heap.add (some home) }
  let m₂ : Machine := { m₁ with heap := m₁.heap.defineAll m.heap.size d.params vs }
  have hframe : Eval.newFrame home m = .ok m.heap.size m₁ := rfl
  have hparams : Eval.defineAll m.heap.size d.params vs m₁ = .ok () m₂ := Eval.defineAll_eq ..
  have hbody : Eval.inside m.heap.size (Eval.stmts s fuel room d.body) m₂ =
      .ok flow { m' with here := m.here } := Eval.inside_ok h
  rw [bind_ok hframe, bind_ok hparams, bind_ok hbody]
  rfl

/-- How a block ends. -/
theorem block_of_body {body : List Stmt} {flow : Flow}
    (h : Eval.stmts s fuel room body (m.framed m.here) = .ok flow m') :
    Eval.stmt s (fuel + 1) room (.block body) m = .ok flow { m' with here := m.here } := by
  simp only [Eval.stmt]
  have hhere : Eval.currentFrame m = .ok m.here m := rfl
  have hframe : Eval.newFrame m.here m =
      .ok m.heap.size { m with heap := m.heap.add (some m.here) } := rfl
  rw [bind_ok hhere, bind_ok hframe]
  exact Eval.inside_ok h

/-! ## A return ends the activation -/

/-- Statements that return end those that have begun them, and a body that returns ends its call.
On the way out nothing changes but the frame. -/
theorem Starts.yields (h : Starts s a b) (hflows : b.task.flows = true) (hb : b.Yields s v m) :
    a.Yields s v { m with here := a.machine.here } := by
  have hhere := hb.here
  unfold Moment.Yields at hb ⊢
  cases h with
  | body hlen => exact apply_of_body hlen hb
  | block => exact block_of_body hb
  | @yes _ _ _ _ _ _ no _ hc htrue =>
    rw [Machine.back_self (hhere.trans (here_of_expr hc))]
    cases no <;>
    · simp only [Eval.stmt]
      rw [bind_ok hc, if_pos htrue]
      exact hb
  | no hc hfalse =>
    rw [Machine.back_self (hhere.trans (here_of_expr hc))]
    simp only [Eval.stmt]
    rw [bind_ok hc, if_neg (Bool.eq_false_iff.1 hfalse)]
    exact hb
  | loop =>
    rw [Machine.back_self hhere]
    simp only [Eval.stmt]
    exact hb
  | front =>
    rw [Machine.back_self hhere]
    simp only [Eval.stmts]
    rw [bind_ok hb]
    rfl
  | next hst =>
    rw [Machine.back_self (hhere.trans (here_of_stmt hst))]
    simp only [Eval.stmts]
    rw [bind_ok hst]
    exact hb
  | turn hc htrue =>
    rw [Machine.back_self (hhere.trans (here_of_expr hc))]
    simp only [Eval.turns]
    rw [bind_ok hc, if_pos htrue, bind_ok hb]
    rfl
  | again hc htrue hst =>
    rw [Machine.back_self (hhere.trans ((here_of_stmt hst).trans (here_of_expr hc)))]
    simp only [Eval.turns]
    rw [bind_ok hc, if_pos htrue, bind_ok hst]
    exact hb
  | _ => cases hflows

theorem Runs.flows (h : Runs s a b) (ha : a.task.flows = true) : b.task.flows = true := by
  cases h with
  | refl => exact ha
  | tail _ hstep => exact hstep.2

/-- **A return ends the activation** that it is executed in. What has begun it, up to the call, ends
with the value of the return, on the machine that the return has left. -/
theorem Runs.yields (h : Runs s a b) (hb : b.Yields s v m) :
    a.Yields s v { m with here := a.machine.here } := by
  induction h using Relation.ReflTransGen.head_induction_on with
  | refl =>
    rw [Machine.back_self hb.here]
    exact hb
  | head hstep _ ih =>
    have hyields := hstep.1.yields hstep.2 ih
    exact hyields

/-! ## Without a return there is no value -/

theorem Eval.of_bind_ok {α β : Type} {act : Eval α} {f : α → Eval β} {r : β}
    (h : (act >>= f) m = .ok r m') : ∃ x m₁, act m = .ok x m₁ ∧ f x m₁ = .ok r m' := by
  change EStateM.bind act f m = _ at h
  unfold EStateM.bind at h
  cases hr : act m with
  | ok x m₁ =>
    rw [hr] at h
    exact ⟨x, m₁, rfl, h⟩
  | error stop m₁ =>
    rw [hr] at h
    cases h

theorem Eval.of_inside_ok {α : Type} {act : Eval α} {frame : Nat} {r : α}
    (h : inside frame act m = .ok r m') :
    ∃ m₁, act { m with here := frame } = .ok r m₁ ∧ m' = { m₁ with here := m.here } := by
  unfold inside at h
  dsimp only at h
  cases hr : act { m with here := frame } with
  | ok x m₁ =>
    rw [hr] at h
    obtain ⟨rfl, rfl⟩ := EStateM.Result.ok.inj h
    exact ⟨m₁, rfl, rfl⟩
  | error stop m₁ =>
    rw [hr] at h
    cases h

/-- Some return is executed among the statements of an activation. -/
def Moment.Executes (s : Setting) (a : Moment) : Prop :=
  ∃ b v m, Runs s a b ∧ b.IsReturn ∧ b.Yields s v m

theorem Starts.executes (h : Starts s a b) (hflows : b.task.flows = true) (hb : b.Executes s) :
    a.Executes s := by
  obtain ⟨c, v, m, hruns, hreturn⟩ := hb
  exact ⟨c, v, m, .head ⟨h, hflows⟩ hruns, hreturn⟩

/-- With this much fuel statements return only what a return has returned. -/
def ExecutesTo (s : Setting) (fuel : Nat) : Prop :=
  ∀ (room : Nat) (t : Task) (m : Machine), t.flows = true → ∀ v m',
    (Moment.mk fuel room t m).Yields s v m' → (Moment.mk fuel room t m).Executes s

section Steps

variable (ih : ExecutesTo s fuel)

include ih

/-- What statements return that this moment has begun, some return has returned. -/
theorem ExecutesTo.executes {t : Task} {room : Nat} (h : Starts s a ⟨fuel, room, t, m⟩)
    (hflows : t.flows = true) (hb : (Moment.mk fuel room t m).Yields s v m') : a.Executes s :=
  h.executes hflows (ih room t m hflows v m' hb)

theorem stmt_executes {st : Stmt}
    (h : Eval.stmt s (fuel + 1) room st m = .ok (.returning v) m') :
    Moment.Executes s ⟨fuel + 1, room, .stmt st, m⟩ := by
  have hyields : (Moment.mk (fuel + 1) room (.stmt st) m).Yields s v m' := h
  cases st with
  | expr e | print keyword e =>
    simp only [Eval.stmt] at h
    obtain ⟨_, _, _, h⟩ := Eval.of_bind_ok h
    cases h
  | var name init =>
    cases init with
    | none =>
      simp only [Eval.stmt] at h
      cases h
    | some init =>
      simp only [Eval.stmt] at h
      obtain ⟨_, _, _, h⟩ := Eval.of_bind_ok h
      cases h
  | function name params body =>
    simp only [Eval.stmt] at h
    cases h
  | block body =>
    simp only [Eval.stmt] at h
    obtain ⟨m₁, hbody, -⟩ := Eval.of_inside_ok h
    exact ih.executes .block rfl hbody
  | branch condition yes no =>
    cases no with
    | none =>
      simp only [Eval.stmt] at h
      obtain ⟨c, m₁, hc, h⟩ := Eval.of_bind_ok h
      by_cases htrue : c.isTruthy = true
      · rw [if_pos htrue] at h
        exact ih.executes (.yes hc htrue) rfl h
      · rw [if_neg htrue] at h
        cases h
    | some no =>
      simp only [Eval.stmt] at h
      obtain ⟨c, m₁, hc, h⟩ := Eval.of_bind_ok h
      by_cases htrue : c.isTruthy = true
      · rw [if_pos htrue] at h
        exact ih.executes (.yes hc htrue) rfl h
      · rw [if_neg htrue] at h
        exact ih.executes (.no hc (Bool.eq_false_iff.2 htrue)) rfl h
  | loop condition body =>
    simp only [Eval.stmt] at h
    exact ih.executes .loop rfl h
  | ret keyword value => exact ⟨_, v, m', .refl, ⟨keyword, value, rfl⟩, hyields⟩

theorem stmts_executes {sts : List Stmt}
    (h : Eval.stmts s (fuel + 1) room sts m = .ok (.returning v) m') :
    Moment.Executes s ⟨fuel + 1, room, .stmts sts, m⟩ := by
  cases sts with
  | nil =>
    simp only [Eval.stmts] at h
    cases h
  | cons st rest =>
    simp only [Eval.stmts] at h
    obtain ⟨flow, m₁, hst, h⟩ := Eval.of_bind_ok h
    cases flow with
    | goOn => exact ih.executes (.next hst) rfl h
    | returning _ =>
      cases h
      exact ih.executes .front rfl hst

theorem turns_executes {condition : Expr} {body : Stmt}
    (h : Eval.turns s (fuel + 1) room condition body m = .ok (.returning v) m') :
    Moment.Executes s ⟨fuel + 1, room, .turns condition body, m⟩ := by
  simp only [Eval.turns] at h
  obtain ⟨c, m₁, hc, h⟩ := Eval.of_bind_ok h
  by_cases htrue : c.isTruthy = true
  · rw [if_pos htrue] at h
    obtain ⟨flow, m₂, hst, h⟩ := Eval.of_bind_ok h
    cases flow with
    | goOn => exact ih.executes (.again hc htrue hst) rfl h
    | returning _ =>
      cases h
      exact ih.executes (.turn hc htrue) rfl hst
  · rw [if_neg htrue] at h
    cases h

end Steps

/-- **Only returns return.** Statements that end by returning a value have executed a return. -/
theorem executes_of_yields (s : Setting) : ∀ fuel, ExecutesTo s fuel := by
  intro fuel
  induction fuel with
  | zero =>
    intro room t m hflows v m' h
    cases t with
    | expr _ | exprs _ | apply _ _ _ => cases hflows
    | stmt _ | stmts _ | turns _ _ =>
      unfold Moment.Yields at h
      simp only [Eval.stmt, Eval.stmts, Eval.turns] at h
      cases h
  | succ fuel ih =>
    intro room t m hflows v m' h
    cases t with
    | expr _ | exprs _ | apply _ _ _ => cases hflows
    | stmt st => exact stmt_executes ih h
    | stmts sts => exact stmts_executes ih h
    | turns condition body => exact turns_executes ih h

/-! ## Calls -/

/-- A call of a function that has a value has run its body. -/
theorem body_of_apply {paren : Token} {identity home : Nat} {d : Declaration} {vs : List Value}
    (h : Eval.apply s fuel room paren (.closure identity d home) vs m = .ok v m') :
    ∃ fuel' room' flow m₁, fuel = fuel' + 1 ∧ room = room' + 1 ∧ vs.length = d.params.length ∧
      Eval.stmts s fuel' room' d.body (m.called home d.params vs) = .ok flow m₁ ∧
      v = flow.value := by
  cases fuel with
  | zero =>
    simp only [Eval.apply] at h
    cases h
  | succ fuel =>
    cases room with
    | zero =>
      simp only [Eval.apply] at h
      split at h <;> cases h
    | succ room =>
      simp only [Eval.apply] at h
      split at h
      · cases h
      · next hlen =>
        obtain ⟨frame, m₁, hframe, h⟩ := Eval.of_bind_ok h
        obtain ⟨rfl, rfl⟩ := EStateM.Result.ok.inj hframe
        obtain ⟨_, m₂, hparams, h⟩ := Eval.of_bind_ok h
        rw [Eval.defineAll_eq] at hparams
        obtain ⟨-, rfl⟩ := EStateM.Result.ok.inj hparams
        obtain ⟨flow, m₃, hbody, h⟩ := Eval.of_bind_ok h
        obtain ⟨m₄, hbody, -⟩ := Eval.of_inside_ok hbody
        obtain ⟨rfl, -⟩ := EStateM.Result.ok.inj h
        exact ⟨fuel, room, flow, m₄, rfl, rfl, Decidable.not_not.1 hlen, hbody, rfl⟩

/-- **The value of a call** is that of the one return that its activation executes, and the machine
is then as this return has left it; if no return is executed, the value is `nil`. -/
theorem call_value {paren : Token} {identity home : Nat} {d : Declaration} {vs : List Value}
    (h : Eval.apply s fuel room paren (.closure identity d home) vs m = .ok v m') :
    let a : Moment := ⟨fuel, room, .apply paren (.closure identity d home) vs, m⟩
    (∃ b m₁, Runs s a b ∧ b.IsReturn ∧ b.Yields s v m₁ ∧ m' = { m₁ with here := m.here }) ∨
      ¬ a.Executes s ∧ v = .nil := by
  intro a
  have ha : a.Yields s v m' := h
  by_cases hexec : a.Executes s
  · obtain ⟨b, v', m₁, hruns, hreturn, hb⟩ := hexec
    obtain ⟨rfl, rfl⟩ := ha.unique (hruns.yields hb)
    exact .inl ⟨b, m₁, hruns, hreturn, hb, rfl⟩
  · refine .inr ⟨hexec, ?_⟩
    obtain ⟨fuel', room', flow, m₁, rfl, rfl, hlen, hbody, rfl⟩ := body_of_apply h
    cases flow with
    | goOn => rfl
    | returning v =>
      refine absurd (Starts.executes (.body hlen) rfl ?_) hexec
      exact executes_of_yields s fuel' room' (.stmts d.body) _ rfl v m₁ hbody

end Scriptlet

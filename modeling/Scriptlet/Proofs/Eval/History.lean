import Scriptlet.Proofs.Eval.Activation

/-!
# The history of a heap

A run changes the heap step by step, and each step is taken by a moment of the run by itself
(`Moment.Changes`): a declaration or an assignment binds a name, and a block or a call makes a
frame. What there is behind a task has come of what was there before by such steps alone, however
the task ends (`Moment.history`). The same is true of what a moment finds that is reached from
another (`Reaches.history`). So what no step does is not done by a run.
-/

namespace Scriptlet

open Relation (ReflTransGen)

variable {s : Setting} {a b : Moment} {m m' : Machine} {fuel room : Nat}

/-- The frame that an assignment goes to. -/
def Setting.target? (s : Setting) (name : Token) (serial : Nat) (m : Machine) : Option Nat :=
  match s.route serial with
  | .global => m.heap.holder? Heap.root name.lexeme
  | .outward depth => m.heap.outward? depth m.here
  | .nearest => m.heap.holder? m.here name.lexeme

open Eval in
/-- What a moment does to the heap by itself, when what it has begun is done. -/
inductive Moment.Changes (s : Setting) : Moment → Heap Value → Heap Value → Prop
  | var {fuel room : Nat} {name : Token} {m : Machine} :
      Changes s ⟨fuel + 1, room, .stmt (.var name none), m⟩ m.heap
        (m.heap.define m.here name.lexeme .nil)
  | initialise {fuel room : Nat} {name : Token} {init : Expr} {v : Value} {m m' : Machine} :
      expr s fuel room init m = .ok v m' →
      Changes s ⟨fuel + 1, room, .stmt (.var name (some init)), m⟩ m'.heap
        (m'.heap.define m.here name.lexeme v)
  | function {fuel room : Nat} {name : Token} {params : List Token} {body : List Stmt}
      {m : Machine} :
      Changes s ⟨fuel + 1, room, .stmt (.function name params body), m⟩ m.heap
        (m.heap.define m.here name.lexeme (.closure m.closures ⟨name, params, body⟩ m.here))
  | assign {fuel room serial frame : Nat} {name : Token} {value : Expr} {v : Value}
      {m m' : Machine} :
      expr s fuel room value m = .ok v m' → s.target? name serial m' = some frame →
      Changes s ⟨fuel + 1, room, .expr (.assign name value serial), m⟩ m'.heap
        (m'.heap.define frame name.lexeme v)
  | block {fuel room : Nat} {body : List Stmt} {m : Machine} :
      Changes s ⟨fuel + 1, room, .stmt (.block body), m⟩ m.heap (m.framed m.here).heap
  | call {fuel room identity home : Nat} {paren : Token} {d : Declaration} {vs : List Value}
      {m : Machine} : vs.length = d.params.length →
      Changes s ⟨fuel + 1, room + 1, .apply paren (.closure identity d home) vs, m⟩ m.heap
        (m.called home d.params vs).heap

/-- A moment at or below this one changes one heap to the other. -/
def Moment.Step (s : Setting) (a : Moment) (h h' : Heap Value) : Prop :=
  ∃ b, Reaches s a b ∧ b.Changes s h h'

/-- The second heap comes of the first by changes that moments at or below this one make. -/
abbrev Moment.History (s : Setting) (a : Moment) : Heap Value → Heap Value → Prop :=
  ReflTransGen (a.Step s)

/-- What is done below is done below what has begun it. -/
theorem Reaches.step (hr : Reaches s a b) {h h' : Heap Value} (hb : b.Step s h h') :
    a.Step s h h' := by
  obtain ⟨c, hc, hchange⟩ := hb
  exact ⟨c, hr.trans hc, hchange⟩

/-- However the task of a moment ends, it leaves a machine like this. -/
def Moment.Leaves (s : Setting) (a : Moment) (P : Machine → Prop) : Prop :=
  (a.task.run s a.fuel a.room).Ends a.machine (fun _ m => P m) fun _ m => P m

theorem Moment.Leaves.mono {P Q : Machine → Prop} (h : a.Leaves s P) (hPQ : ∀ m, P m → Q m) :
    a.Leaves s Q := Eval.Ends.mono h (fun _ => hPQ) fun _ => hPQ

/-- A task comes back to the frame that it was begun in, and extends the heap. -/
theorem Moment.leaves_back (s : Setting) (a : Moment) :
    a.Leaves s fun m => m.here = a.machine.here ∧ a.machine.heap.Extends m.heap :=
  Eval.Ends.mono (Moment.left s a) (fun _ _ h => ⟨h.here, h.extended⟩)
    fun _ _ h => ⟨h.here, h.extended⟩

/-! ## Parts of a run -/

namespace Eval

variable {α β : Type} {act : Eval α} {R : Heap Value → Heap Value → Prop}

/-- However a part of a run ends, its heap has come of this one by these steps. -/
def Goes (R : Heap Value → Heap Value → Prop) (h : Heap Value) (m : Machine) (act : Eval α) :
    Prop :=
  act.Ends m (fun _ m' => ReflTransGen R h m'.heap) fun _ m' => ReflTransGen R h m'.heap

variable {h : Heap Value}

theorem Goes.pure (a : α) : Goes R m.heap m (Pure.pure a) := ReflTransGen.refl

theorem Goes.throw (stop : Stop) : Goes R m.heap m (MonadExcept.throw stop : Eval α) :=
  ReflTransGen.refl

theorem Goes.mono {R' : Heap Value → Heap Value → Prop} (hact : Goes R h m act)
    (hR : ∀ h h', R h h' → R' h h') : Goes R' h m act :=
  Ends.mono hact (fun _ _ => ReflTransGen.mono hR _ _) fun _ _ => ReflTransGen.mono hR _ _

theorem Goes.bind {f : α → Eval β} (hact : Goes R h m act)
    (hf : ∀ x m', act m = .ok x m' → Goes R m'.heap m' (f x)) : Goes R h m (act >>= f) := by
  refine Ends.bind hact fun x m' hr hgo => ?_
  exact Ends.mono (hf x m' hr) (fun _ _ hgo' => hgo.trans hgo') fun _ _ hgo' => hgo.trans hgo'

/-- A part of a run that goes on like another one does. -/
theorem Goes.like {act' : Eval α} (heq : act m = act' m') (hact : Goes R h m' act') :
    Goes R h m act := by
  unfold Goes Ends
  rw [heq]
  exact hact

/-- A part of a run behind some steps. -/
theorem Goes.behind (hgo : ReflTransGen R h m.heap) (hact : Goes R m.heap m act) :
    Goes R h m act :=
  Ends.mono hact (fun _ _ hgo' => hgo.trans hgo') fun _ _ hgo' => hgo.trans hgo'

/-- A step that does not stop, and does not touch the heap. -/
theorem Goes.still {x : α} {f : α → Eval β} (hr : act m = .ok x m') (hheap : m'.heap = m.heap)
    (hf : Goes R m'.heap m' (f x)) : Goes R m.heap m (act >>= f) :=
  .like (bind_ok hr) (.behind (by rw [hheap]) hf)

/-- A step that changes the heap and does not stop. -/
theorem Goes.step {x : α} {f : α → Eval β} (hr : act m = .ok x m') (hstep : R m.heap m'.heap)
    (hf : Goes R m'.heap m' (f x)) : Goes R m.heap m (act >>= f) :=
  .like (bind_ok hr) (.behind (.single hstep) hf)

theorem Goes.lift (result : Except Stop α) : Goes R m.heap m (Eval.lift result) := by
  cases result with
  | ok a => exact .pure a
  | error stop => exact .throw stop

theorem Goes.inside {frame : Nat} (hact : Goes R h { m with here := frame } act) :
    Goes R h m (inside frame act) := Ends.inside hact

theorem goes_readVariable (s : Setting) (name : Token) (serial : Nat) :
    Goes R m.heap m (readVariable s name serial) := by
  have hnearest : ∀ frame, Goes R m.heap m (readNearest frame name) := by
    intro frame
    unfold Goes Ends readNearest
    cases m.heap.get? frame name.lexeme <;> exact .refl
  unfold readVariable
  split
  · exact hnearest _
  · next depth _ =>
    unfold Goes Ends readOutward
    split <;> split at * <;> cases ‹_ = _› <;> exact .refl
  · exact .still rfl rfl (hnearest _)

/-- An assignment binds the name in its target, if it has one. -/
theorem goes_writeVariable {name : Token} {serial : Nat} {v : Value}
    (h : ∀ frame, s.target? name serial m = some frame →
      R m.heap (m.heap.define frame name.lexeme v)) :
    Goes R m.heap m (writeVariable s name serial v) := by
  have hnearest : ∀ e, (∀ frame, m.heap.holder? e name.lexeme = some frame →
      R m.heap (m.heap.define frame name.lexeme v)) → Goes R m.heap m (writeNearest e name v) := by
    intro e he
    unfold Goes Ends writeNearest Heap.assign?
    cases hf : m.heap.holder? e name.lexeme with
    | none => exact .refl
    | some frame => exact .single (he frame hf)
  unfold Setting.target? at h
  unfold writeVariable
  split
  · next hroute =>
    rw [hroute] at h
    exact hnearest _ h
  · next depth hroute =>
    rw [hroute] at h
    unfold Goes Ends writeOutward Heap.assignAt?
    dsimp only at h
    cases hf : m.heap.outward? depth m.here with
    | none => exact .refl
    | some frame => exact .single (h frame hf)
  · next hroute =>
    rw [hroute] at h
    exact .still rfl rfl (hnearest _ h)

/-- A call makes its frame and fills it, and then runs the body in it. -/
theorem apply_closure {paren : Token} {identity home : Nat} {d : Declaration} {vs : List Value}
    (hlen : vs.length = d.params.length) :
    apply s (fuel + 1) (room + 1) paren (.closure identity d home) vs m =
      (do
        let flow ← inside m.heap.size (stmts s fuel room d.body)
        return flow.value) { m with heap := (m.called home d.params vs).heap } := by
  unfold apply
  dsimp only
  have hframe : newFrame home m =
      .ok m.heap.size { m with heap := m.heap.add (some home) } := rfl
  rw [if_neg (not_not_intro hlen), bind_ok hframe, bind_ok (defineAll_eq ..)]
  rfl

end Eval

/-! ## Moments -/

namespace Moment

open Eval (Goes)

/-- With so much fuel, tasks have a history. -/
def HistoryTo (s : Setting) (fuel : Nat) : Prop :=
  ∀ (room : Nat) (t : Task) (m : Machine),
    Goes (Step s ⟨fuel, room, t, m⟩) m.heap m (t.run s fuel room)

/-- What a moment itself does is a step. -/
theorem Changes.step {h h' : Heap Value} (hc : a.Changes s h h') : a.Step s h h' := ⟨a, .refl, hc⟩

section Steps

variable (ih : HistoryTo s fuel)

include ih

/-- The history of what a moment begins is a part of its own. -/
theorem HistoryTo.starts {t : Task} (h : Starts s a ⟨fuel, room, t, m⟩) :
    Goes (a.Step s) m.heap m (t.run s fuel room) :=
  (ih room t m).mono fun _ _ => Reaches.step (.single h)

theorem expr_history (e : Expr) :
    Goes (Step s ⟨fuel + 1, room, .expr e, m⟩) m.heap m (Eval.expr s (fuel + 1) room e) := by
  cases e with
  | literal l =>
    simp only [Eval.expr]
    exact .pure _
  | ref name serial =>
    simp only [Eval.expr]
    exact Eval.goes_readVariable s name serial
  | assign name value serial =>
    simp only [Eval.expr]
    refine .bind (ih.starts .assign) fun v m₁ hr => ?_
    exact .bind (Eval.goes_writeVariable fun frame hf => (Changes.assign hr hf).step)
      fun _ _ _ => .pure _
  | binary lhs op rhs =>
    simp only [Eval.expr]
    refine .bind (ih.starts .binaryLeft) fun v m₁ hr => ?_
    exact .bind (ih.starts (.binaryRight hr)) fun _ _ _ => .lift _
  | logical lhs op rhs =>
    simp only [Eval.expr]
    refine .bind (ih.starts .logicalLeft) fun v m₁ hr => ?_
    split
    · exact .pure _
    · next hdecides => exact ih.starts (.logicalRight hr (Bool.eq_false_iff.2 hdecides))
  | unary op arg =>
    simp only [Eval.expr]
    exact .bind (ih.starts .unary) fun _ _ _ => .lift _
  | grouping inner =>
    simp only [Eval.expr]
    exact ih.starts .grouping
  | call callee paren args =>
    simp only [Eval.expr]
    refine .bind (ih.starts .callee) fun f m₁ hr => ?_
    exact .bind (ih.starts (.arguments hr)) fun vs m₂ hr' => ih.starts (.call hr hr')

theorem exprs_history (es : List Expr) :
    Goes (Step s ⟨fuel + 1, room, .exprs es, m⟩) m.heap m (Eval.exprs s (fuel + 1) room es) := by
  cases es with
  | nil =>
    simp only [Eval.exprs]
    exact .pure _
  | cons e rest =>
    simp only [Eval.exprs]
    refine .bind (ih.starts .first) fun v m₁ hr => ?_
    exact .bind (ih.starts (.others hr)) fun _ _ _ => .pure _

theorem apply_history (paren : Token) (f : Value) (vs : List Value) :
    Goes (Step s ⟨fuel + 1, room, .apply paren f vs, m⟩) m.heap m
      (Eval.apply s (fuel + 1) room paren f vs) := by
  cases f with
  | closure identity d home =>
    by_cases hlen : vs.length = d.params.length
    · cases room with
      | zero =>
        unfold Eval.apply
        dsimp only
        rw [if_neg (not_not_intro hlen)]
        exact .throw _
      | succ room =>
        refine .like (Eval.apply_closure hlen) ?_
        refine .behind (.single (Changes.call hlen).step) ?_
        exact .bind (.inside (ih.starts (.body hlen))) fun _ _ _ => .pure _
    · unfold Eval.apply
      dsimp only
      rw [if_pos hlen]
      exact .throw _
  | native n =>
    unfold Eval.apply
    dsimp only
    split
    · exact .throw _
    · unfold Goes Eval.Ends Eval.ask
      cases s.answer m.answers n vs <;> exact .refl
  | _ =>
    unfold Eval.apply
    exact .throw _

theorem stmt_history (st : Stmt) :
    Goes (Step s ⟨fuel + 1, room, .stmt st, m⟩) m.heap m (Eval.stmt s (fuel + 1) room st) := by
  cases st with
  | expr e =>
    simp only [Eval.stmt]
    exact .bind (ih.starts .statement) fun _ _ _ => .pure _
  | print keyword e =>
    simp only [Eval.stmt]
    exact .bind (ih.starts .print) fun v m₁ _ => .still rfl rfl (.pure _)
  | var name init =>
    cases init with
    | none =>
      simp only [Eval.stmt]
      exact .still rfl rfl (.step rfl Changes.var.step (.pure _))
    | some init =>
      simp only [Eval.stmt]
      refine .bind (ih.starts .initialiser) fun v m₁ hr => .still rfl rfl ?_
      refine .step rfl ?_ (.pure _)
      rw [here_of_expr hr]
      exact (Changes.initialise hr).step
  | block body =>
    simp only [Eval.stmt]
    refine .still rfl rfl (.step rfl Changes.block.step (.inside ?_))
    exact ih.starts .block
  | branch condition yes no =>
    cases no with
    | none =>
      simp only [Eval.stmt]
      refine .bind (ih.starts .branch) fun v m₁ hr => ?_
      split
      · next htrue => exact ih.starts (.yes hr htrue)
      · exact .pure _
    | some no =>
      simp only [Eval.stmt]
      refine .bind (ih.starts .branch) fun v m₁ hr => ?_
      split
      · next htrue => exact ih.starts (.yes hr htrue)
      · next hfalse => exact ih.starts (.no hr (Bool.eq_false_iff.2 hfalse))
  | loop condition body =>
    simp only [Eval.stmt]
    exact ih.starts .loop
  | function name params body =>
    simp only [Eval.stmt]
    exact .still rfl rfl (.still rfl rfl (.step rfl Changes.function.step (.pure _)))
  | ret keyword value =>
    cases value with
    | none =>
      simp only [Eval.stmt]
      exact .pure _
    | some value =>
      simp only [Eval.stmt]
      exact .bind (ih.starts .returned) fun _ _ _ => .pure _

theorem stmts_history (sts : List Stmt) :
    Goes (Step s ⟨fuel + 1, room, .stmts sts, m⟩) m.heap m (Eval.stmts s (fuel + 1) room sts) := by
  cases sts with
  | nil =>
    simp only [Eval.stmts]
    exact .pure _
  | cons st rest =>
    simp only [Eval.stmts]
    refine .bind (ih.starts .front) fun flow m₁ hr => ?_
    cases flow with
    | goOn => exact ih.starts (.next hr)
    | returning v => exact .pure _

theorem turns_history (condition : Expr) (body : Stmt) :
    Goes (Step s ⟨fuel + 1, room, .turns condition body, m⟩) m.heap m
      (Eval.turns s (fuel + 1) room condition body) := by
  simp only [Eval.turns]
  refine .bind (ih.starts .condition) fun v m₁ hr => ?_
  split
  · next htrue =>
    refine .bind (ih.starts (.turn hr htrue)) fun flow m₂ hr' => ?_
    cases flow with
    | goOn => exact ih.starts (.again hr htrue hr')
    | returning v => exact .pure _
  · exact .pure _

end Steps

/-- **Every change is made by a moment.** However a task ends, its heap has come of the one before
by what the moments at or below it do themselves. -/
theorem history (s : Setting) (a : Moment) :
    a.Leaves s fun m => a.History s a.machine.heap m.heap := by
  suffices h : ∀ fuel, HistoryTo s fuel from h a.fuel a.room a.task a.machine
  intro fuel
  induction fuel with
  | zero =>
    intro room t m
    cases t <;>
      simp only [Task.run, Eval.expr, Eval.exprs, Eval.apply, Eval.stmt, Eval.stmts, Eval.turns] <;>
      exact .throw _
  | succ fuel ih =>
    intro room t m
    cases t with
    | expr e => exact expr_history ih e
    | exprs es => exact exprs_history ih es
    | apply paren f args => exact apply_history ih paren f args
    | stmt st => exact stmt_history ih st
    | stmts sts => exact stmts_history ih sts
    | turns condition body => exact turns_history ih condition body

theorem history_ok (a : Moment) {r : a.task.Result}
    (hr : a.task.run s a.fuel a.room a.machine = .ok r m) : a.History s a.machine.heap m.heap :=
  Eval.Ends.ok (history s a) hr

end Moment

/-! ## From one moment to another -/

open Eval (Goes bind_ok)

/-- What a moment has begun and done leads up to what it begins next. -/
theorem Starts.history (h : Starts s a b) : a.History s a.machine.heap b.machine.heap := by
  have hdone : ∀ {fuel room : Nat} {t : Task} {m m' : Machine} {r : t.Result},
      Starts s a ⟨fuel, room, t, m⟩ → t.run s fuel room m = .ok r m' →
      a.History s m.heap m'.heap := fun {fuel room t m m' r} hstarts hr =>
    ReflTransGen.mono (fun _ _ => Reaches.step (.single hstarts)) _ _
      (Moment.history_ok ⟨fuel, room, t, m⟩ hr)
  cases h with
  | binaryRight hr => exact hdone (t := .expr _) .binaryLeft hr
  | logicalRight hr _ => exact hdone (t := .expr _) .logicalLeft hr
  | arguments hr => exact hdone (t := .expr _) .callee hr
  | call hr hr' =>
    exact (hdone (t := .expr _) .callee hr).trans (hdone (t := .exprs _) (.arguments hr) hr')
  | others hr => exact hdone (t := .expr _) .first hr
  | body hlen => exact .single (Moment.Changes.call hlen).step
  | block => exact .single Moment.Changes.block.step
  | yes hr _ => exact hdone (t := .expr _) .branch hr
  | no hr _ => exact hdone (t := .expr _) .branch hr
  | next hr => exact hdone (t := .stmt _) .front hr
  | turn hr _ => exact hdone (t := .expr _) .condition hr
  | again hr htrue hr' =>
    exact (hdone (t := .expr _) .condition hr).trans (hdone (t := .stmt _) (.turn hr htrue) hr')
  | _ => exact .refl

/-- The heap that a moment finds has come of the one before by what moments do between. -/
theorem Reaches.history (h : Reaches s a b) : a.History s a.machine.heap b.machine.heap := by
  induction h with
  | refl => exact .refl
  | tail hab hbc ih =>
    exact ih.trans (ReflTransGen.mono (fun _ _ => Reaches.step hab) _ _ hbc.history)

/-- What leads to the end of what a moment begins leads on to its own end. -/
theorem Starts.goes (hstart : Starts s a b) {h : Heap Value}
    (hb : Goes (a.Step s) h b.machine (b.task.run s b.fuel b.room)) :
    Goes (a.Step s) h a.machine (a.task.run s a.fuel a.room) := by
  have hgoes : ∀ {fuel room : Nat} {t : Task} {m : Machine}, Starts s a ⟨fuel, room, t, m⟩ →
      Goes (a.Step s) m.heap m (t.run s fuel room) := fun {fuel room t m} hstarts =>
    Goes.mono (Moment.history s ⟨fuel, room, t, m⟩) fun _ _ => Reaches.step (.single hstarts)
  cases hstart with
  | assign =>
    simp only [Task.run, Eval.expr]
    refine .bind hb fun v m₁ hr => ?_
    exact .bind (Eval.goes_writeVariable fun frame hf => (Moment.Changes.assign hr hf).step)
      fun _ _ _ => .pure _
  | binaryLeft =>
    simp only [Task.run, Eval.expr]
    exact .bind hb fun _ _ hr => .bind (hgoes (.binaryRight hr)) fun _ _ _ => .lift _
  | binaryRight hr =>
    simp only [Task.run, Eval.expr]
    exact .like (bind_ok hr) (.bind hb fun _ _ _ => .lift _)
  | logicalLeft =>
    simp only [Task.run, Eval.expr]
    refine .bind hb fun v m₁ hr => ?_
    split
    · exact .pure _
    · next hdecides => exact hgoes (.logicalRight hr (Bool.eq_false_iff.2 hdecides))
  | logicalRight hr hdecides =>
    simp only [Task.run, Eval.expr]
    refine .like (bind_ok hr) ?_
    rw [if_neg (Bool.eq_false_iff.1 hdecides)]
    exact hb
  | unary =>
    simp only [Task.run, Eval.expr]
    exact .bind hb fun _ _ _ => .lift _
  | grouping =>
    simp only [Task.run, Eval.expr]
    exact hb
  | callee =>
    simp only [Task.run, Eval.expr]
    refine .bind hb fun _ _ hr => ?_
    exact .bind (hgoes (.arguments hr)) fun _ _ hr' => hgoes (.call hr hr')
  | arguments hr =>
    simp only [Task.run, Eval.expr]
    exact .like (bind_ok hr) (.bind hb fun _ _ hr' => hgoes (.call hr hr'))
  | call hr hr' =>
    simp only [Task.run, Eval.expr]
    exact .like ((bind_ok hr).trans (bind_ok hr')) hb
  | first =>
    simp only [Task.run, Eval.exprs]
    exact .bind hb fun _ _ hr => .bind (hgoes (.others hr)) fun _ _ _ => .pure _
  | others hr =>
    simp only [Task.run, Eval.exprs]
    exact .like (bind_ok hr) (.bind hb fun _ _ _ => .pure _)
  | body hlen => exact .like (Eval.apply_closure hlen) (.bind (.inside hb) fun _ _ _ => .pure _)
  | statement =>
    simp only [Task.run, Eval.stmt]
    exact .bind hb fun _ _ _ => .pure _
  | print =>
    simp only [Task.run, Eval.stmt]
    exact .bind hb fun _ _ _ => .still rfl rfl (.pure _)
  | initialiser =>
    simp only [Task.run, Eval.stmt]
    refine .bind hb fun v m₁ hr => .still rfl rfl (.step rfl ?_ (.pure _))
    rw [here_of_expr hr]
    exact (Moment.Changes.initialise hr).step
  | block =>
    simp only [Task.run, Eval.stmt]
    exact .like (bind_ok rfl) (.like (bind_ok rfl) (.inside hb))
  | branch =>
    rename_i no
    cases no with
    | none =>
      simp only [Task.run, Eval.stmt]
      refine .bind hb fun v m₁ hr => ?_
      split
      · next htrue => exact hgoes (.yes hr htrue)
      · exact .pure _
    | some no =>
      simp only [Task.run, Eval.stmt]
      refine .bind hb fun v m₁ hr => ?_
      split
      · next htrue => exact hgoes (.yes hr htrue)
      · next hfalse => exact hgoes (.no hr (Bool.eq_false_iff.2 hfalse))
  | yes hr htrue =>
    rename_i no _
    cases no <;>
    · simp only [Task.run, Eval.stmt]
      refine .like (bind_ok hr) ?_
      rw [if_pos htrue]
      exact hb
  | no hr hfalse =>
    simp only [Task.run, Eval.stmt]
    refine .like (bind_ok hr) ?_
    rw [if_neg (Bool.eq_false_iff.1 hfalse)]
    exact hb
  | loop =>
    simp only [Task.run, Eval.stmt]
    exact hb
  | returned =>
    simp only [Task.run, Eval.stmt]
    exact .bind hb fun _ _ _ => .pure _
  | front =>
    simp only [Task.run, Eval.stmts]
    refine .bind hb fun flow m₁ hr => ?_
    cases flow with
    | goOn => exact hgoes (.next hr)
    | returning v => exact .pure _
  | next hr =>
    simp only [Task.run, Eval.stmts]
    exact .like (bind_ok hr) hb
  | condition =>
    simp only [Task.run, Eval.turns]
    refine .bind hb fun v m₁ hr => ?_
    split
    · next htrue =>
      refine .bind (hgoes (.turn hr htrue)) fun flow m₂ hr' => ?_
      cases flow with
      | goOn => exact hgoes (.again hr htrue hr')
      | returning v => exact .pure _
    · exact .pure _
  | turn hr htrue =>
    simp only [Task.run, Eval.turns]
    refine .like (bind_ok hr) ?_
    rw [if_pos htrue]
    refine .bind hb fun flow m₂ hr' => ?_
    cases flow with
    | goOn => exact hgoes (.again hr htrue hr')
    | returning v => exact .pure _
  | again hr htrue hr' =>
    simp only [Task.run, Eval.turns]
    refine .like (bind_ok hr) ?_
    rw [if_pos htrue]
    exact .like (bind_ok hr') hb

/-- The heap behind a task has come of what any moment of it finds. -/
theorem Reaches.leaves (h : Reaches s a b) :
    a.Leaves s fun m => a.History s b.machine.heap m.heap := by
  induction h using ReflTransGen.head_induction_on with
  | refl => exact Moment.history s b
  | head hac _ ih => exact hac.goes (Goes.mono ih fun _ _ => Reaches.step (.single hac))

end Scriptlet

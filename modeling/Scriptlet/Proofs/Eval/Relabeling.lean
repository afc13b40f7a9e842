import Scriptlet.Eval.Run
import Scriptlet.Proofs.Mapping
import Scriptlet.Proofs.Tree.Relabeling

/-!
# Runs of relabeled programs

A program with other serials does the same, if its references have the routes that they had before
(`Setting.Relabels`). Its machine is the relabeled machine at every step: it holds the same values,
but for the declarations of its functions, which are relabeled too (`Machine.run_relabeled`). This
holds of all machines and all programs, so a run may be replaced by that of the relabeled program.

**Carrying** (`Eval.Carried`). A part of a run is carried to another if the other one has the
relabeled outcome on the relabeled machine. Parts are put together by `Carried.bind`.
-/

namespace Scriptlet

namespace Relabeling

variable (g : Relabeling)

/-- Relabels what a program says about a function. -/
def declaration (d : Declaration) : Declaration :=
  ⟨g.token d.name, d.params.map g.token, g.stmts d.body⟩

/-- Relabels the declaration of a closure. -/
def value : Value → Value
  | .closure identity d home => .closure identity (g.declaration d) home
  | v => v

/-- Relabels the value that is returned. -/
def flow : Flow → Flow
  | .goOn => .goOn
  | .returning v => .returning (g.value v)

/-- Relabels the token that a crash is blamed on. -/
def stop : Stop → Stop
  | .crash c => .crash ⟨g.token c.token, c.cause⟩
  | stop => stop

/-- Relabels the values of a machine. -/
def machine (m : Machine) : Machine := { m with heap := m.heap.map g.value }

/-- Relabels how a program has ended. -/
def ending : Ending → Ending
  | .finished => .finished
  | .stopped stop => .stopped (g.stop stop)

/-- Relabels how a part of a run has ended. -/
def outcome {α β : Type} (f : α → β) :
    EStateM.Result Stop Machine α → EStateM.Result Stop Machine β
  | .ok a m => .ok (f a) (g.machine m)
  | .error stop m => .error (g.stop stop) (g.machine m)

/-! ## Values -/

variable {g}

@[simp] theorem isTruthy_value (v : Value) : (g.value v).isTruthy = v.isTruthy := by
  cases v <;> rfl

@[simp] theorem equals_value (v w : Value) : (g.value v).equals (g.value w) = v.equals w := by
  cases v <;> cases w <;> rfl

@[simp] theorem text_value (v : Value) : (g.value v).text = v.text := by
  cases v with
  | closure identity d home =>
    show "<fn " ++ (g.token d.name).lexeme ++ ">" = _
    rw [g.lexeme_token]
    rfl
  | _ => rfl

theorem value_ofLiteral (l : Literal) : g.value (.ofLiteral l) = .ofLiteral l := by
  cases l <;> rfl

theorem value_flow (flow : Flow) : (g.flow flow).value = g.value flow.value := by
  cases flow <;> rfl

/-! ## Operators -/

/-- The result of an operator, relabeled. -/
def result (g : Relabeling) : Except Stop Value → Except Stop Value
  | .ok v => .ok (g.value v)
  | .error stop => .error (g.stop stop)

theorem unary_value (op : Token) (v : Value) :
    Operator.unary (g.token op) (g.value v) = g.result (Operator.unary op v) := by
  unfold Operator.unary
  rw [g.kind_token]
  split
  · rw [isTruthy_value]
    rfl
  · cases v <;> rfl

theorem plus_value (op : Token) (v w : Value) :
    Operator.plus (g.token op) (g.value v) (g.value w) = g.result (Operator.plus op v w) := by
  cases v <;> cases w <;> rfl

theorem arithmetic_value (op : Token) (x y : Float) :
    Operator.arithmetic (g.token op) x y = g.result (Operator.arithmetic op x y) := by
  unfold Operator.arithmetic
  rw [g.kind_token]
  split <;> rfl

theorem binary_value (op : Token) (v w : Value) :
    Operator.binary (g.token op) (g.value v) (g.value w) = g.result (Operator.binary op v w) := by
  unfold Operator.binary
  rw [g.kind_token]
  split
  · rw [equals_value]
    rfl
  · rw [equals_value]
    rfl
  · exact plus_value op v w
  · cases v with
    | number x =>
      cases w with
      | number y => exact arithmetic_value op x y
      | _ => rfl
    | _ => rfl

theorem decides_value (op : Token) (v : Value) :
    Operator.decides (g.token op) (g.value v) = Operator.decides op v := by
  unfold Operator.decides
  rw [g.kind_token, isTruthy_value]

end Relabeling

open Relabeling

/-- In the second setting relabeled references have the routes that they have in the first, and
native functions have the same answers. -/
structure Setting.Relabels (g : Relabeling) (s s' : Setting) : Prop where
  route : ∀ k, s'.route (g.serial k) = s.route k
  answer : ∀ answers n args,
    s'.answer answers n (args.map g.value) = (s.answer answers n args).map g.value

/-! ## Carrying -/

namespace Eval

variable {g : Relabeling} {α β γ δ : Type} {f : α → β} {f' : γ → δ} {s s' : Setting}

/-- On the relabeled machine the second part has the relabeled outcome of the first. -/
def Carried (g : Relabeling) (f : α → β) (act : Eval α) (act' : Eval β) : Prop :=
  ∀ m, act' (g.machine m) = g.outcome f (act m)

theorem Carried.pure (f : α → β) (a : α) : Carried g f (Pure.pure a) (Pure.pure (f a)) :=
  fun _ => rfl

theorem Carried.throw (f : α → β) (stop : Stop) :
    Carried g f (MonadExcept.throw stop) (MonadExcept.throw (g.stop stop)) := fun _ => rfl

theorem Carried.bind {act : Eval α} {act' : Eval β} {k : α → Eval γ} {k' : β → Eval δ}
    (h : Carried g f act act') (hk : ∀ a, Carried g f' (k a) (k' (f a))) :
    Carried g f' (act >>= k) (act' >>= k') := by
  intro m
  show EStateM.bind act' k' (g.machine m) = g.outcome f' (EStateM.bind act k m)
  unfold EStateM.bind
  rw [h m]
  cases act m with
  | ok a m' => exact hk a m'
  | error stop m' => rfl

theorem Carried.lift (result : Except Stop Value) :
    Carried g g.value (lift result) (lift (g.result result)) := by
  cases result with
  | ok v => exact .pure g.value v
  | error stop => exact .throw g.value stop

/-- A choice that both parts make alike. -/
theorem Carried.ite {p p' : Prop} [Decidable p] [Decidable p'] {act₁ act₂ : Eval α}
    {act₁' act₂' : Eval β} (hp : p' ↔ p) (h₁ : Carried g f act₁ act₁')
    (h₂ : Carried g f act₂ act₂') :
    Carried g f (if p then act₁ else act₂) (if p' then act₁' else act₂') := by
  by_cases h : p
  · rw [if_pos h, if_pos (hp.2 h)]
    exact h₁
  · rw [if_neg h, if_neg fun h' => h (hp.1 h')]
    exact h₂

theorem Carried.inside {act : Eval α} {act' : Eval β} (frame : Nat) (h : Carried g f act act') :
    Carried g f (inside frame act) (inside frame act') := by
  intro m
  unfold Eval.inside
  have hin := h { m with here := frame }
  change act' { g.machine m with here := frame } = _ at hin
  rw [hin]
  cases act { m with here := frame } <;> rfl

/-! ## Steps -/

theorem carried_currentFrame : Carried g id currentFrame currentFrame := fun _ => rfl

theorem carried_newIdentity : Carried g id newIdentity newIdentity := fun _ => rfl

theorem carried_newFrame (link : Nat) : Carried g id (newFrame link) (newFrame link) := by
  intro m
  unfold newFrame
  show EStateM.Result.ok (m.heap.map g.value).size _ = _
  rw [Heap.size_map]
  show EStateM.Result.ok _ { g.machine m with heap := (m.heap.map g.value).add (some link) } = _
  rw [Heap.add_map]
  rfl

theorem carried_define (frame : Nat) (name : String) (v : Value) :
    Carried g id (define frame name v) (define frame name (g.value v)) := by
  intro m
  unfold define
  show EStateM.Result.ok _ { g.machine m with
    heap := (m.heap.map g.value).define frame name (g.value v) } = _
  rw [Heap.define_map]
  rfl

theorem carried_defineAll (frame : Nat) (ps : List Token) (vs : List Value) :
    Carried g id (defineAll frame ps vs) (defineAll frame (ps.map g.token) (vs.map g.value)) := by
  induction ps generalizing vs with
  | nil => exact .pure id ()
  | cons p ps ih =>
    cases vs with
    | nil => exact .pure id ()
    | cons v vs =>
      refine .bind (f := id) ?_ fun _ => ih vs
      rw [g.lexeme_token]
      exact carried_define frame p.lexeme v

theorem carried_print (line : String) : Carried g id (print line) (print line) := fun _ => rfl

theorem carried_ask (h : Setting.Relabels g s s') (n : Native) (args : List Value) :
    Carried g g.value (ask s n args) (ask s' n (args.map g.value)) := by
  intro m
  have hanswer : s'.answer (g.machine m).answers n (args.map g.value) =
      (s.answer m.answers n args).map g.value := h.answer ..
  unfold ask
  rw [hanswer]
  cases s.answer m.answers n args <;> rfl

theorem carried_readNearest (frame : Nat) (name : Token) :
    Carried g g.value (readNearest frame name) (readNearest frame (g.token name)) := by
  intro m
  have hget : (g.machine m).heap.get? frame name.lexeme =
      (m.heap.get? frame name.lexeme).map g.value := Heap.get?_map ..
  unfold readNearest
  rw [g.lexeme_token, hget]
  cases m.heap.get? frame name.lexeme <;> rfl

theorem carried_readOutward (depth : Nat) (name : Token) :
    Carried g g.value (readOutward depth name) (readOutward depth (g.token name)) := by
  intro m
  have hget : (g.machine m).heap.getAt depth (g.machine m).here name.lexeme =
      (m.heap.getAt depth m.here name.lexeme).map g.value := Heap.getAt_map ..
  unfold readOutward
  rw [g.lexeme_token, hget]
  rcases m.heap.getAt depth m.here name.lexeme with (_ | _) | _ <;> rfl

theorem carried_readVariable (h : Setting.Relabels g s s') (name : Token) (serial : Nat) :
    Carried g g.value (readVariable s name serial)
      (readVariable s' (g.token name) (g.serial serial)) := by
  unfold readVariable
  rw [h.route]
  cases s.route serial with
  | global => exact carried_readNearest _ name
  | outward depth => exact carried_readOutward depth name
  | nearest => exact .bind carried_currentFrame fun frame => carried_readNearest frame name

theorem carried_writeNearest (frame : Nat) (name : Token) (v : Value) :
    Carried g id (writeNearest frame name v) (writeNearest frame (g.token name) (g.value v)) := by
  intro m
  have hassign : (g.machine m).heap.assign? frame name.lexeme (g.value v) =
      (m.heap.assign? frame name.lexeme v).map (Heap.map g.value) := Heap.assign?_map ..
  unfold writeNearest
  rw [g.lexeme_token, hassign]
  cases m.heap.assign? frame name.lexeme v <;> rfl

theorem carried_writeOutward (depth : Nat) (name : Token) (v : Value) :
    Carried g id (writeOutward depth name v) (writeOutward depth (g.token name) (g.value v)) := by
  intro m
  have hassign : (g.machine m).heap.assignAt? depth (g.machine m).here name.lexeme (g.value v) =
      (m.heap.assignAt? depth m.here name.lexeme v).map (Heap.map g.value) := Heap.assignAt?_map ..
  unfold writeOutward
  rw [g.lexeme_token, hassign]
  cases m.heap.assignAt? depth m.here name.lexeme v <;> rfl

theorem carried_writeVariable (h : Setting.Relabels g s s') (name : Token) (serial : Nat)
    (v : Value) : Carried g id (writeVariable s name serial v)
      (writeVariable s' (g.token name) (g.serial serial) (g.value v)) := by
  unfold writeVariable
  rw [h.route]
  cases s.route serial with
  | global => exact carried_writeNearest _ name v
  | outward depth => exact carried_writeOutward depth name v
  | nearest => exact .bind carried_currentFrame fun frame => carried_writeNearest frame name v

end Eval

/-! ## One step of each kind -/

open Eval (Carried)

variable {g : Relabeling} {s s' : Setting} {fuel room : Nat}

/-- With so much fuel, every task is carried to the relabeled task. -/
structure Carries (g : Relabeling) (s s' : Setting) (fuel : Nat) : Prop where
  expr : ∀ room e, Carried g g.value (Eval.expr s fuel room e) (Eval.expr s' fuel room (g.expr e))
  exprs : ∀ room es, Carried g (List.map g.value) (Eval.exprs s fuel room es)
    (Eval.exprs s' fuel room (g.exprs es))
  apply : ∀ room paren f vs, Carried g g.value (Eval.apply s fuel room paren f vs)
    (Eval.apply s' fuel room (g.token paren) (g.value f) (vs.map g.value))
  stmt : ∀ room st,
    Carried g g.flow (Eval.stmt s fuel room st) (Eval.stmt s' fuel room (g.stmt st))
  stmts : ∀ room sts,
    Carried g g.flow (Eval.stmts s fuel room sts) (Eval.stmts s' fuel room (g.stmts sts))
  turns : ∀ room condition body, Carried g g.flow (Eval.turns s fuel room condition body)
    (Eval.turns s' fuel room (g.expr condition) (g.stmt body))

namespace Carries

section Steps

variable (ih : Carries g s s' fuel)

include ih

theorem expr_step (hs : Setting.Relabels g s s') (e : Expr) :
    Carried g g.value (Eval.expr s (fuel + 1) room e)
      (Eval.expr s' (fuel + 1) room (g.expr e)) := by
  cases e with
  | literal l =>
    simp only [Relabeling.expr, Eval.expr]
    have h : Carried g g.value (pure (.ofLiteral l)) _ := .pure g.value _
    rw [value_ofLiteral] at h
    exact h
  | ref name serial =>
    simp only [Relabeling.expr, Eval.expr]
    exact Eval.carried_readVariable hs name serial
  | assign name value serial =>
    simp only [Relabeling.expr, Eval.expr]
    refine .bind (ih.expr room value) fun v => ?_
    exact .bind (Eval.carried_writeVariable hs name serial v) fun _ => .pure g.value v
  | binary lhs op rhs =>
    simp only [Relabeling.expr, Eval.expr]
    refine .bind (ih.expr room lhs) fun v => .bind (ih.expr room rhs) fun w => ?_
    rw [binary_value]
    exact .lift _
  | logical lhs op rhs =>
    simp only [Relabeling.expr, Eval.expr]
    refine .bind (ih.expr room lhs) fun v => ?_
    exact .ite (by rw [decides_value]) (.pure g.value v) (ih.expr room rhs)
  | unary op arg =>
    simp only [Relabeling.expr, Eval.expr]
    refine .bind (ih.expr room arg) fun v => ?_
    rw [unary_value]
    exact .lift _
  | grouping inner =>
    simp only [Relabeling.expr, Eval.expr]
    exact ih.expr room inner
  | call callee paren args =>
    simp only [Relabeling.expr, Eval.expr]
    refine .bind (ih.expr room callee) fun f => .bind (ih.exprs room args) fun vs => ?_
    exact ih.apply room paren f vs

theorem exprs_step (es : List Expr) :
    Carried g (List.map g.value) (Eval.exprs s (fuel + 1) room es)
      (Eval.exprs s' (fuel + 1) room (g.exprs es)) := by
  cases es with
  | nil =>
    simp only [Relabeling.exprs, Eval.exprs]
    exact .pure (List.map g.value) []
  | cons e rest =>
    simp only [Relabeling.exprs, Eval.exprs]
    refine .bind (ih.expr room e) fun v => .bind (ih.exprs room rest) fun vs => ?_
    exact .pure (List.map g.value) (v :: vs)

theorem apply_step (hs : Setting.Relabels g s s') (paren : Token) (f : Value) (vs : List Value) :
    Carried g g.value (Eval.apply s (fuel + 1) room paren f vs)
      (Eval.apply s' (fuel + 1) room (g.token paren) (g.value f) (vs.map g.value)) := by
  cases f with
  | closure identity d home =>
    unfold Eval.apply Relabeling.value Relabeling.declaration
    dsimp only
    rw [List.length_map, List.length_map]
    refine .ite Iff.rfl (.throw _ _) ?_
    cases room with
    | zero => exact .throw g.value (.crash ⟨paren, .stackOverflow⟩)
    | succ room =>
      refine .bind (Eval.carried_newFrame home) fun frame => ?_
      refine .bind (Eval.carried_defineAll frame d.params vs) fun _ => ?_
      refine .bind (.inside frame (ih.stmts room d.body)) fun flow => ?_
      rw [value_flow]
      exact .pure g.value flow.value
  | native n =>
    unfold Eval.apply Relabeling.value
    dsimp only
    rw [List.length_map]
    exact .ite Iff.rfl (.throw _ _) (Eval.carried_ask hs n vs)
  | _ =>
    unfold Eval.apply Relabeling.value
    exact .throw g.value (.crash ⟨paren, .notCallable⟩)

theorem stmt_step (st : Stmt) : Carried g g.flow (Eval.stmt s (fuel + 1) room st)
    (Eval.stmt s' (fuel + 1) room (g.stmt st)) := by
  cases st with
  | expr e =>
    simp only [Relabeling.stmt, Eval.stmt]
    exact .bind (ih.expr room e) fun _ => .pure g.flow .goOn
  | print keyword e =>
    simp only [Relabeling.stmt, Eval.stmt]
    refine .bind (ih.expr room e) fun v => ?_
    rw [text_value]
    exact .bind (Eval.carried_print _) fun _ => .pure g.flow .goOn
  | var name init =>
    cases init with
    | none =>
      simp only [Relabeling.stmt, Option.map_none, Eval.stmt, g.lexeme_token]
      refine .bind Eval.carried_currentFrame fun frame => ?_
      exact .bind (Eval.carried_define frame name.lexeme .nil) fun _ => .pure g.flow .goOn
    | some init =>
      simp only [Relabeling.stmt, Option.map_some, Eval.stmt, g.lexeme_token]
      refine .bind (ih.expr room init) fun v => .bind Eval.carried_currentFrame fun frame => ?_
      exact .bind (Eval.carried_define frame name.lexeme v) fun _ => .pure g.flow .goOn
  | block body =>
    simp only [Relabeling.stmt, Eval.stmt]
    refine .bind Eval.carried_currentFrame fun here => ?_
    refine .bind (Eval.carried_newFrame here) fun frame => ?_
    exact .inside frame (ih.stmts room body)
  | branch condition yes no =>
    cases no with
    | none =>
      simp only [Relabeling.stmt, Eval.stmt]
      refine .bind (ih.expr room condition) fun v => ?_
      exact .ite (by rw [isTruthy_value]) (ih.stmt room yes) (.pure g.flow .goOn)
    | some no =>
      simp only [Relabeling.stmt, Eval.stmt]
      refine .bind (ih.expr room condition) fun v => ?_
      exact .ite (by rw [isTruthy_value]) (ih.stmt room yes) (ih.stmt room no)
  | loop condition body =>
    simp only [Relabeling.stmt, Eval.stmt]
    exact ih.turns room condition body
  | function name params body =>
    simp only [Relabeling.stmt, Eval.stmt, g.lexeme_token]
    refine .bind Eval.carried_currentFrame fun frame => ?_
    refine .bind Eval.carried_newIdentity fun identity => ?_
    refine .bind (f := id) ?_ fun _ => .pure g.flow .goOn
    exact Eval.carried_define frame name.lexeme (.closure identity ⟨name, params, body⟩ frame)
  | ret keyword value =>
    cases value with
    | none =>
      simp only [Relabeling.stmt, Option.map_none, Eval.stmt]
      exact .pure g.flow (.returning .nil)
    | some value =>
      simp only [Relabeling.stmt, Option.map_some, Eval.stmt]
      exact .bind (ih.expr room value) fun v => .pure g.flow (.returning v)

theorem stmts_step (sts : List Stmt) : Carried g g.flow (Eval.stmts s (fuel + 1) room sts)
    (Eval.stmts s' (fuel + 1) room (g.stmts sts)) := by
  cases sts with
  | nil =>
    simp only [Relabeling.stmts, Eval.stmts]
    exact .pure g.flow .goOn
  | cons st rest =>
    simp only [Relabeling.stmts, Eval.stmts]
    refine .bind (ih.stmt room st) fun flow => ?_
    cases flow with
    | goOn => exact ih.stmts room rest
    | returning v => exact .pure g.flow (.returning v)

theorem turns_step (condition : Expr) (body : Stmt) :
    Carried g g.flow (Eval.turns s (fuel + 1) room condition body)
      (Eval.turns s' (fuel + 1) room (g.expr condition) (g.stmt body)) := by
  simp only [Eval.turns]
  refine .bind (ih.expr room condition) fun v => .ite (by rw [isTruthy_value]) ?_
    (.pure g.flow .goOn)
  refine .bind (ih.stmt room body) fun flow => ?_
  cases flow with
  | goOn => exact ih.turns room condition body
  | returning v => exact .pure g.flow (.returning v)

end Steps

theorem all (hs : Setting.Relabels g s s') (fuel : Nat) : Carries g s s' fuel := by
  induction fuel with
  | zero =>
    refine ⟨fun _ _ => ?_, fun _ _ => ?_, fun _ _ _ _ => ?_, fun _ _ => ?_, fun _ _ => ?_,
      fun _ _ _ => ?_⟩ <;>
      simp only [Eval.expr, Eval.exprs, Eval.apply, Eval.stmt, Eval.stmts, Eval.turns] <;>
      exact .throw _ .outOfFuel
  | succ fuel ih =>
    exact ⟨fun _ => ih.expr_step hs, fun _ => ih.exprs_step, fun _ => ih.apply_step hs,
      fun _ => ih.stmt_step, fun _ => ih.stmts_step, fun _ => ih.turns_step⟩

end Carries

/-- **A relabeled program does the same.** It ends in the same way, and leaves the same machine, but
for the labels in what they hold of the program. -/
theorem Machine.run_relabeled (hs : Setting.Relabels g s s') (fuel room : Nat)
    (program : List Stmt) (m : Machine) :
    (g.machine m).run s' fuel room (g.stmts program) =
      (g.ending (m.run s fuel room program).1, g.machine (m.run s fuel room program).2) := by
  induction program generalizing m with
  | nil => rfl
  | cons st rest ih =>
    simp only [Relabeling.stmts, Machine.run, (Carries.all hs fuel).stmt room st m]
    cases Eval.stmt s fuel room st m with
    | ok flow m' => exact ih m'
    | error stop m' => rfl

end Scriptlet

import Scriptlet.Proofs.Eval.Moment

/-!
# More room for calls

**A run with more room for nested calls goes as one with less, until that finds no room**
(`Machine.run_roomier`). Then the run with less room stops, and what it has printed is the beginning
of what the other prints, however that ends.

The bound is looked at in one place only, where the body of a function is entered. What is said of
two runs there is carried outward by everything that may follow (`Eval.Outlasts.bind`): either both
have gone the same way, or the first has stopped and nothing follows in it, while the second only
adds to what is printed (`Eval.Adds`). No part of a run turns a stop into a value, so nothing else
can come of it.
-/

namespace Scriptlet

/-- The second machine has printed all that the first has, and then maybe more. -/
def Machine.Further (m m' : Machine) : Prop := m.printed.toList <+: m'.printed.toList

/-- Whether a run has found no room for a call. -/
def Ending.overflows : Ending → Bool
  | .stopped (.crash c) => c.cause = .stackOverflow
  | _ => false

namespace Eval

variable {α β : Type} {act act' : Eval α} {f f' : α → Eval β}

/-! ## Adding to what is printed -/

/-- However a part of a run ends, it has only added to what was printed. -/
def Adds (act : Eval α) : Prop :=
  ∀ m, act.Ends m (fun _ m' => m.Further m') fun _ m' => m.Further m'

/-- What prints nothing. -/
theorem Adds.silent (h : ∀ m, act.Ends m (fun _ m' => m'.printed = m.printed)
    fun _ m' => m'.printed = m.printed) : act.Adds := by
  intro m
  have hfurther : ∀ m' : Machine, m'.printed = m.printed → m.Further m' := by
    intro m' heq
    show m.printed.toList <+: m'.printed.toList
    simp only [heq, List.prefix_rfl]
  exact Ends.mono (h m) (fun _ m' heq => hfurther m' heq) fun _ m' heq => hfurther m' heq

theorem Adds.pure (a : α) : (Pure.pure a : Eval α).Adds := .silent fun _ => rfl

theorem Adds.throw (stop : Stop) : (MonadExcept.throw stop : Eval α).Adds := .silent fun _ => rfl

theorem Adds.lift (result : Except Stop α) : (lift result).Adds := by
  cases result with
  | ok a => exact .pure a
  | error stop => exact .throw stop

theorem Adds.bind (h : act.Adds) (hf : ∀ a, (f a).Adds) : (act >>= f).Adds := by
  intro m
  refine Ends.bind (h m) fun a m' _ hm => ?_
  exact Ends.mono (hf a m') (fun _ _ hm' => hm.trans hm') fun _ _ hm' => hm.trans hm'

theorem adds_print (line : String) : (print line).Adds := by
  intro m
  show m.printed.toList <+: (m.printed.push line).toList
  rw [Array.toList_push]
  exact List.prefix_append ..

theorem adds_define (frame : Nat) (name : String) (v : Value) : (define frame name v).Adds :=
  .silent fun _ => rfl

theorem adds_newFrame (link : Nat) : (newFrame link).Adds := .silent fun _ => rfl

theorem adds_currentFrame : currentFrame.Adds := .silent fun _ => rfl

theorem adds_newIdentity : newIdentity.Adds := .silent fun _ => rfl

theorem adds_defineAll (frame : Nat) (ps : List Token) (vs : List Value) :
    (defineAll frame ps vs).Adds := .silent fun m => by
  unfold Ends
  rw [defineAll_eq]

theorem adds_ask (s : Setting) (n : Native) (args : List Value) : (ask s n args).Adds :=
  .silent fun m => by
    unfold Ends ask
    cases s.answer m.answers n args <;> rfl

theorem adds_readVariable (s : Setting) (name : Token) (serial : Nat) :
    (readVariable s name serial).Adds := by
  have hnearest : ∀ frame, (readNearest frame name).Adds := fun frame => .silent fun m => by
    unfold Ends readNearest
    cases m.heap.get? frame name.lexeme <;> rfl
  unfold readVariable
  split
  · exact hnearest _
  · next depth _ =>
    refine .silent fun m => ?_
    unfold Ends readOutward
    rcases m.heap.getAt depth m.here name.lexeme with (_ | _) | _ <;> rfl
  · exact .bind adds_currentFrame hnearest

theorem adds_writeVariable (s : Setting) (name : Token) (serial : Nat) (v : Value) :
    (writeVariable s name serial v).Adds := by
  have hnearest : ∀ frame, (writeNearest frame name v).Adds := fun frame => .silent fun m => by
    unfold Ends writeNearest
    cases m.heap.assign? frame name.lexeme v <;> rfl
  unfold writeVariable
  split
  · exact hnearest _
  · next depth _ =>
    refine .silent fun m => ?_
    unfold Ends writeOutward
    cases m.heap.assignAt? depth m.here name.lexeme v <;> rfl
  · exact .bind adds_currentFrame hnearest

/-! ## Outlasting an overflow -/

/-- The first part of a run has found no room for a call, and the second, begun on the same machine,
prints all that the first has printed. -/
def Overflows (act act' : Eval α) (m : Machine) : Prop :=
  ∃ paren m', act m = .error (.crash ⟨paren, .stackOverflow⟩) m' ∧
    act'.Ends m (fun _ m'' => m'.Further m'') fun _ m'' => m'.Further m''

/-- The second part of a run ends as the first does, unless that finds no room for a call. -/
structure Outlasts (act act' : Eval α) : Prop where
  same : ∀ m, act' m = act m ∨ Overflows act act' m
  adds : act'.Adds

theorem Outlasts.refl (h : act.Adds) : Outlasts act act := ⟨fun _ => .inl rfl, h⟩

theorem Outlasts.bind (h : Outlasts act act') (hf : ∀ a, Outlasts (f a) (f' a)) :
    Outlasts (act >>= f) (act' >>= f') := by
  refine ⟨fun m => ?_, h.adds.bind fun a => (hf a).adds⟩
  rcases h.same m with heq | ⟨paren, m', hoverflow, hprinted⟩
  · cases hact : act m with
    | ok a m₁ =>
      rcases (hf a).same m₁ with heq' | ⟨paren, m', hoverflow, hprinted⟩
      · exact .inl (by rw [bind_ok (heq.trans hact), bind_ok hact, heq'])
      · refine .inr ⟨paren, m', by rw [bind_ok hact, hoverflow], ?_⟩
        unfold Ends
        rw [bind_ok (heq.trans hact)]
        exact hprinted
    | error stop m₁ => exact .inl (by rw [bind_error (heq.trans hact), bind_error hact])
  · -- Nothing follows on the overflow, and what follows in the other run only adds.
    refine .inr ⟨paren, m', bind_error hoverflow, Ends.bind hprinted fun a m₁ _ hm => ?_⟩
    exact Ends.mono ((hf a).adds m₁) (fun _ _ hm' => hm.trans hm') fun _ _ hm' => hm.trans hm'

/-- What follows on the same part. -/
theorem Outlasts.next (h : act.Adds) (hf : ∀ a, Outlasts (f a) (f' a)) :
    Outlasts (act >>= f) (act >>= f') := .bind (.refl h) hf

theorem Outlasts.ite {p : Prop} [Decidable p] {act₁ act₁' act₂ act₂' : Eval α}
    (h₁ : Outlasts act₁ act₁') (h₂ : Outlasts act₂ act₂') :
    Outlasts (if p then act₁ else act₂) (if p then act₁' else act₂') := by
  by_cases h : p
  · rw [if_pos h, if_pos h]
    exact h₁
  · rw [if_neg h, if_neg h]
    exact h₂

theorem Outlasts.inside (frame : Nat) (h : Outlasts act act') :
    Outlasts (inside frame act) (inside frame act') := by
  refine ⟨fun m => ?_, fun m => Ends.inside (h.adds { m with here := frame })⟩
  rcases h.same { m with here := frame } with heq | ⟨paren, m', hoverflow, hprinted⟩
  · exact .inl (by unfold Eval.inside; rw [heq])
  · refine .inr ⟨paren, { m' with here := m.here }, ?_, Ends.inside hprinted⟩
    unfold Eval.inside
    rw [hoverflow]

/-- Where there is no room, there may be some. -/
theorem Outlasts.overflow (paren : Token) (h : act.Adds) :
    Outlasts (crash paren .stackOverflow) act := ⟨fun m => .inr ⟨paren, m, rfl, h m⟩, h⟩

end Eval

/-! ## One step of each kind -/

open Eval (Adds Outlasts)

variable {s : Setting} {fuel room room' : Nat}

/-- With more room for calls every task ends as with less, unless that overflows. -/
structure Roomier (s : Setting) (fuel room room' : Nat) : Prop where
  expr : ∀ e, Outlasts (Eval.expr s fuel room e) (Eval.expr s fuel room' e)
  exprs : ∀ es, Outlasts (Eval.exprs s fuel room es) (Eval.exprs s fuel room' es)
  apply : ∀ paren f vs,
    Outlasts (Eval.apply s fuel room paren f vs) (Eval.apply s fuel room' paren f vs)
  stmt : ∀ st, Outlasts (Eval.stmt s fuel room st) (Eval.stmt s fuel room' st)
  stmts : ∀ sts, Outlasts (Eval.stmts s fuel room sts) (Eval.stmts s fuel room' sts)
  turns : ∀ condition body,
    Outlasts (Eval.turns s fuel room condition body) (Eval.turns s fuel room' condition body)

namespace Roomier

section Steps

variable (ih : Roomier s fuel room room')

include ih

theorem expr_step (e : Expr) :
    Outlasts (Eval.expr s (fuel + 1) room e) (Eval.expr s (fuel + 1) room' e) := by
  cases e with
  | literal value =>
    simp only [Eval.expr]
    exact .refl (.pure _)
  | ref name serial =>
    simp only [Eval.expr]
    exact .refl (Eval.adds_readVariable s name serial)
  | assign name value serial =>
    simp only [Eval.expr]
    refine .bind (ih.expr value) fun v => ?_
    exact .next (Eval.adds_writeVariable s name serial v) fun _ => .refl (.pure _)
  | binary lhs op rhs =>
    simp only [Eval.expr]
    exact .bind (ih.expr lhs) fun _ => .bind (ih.expr rhs) fun _ => .refl (.lift _)
  | logical lhs op rhs =>
    simp only [Eval.expr]
    exact .bind (ih.expr lhs) fun _ => .ite (.refl (.pure _)) (ih.expr rhs)
  | unary op arg =>
    simp only [Eval.expr]
    exact .bind (ih.expr arg) fun _ => .refl (.lift _)
  | grouping inner =>
    simp only [Eval.expr]
    exact ih.expr inner
  | call callee paren args =>
    simp only [Eval.expr]
    exact .bind (ih.expr callee) fun f => .bind (ih.exprs args) fun vs => ih.apply paren f vs

theorem exprs_step (es : List Expr) :
    Outlasts (Eval.exprs s (fuel + 1) room es) (Eval.exprs s (fuel + 1) room' es) := by
  cases es with
  | nil =>
    simp only [Eval.exprs]
    exact .refl (.pure _)
  | cons e rest =>
    simp only [Eval.exprs]
    exact .bind (ih.expr e) fun _ => .bind (ih.exprs rest) fun _ => .refl (.pure _)

theorem stmt_step (st : Stmt) :
    Outlasts (Eval.stmt s (fuel + 1) room st) (Eval.stmt s (fuel + 1) room' st) := by
  cases st with
  | expr e =>
    simp only [Eval.stmt]
    exact .bind (ih.expr e) fun _ => .refl (.pure _)
  | print keyword e =>
    simp only [Eval.stmt]
    exact .bind (ih.expr e) fun v => .next (Eval.adds_print v.text) fun _ => .refl (.pure _)
  | var name init =>
    cases init with
    | none =>
      simp only [Eval.stmt]
      refine .next Eval.adds_currentFrame fun frame => ?_
      exact .next (Eval.adds_define frame name.lexeme .nil) fun _ => .refl (.pure _)
    | some init =>
      simp only [Eval.stmt]
      refine .bind (ih.expr init) fun v => .next Eval.adds_currentFrame fun frame => ?_
      exact .next (Eval.adds_define frame name.lexeme v) fun _ => .refl (.pure _)
  | block body =>
    simp only [Eval.stmt]
    refine .next Eval.adds_currentFrame fun here => .next (Eval.adds_newFrame here) fun frame => ?_
    exact .inside frame (ih.stmts body)
  | branch condition yes no =>
    cases no with
    | none =>
      simp only [Eval.stmt]
      exact .bind (ih.expr condition) fun _ => .ite (ih.stmt yes) (.refl (.pure _))
    | some no =>
      simp only [Eval.stmt]
      exact .bind (ih.expr condition) fun _ => .ite (ih.stmt yes) (ih.stmt no)
  | loop condition body =>
    simp only [Eval.stmt]
    exact ih.turns condition body
  | function name params body =>
    simp only [Eval.stmt]
    refine .next Eval.adds_currentFrame fun frame => .next Eval.adds_newIdentity fun _ => ?_
    exact .next (Eval.adds_define frame name.lexeme _) fun _ => .refl (.pure _)
  | ret keyword value =>
    cases value with
    | none =>
      simp only [Eval.stmt]
      exact .refl (.pure _)
    | some value =>
      simp only [Eval.stmt]
      exact .bind (ih.expr value) fun _ => .refl (.pure _)

theorem stmts_step (sts : List Stmt) :
    Outlasts (Eval.stmts s (fuel + 1) room sts) (Eval.stmts s (fuel + 1) room' sts) := by
  cases sts with
  | nil =>
    simp only [Eval.stmts]
    exact .refl (.pure _)
  | cons st rest =>
    simp only [Eval.stmts]
    refine .bind (ih.stmt st) fun flow => ?_
    cases flow with
    | goOn => exact ih.stmts rest
    | returning v => exact .refl (.pure _)

theorem turns_step (condition : Expr) (body : Stmt) :
    Outlasts (Eval.turns s (fuel + 1) room condition body)
      (Eval.turns s (fuel + 1) room' condition body) := by
  simp only [Eval.turns]
  refine .bind (ih.expr condition) fun _ => .ite ?_ (.refl (.pure _))
  refine .bind (ih.stmt body) fun flow => ?_
  cases flow with
  | goOn => exact ih.turns condition body
  | returning v => exact .refl (.pure _)

end Steps

/-- A call enters its body with less room, so it needs to be known of all amounts. -/
theorem apply_step (ih : ∀ {room room'}, room ≤ room' → Roomier s fuel room room')
    (h : room ≤ room') (paren : Token) (f : Value) (vs : List Value) :
    Outlasts (Eval.apply s (fuel + 1) room paren f vs)
      (Eval.apply s (fuel + 1) room' paren f vs) := by
  cases f with
  | closure identity d home =>
    have hbody : ∀ {room room'}, room ≤ room' → Outlasts
        (do
          let frame ← Eval.newFrame home
          Eval.defineAll frame d.params vs
          let flow ← Eval.inside frame (Eval.stmts s fuel room d.body)
          return flow.value)
        (do
          let frame ← Eval.newFrame home
          Eval.defineAll frame d.params vs
          let flow ← Eval.inside frame (Eval.stmts s fuel room' d.body)
          return flow.value) := by
      intro room room' h
      refine .next (Eval.adds_newFrame home) fun frame => ?_
      refine .next (Eval.adds_defineAll frame d.params vs) fun _ => ?_
      exact .bind (.inside frame ((ih h).stmts d.body)) fun _ => .refl (.pure _)
    unfold Eval.apply
    refine .ite (.refl (.throw _)) ?_
    match room, room', h with
    | 0, 0, _ => exact .refl (.throw _)
    | 0, room' + 1, _ => exact .overflow paren (hbody (Nat.le_refl room')).adds
    | room + 1, room' + 1, h => exact hbody (Nat.le_of_succ_le_succ h)
  | native n =>
    unfold Eval.apply
    exact .ite (.refl (.throw _)) (.refl (Eval.adds_ask s n vs))
  | nil | bool | number | string =>
    unfold Eval.apply
    exact .refl (.throw _)

theorem all (s : Setting) (fuel : Nat) : ∀ {room room' : Nat}, room ≤ room' →
    Roomier s fuel room room' := by
  induction fuel with
  | zero =>
    intro room room' _
    refine ⟨fun _ => ?_, fun _ => ?_, fun _ _ _ => ?_, fun _ => ?_, fun _ => ?_,
      fun _ _ => ?_⟩ <;>
      simp only [Eval.expr, Eval.exprs, Eval.apply, Eval.stmt, Eval.stmts, Eval.turns] <;>
      exact .refl (.throw _)
  | succ fuel ih =>
    intro room room' h
    exact ⟨(ih h).expr_step, (ih h).exprs_step, apply_step ih h, (ih h).stmt_step,
      (ih h).stmts_step, (ih h).turns_step⟩

end Roomier

/-! ## Programs -/

namespace Machine

/-- A program only adds to what is printed. -/
theorem further_run (s : Setting) (fuel room : Nat) (program : List Stmt) (m : Machine) :
    m.Further (m.run s fuel room program).2 := by
  induction program generalizing m with
  | nil => exact List.prefix_rfl
  | cons st rest ih =>
    have hst := ((Roomier.all s fuel (Nat.le_refl room)).stmt st).adds m
    unfold run
    cases hr : Eval.stmt s fuel room st m with
    | ok flow m₁ => exact (Eval.Ends.ok hst hr).trans (ih m₁)
    | error stop m₁ => exact Eval.Ends.error hst hr

/-- **More room for calls changes nothing until there is none.** A run with more room is that with
less, unless that overflows; then what it has printed is what the other prints first. -/
theorem run_roomier (s : Setting) (fuel : Nat) (h : room ≤ room') (program : List Stmt)
    (m : Machine) :
    ((m.run s fuel room program).1.overflows = false →
      m.run s fuel room' program = m.run s fuel room program) ∧
    ((m.run s fuel room program).1.overflows = true →
      (m.run s fuel room program).2.Further (m.run s fuel room' program).2) := by
  induction program generalizing m with
  | nil => exact ⟨fun _ => rfl, nofun⟩
  | cons st rest ih =>
    unfold run
    rcases ((Roomier.all s fuel h).stmt st).same m with heq | ⟨paren, m', hoverflow, hprinted⟩
    · rw [heq]
      cases hr : Eval.stmt s fuel room st m with
      | ok flow m₁ => exact ih m₁
      | error stop m₁ => exact ⟨fun _ => rfl, fun _ => List.prefix_rfl⟩
    · rw [hoverflow]
      refine ⟨nofun, fun _ => ?_⟩
      cases hr : Eval.stmt s fuel room' st m with
      | ok flow m₁ => exact (Eval.Ends.ok hprinted hr).trans (further_run s fuel room' rest m₁)
      | error stop m₁ => exact Eval.Ends.error hprinted hr

end Machine

end Scriptlet

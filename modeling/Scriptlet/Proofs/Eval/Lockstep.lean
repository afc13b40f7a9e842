import Scriptlet.Proofs.Eval.Alike
import Scriptlet.Proofs.Eval.Moment
import Scriptlet.Session

/-!
# Runs in lockstep

Programs that are alike, run on machines that are alike, go through the same steps and leave
machines that are alike (`Lockstep.all`). A reference need not find its variable by the name alone:
its depth leads to the same frame in both runs, and the mark of that frame is the one under which
its name was mapped.

One thing is asked of the first run (`Moment.Sure`). A reference that reads so many links out finds
its variable there. If it did not, the message would tell its name, which may be another one in the
second run.

**Abreast.** Parts of runs stay abreast (`Eval.Abreast`) if they end alike, with results that are
related or with stops that are alike, and the machines are alike then. Parts are put together by
`Abreast.bind`.
-/

namespace Scriptlet

/-! ## Abreast -/

/-- From one machine a run goes on to another, beside which there is one that is alike. -/
structure Onward (K : Likeness) (marks : List (List Bool)) (m : Machine)
    (marks' : List (List Bool)) (m₁ m₁' : Machine) : Prop where
  marks : marks <+: marks'
  here : m₁.here = m.here
  alike : m₁.Alike K marks' m₁'

variable {K : Likeness} {marks marks' marks'' : List (List Bool)} {ms : List Bool}
  {m m' m₁ m₁' m₂ m₂' : Machine} {v v' : Value} {t t' : Token} {s s' : Setting} {fuel room : Nat}

theorem Onward.refl (h : m.Alike K marks m') : Onward K marks m marks m m' :=
  ⟨List.prefix_rfl, rfl, h⟩

theorem Onward.trans (h : Onward K marks m marks' m₁ m₁')
    (h' : Onward K marks' m₁ marks'' m₂ m₂') : Onward K marks m marks'' m₂ m₂' :=
  ⟨h.marks.trans h'.marks, h'.here.trans h.here, h'.alike⟩

namespace Eval

variable {α α' β β' : Type} {R : List (List Bool) → α → α' → Prop}
  {S : List (List Bool) → β → β' → Prop}

/-- Two parts of runs have ended alike. -/
inductive Ended (K : Likeness) (marks : List (List Bool)) (m : Machine)
    (R : List (List Bool) → α → α' → Prop) :
    EStateM.Result Stop Machine α → EStateM.Result Stop Machine α' → Prop
  | ok {a : α} {a' : α'} {marks' : List (List Bool)} {m₁ m₁' : Machine} :
      Onward K marks m marks' m₁ m₁' → R marks' a a' → Ended K marks m R (.ok a m₁) (.ok a' m₁')
  | error {stop stop' : Stop} {marks' : List (List Bool)} {m₁ m₁' : Machine} :
      Onward K marks m marks' m₁ m₁' → stop.Alike K stop' →
      Ended K marks m R (.error stop m₁) (.error stop' m₁')

/-- Two parts of runs end alike, and their results are related. -/
def Abreast (K : Likeness) (marks : List (List Bool)) (m m' : Machine) (act : Eval α)
    (act' : Eval α') (R : List (List Bool) → α → α' → Prop) : Prop :=
  Ended K marks m R (act m) (act' m')

variable {act : Eval α} {act' : Eval α'} {f : α → Eval β} {f' : α' → Eval β'}

theorem Abreast.pure {a : α} {a' : α'} (h : m.Alike K marks m') (ha : R marks a a') :
    Abreast K marks m m' (Pure.pure a) (Pure.pure a') R := .ok (.refl h) ha

theorem Abreast.throw {stop stop' : Stop} (h : m.Alike K marks m') (hs : stop.Alike K stop') :
    Abreast K marks m m' (MonadExcept.throw stop) (MonadExcept.throw stop') R :=
  .error (.refl h) hs

theorem Ended.onward {m₀ : Machine} {x : EStateM.Result Stop Machine α}
    {x' : EStateM.Result Stop Machine α'} (ho : Onward K marks m₀ marks' m m')
    (h : Ended K marks' m R x x') : Ended K marks m₀ R x x' := by
  cases h with
  | ok ho' hR => exact .ok (ho.trans ho') hR
  | error ho' hs => exact .error (ho.trans ho') hs

/-- Parts one behind the other. -/
theorem Abreast.bind (h : Abreast K marks m m' act act' R)
    (hf : ∀ marks' a a' m₁ m₁', act m = .ok a m₁ → Onward K marks m marks' m₁ m₁' →
      R marks' a a' → Abreast K marks' m₁ m₁' (f a) (f' a') S) :
    Abreast K marks m m' (act >>= f) (act' >>= f') S := by
  show Ended K marks m S (EStateM.bind act f m) (EStateM.bind act' f' m')
  unfold Abreast at h
  unfold EStateM.bind
  generalize hr : act m = r at h
  generalize act' m' = r' at h
  cases h with
  | ok ho hR => exact .onward ho (hf _ _ _ _ _ hr ho hR)
  | error ho hs => exact .error ho hs

/-- A step that does not stop. -/
theorem Abreast.step {a : α} {a' : α'} (hr : act m = .ok a m₁) (hr' : act' m' = .ok a' m₁')
    (ho : Onward K marks m marks' m₁ m₁') (hf : Abreast K marks' m₁ m₁' (f a) (f' a') S) :
    Abreast K marks m m' (act >>= f) (act' >>= f') S := by
  show Ended K marks m S (EStateM.bind act f m) (EStateM.bind act' f' m')
  unfold EStateM.bind
  rw [hr, hr']
  exact .onward ho hf

/-- Going into frames of equal numbers, and back. -/
theorem Abreast.inside {frame : Nat} (hm : m.Alike K marks m')
    (h : Abreast K marks { m with here := frame } { m' with here := frame } act act' R) :
    Abreast K marks m m' (inside frame act) (inside frame act') R := by
  unfold Abreast at h ⊢
  unfold Eval.inside
  dsimp only
  generalize act { m with here := frame } = r at h
  generalize act' { m' with here := frame } = r' at h
  have hback : ∀ {marks' m₁ m₁'}, Onward K marks { m with here := frame } marks' m₁ m₁' →
      Onward K marks m marks' { m₁ with here := m.here } { m₁' with here := m'.here } := by
    intro marks' m₁ m₁' ho
    obtain ⟨hheap, -, hprinted, hclosures, hanswers⟩ := ho.alike
    exact ⟨ho.marks, rfl, hheap, hm.here, hprinted, hclosures, hanswers⟩
  cases h with
  | ok ho hR => exact .ok (hback ho) hR
  | error ho hs => exact .error (hback ho) hs

end Eval

/-! ## Operators -/

namespace Operator

/-- Results of operators are alike. -/
inductive Alike (K : Likeness) (marks : List (List Bool)) :
    Except Stop Value → Except Stop Value → Prop
  | ok {v v' : Value} : Value.Alike K marks v v' → Alike K marks (.ok v) (.ok v')
  | error {stop stop' : Stop} : stop.Alike K stop' → Alike K marks (.error stop) (.error stop')

variable {op op' : Token} {a a' b b' : Value}

theorem unary_alike (hop : K.token false op op') (ha : Value.Alike K marks a a') :
    Alike K marks (unary op a) (unary op' a') := by
  unfold unary
  rw [K.kind hop, ha.isTruthy]
  split
  · exact .ok .bool
  · cases ha with
    | number => exact .ok .number
    | _ => exact .error (.crash hop)

theorem plus_alike (hop : K.token false op op') (ha : Value.Alike K marks a a')
    (hb : Value.Alike K marks b b') : Alike K marks (plus op a b) (plus op' a' b') := by
  unfold plus
  cases ha <;> cases hb <;> first
    | exact .ok .number
    | exact .ok .string
    | exact .error (.crash hop)

theorem arithmetic_alike (hop : K.token false op op') (x y : Float) :
    Alike K marks (arithmetic op x y) (arithmetic op' x y) := by
  unfold arithmetic
  rw [K.kind hop]
  split <;> first
    | exact .ok .number
    | exact .ok .bool
    | exact .error .fault

theorem binary_alike (hop : K.token false op op') (ha : Value.Alike K marks a a')
    (hb : Value.Alike K marks b b') : Alike K marks (binary op a b) (binary op' a' b') := by
  unfold binary
  rw [K.kind hop, ha.equals hb]
  split
  · exact .ok .bool
  · exact .ok .bool
  · exact plus_alike hop ha hb
  · cases ha <;> cases hb <;> first
      | exact arithmetic_alike hop _ _
      | exact .error (.crash hop)

theorem decides_alike (hop : K.token false op op') (ha : Value.Alike K marks a a') :
    decides op' a' = decides op a := by
  unfold decides
  rw [K.kind hop, ha.isTruthy]

end Operator

theorem Eval.Abreast.lift {x x' : Except Stop Value} (h : m.Alike K marks m')
    (hx : Operator.Alike K marks x x') :
    Abreast K marks m m' (Eval.lift x) (Eval.lift x') (Value.Alike K) := by
  cases hx with
  | ok hv => exact .pure h hv
  | error hs => exact .throw h hs

/-! ## What is asked of the first run -/

/-- References follow their depths, and those that read find what their depths lead to. -/
structure Moment.Sure (K : Likeness) (s s' : Setting) (a : Moment) : Prop where
  route : ∀ name serial, a.task = .expr (.ref name serial) ∨
    (∃ value, a.task = .expr (.assign name value serial)) →
    s.route serial = .ofDepth (K.depth serial) ∧ s'.route serial = .ofDepth (K.depth serial)
  read : ∀ name serial depth, a.task = .expr (.ref name serial) → K.depth serial = some depth →
    ∃ v, a.machine.heap.getAt depth a.machine.here name.lexeme = .ok v

/-- Two settings give the same answers, none of them a closure, whatever the arguments are. -/
structure Setting.Agree (s s' : Setting) : Prop where
  answer : ∀ answers n (args args' : List Value), args'.length = args.length →
    s'.answer answers n args' = s.answer answers n args
  plain : ∀ answers n args v, s.answer answers n args = some v →
    ∀ K marks, Value.Alike K marks v v

/-- Machines that are alike, in a place with these marks, at a moment of the first run. -/
structure Beside (K : Likeness) (s s' : Setting) (marks : List (List Bool)) (ms : List Bool)
    (a : Moment) (m' : Machine) : Prop where
  alike : a.machine.Alike K marks m'
  here : marks[a.machine.here]? = some ms
  sure : ∀ b, Reaches s a b → b.Sure K s s'

/-- At a moment that is begun in the same frame. -/
theorem Beside.next {a b : Moment} (h : Beside K s s' marks ms a m') (hb : Starts s a b)
    (ho : Onward K marks a.machine marks' b.machine m₁') : Beside K s s' marks' ms b m₁' := by
  refine ⟨ho.alike, ?_, fun c hc => h.sure c (.head hb hc)⟩
  rw [ho.here]
  exact get_of_initial ho.marks h.here

/-- At a moment that is begun on the same machine. -/
theorem Beside.first {task task' : Task} (h : Beside K s s' marks ms ⟨fuel + 1, room, task, m⟩ m')
    (hb : Starts s ⟨fuel + 1, room, task, m⟩ ⟨fuel, room, task', m⟩) :
    Beside K s s' marks ms ⟨fuel, room, task', m⟩ m' := h.next hb (.refl h.alike)

/-! ## Steps -/

/-- Flows are alike. -/
inductive Flow.Alike (K : Likeness) (marks : List (List Bool)) : Flow → Flow → Prop
  | goOn : Flow.Alike K marks .goOn .goOn
  | returning {v v' : Value} : Value.Alike K marks v v' →
      Flow.Alike K marks (.returning v) (.returning v')

theorem Flow.Alike.value {flow flow' : Flow} (h : Flow.Alike K marks flow flow') :
    Value.Alike K marks flow.value flow'.value := by
  cases h with
  | goOn => exact .nil
  | returning hv => exact hv

namespace Eval

theorem onward_heap {h h' : Heap Value} (hm : m.Alike K marks m') (hmarks : marks <+: marks')
    (hh : h.Alike K marks' h') :
    Onward K marks m marks' { m with heap := h } { m' with heap := h' } :=
  ⟨hmarks, rfl, hh, hm.here, hm.printed, hm.closures, hm.answers⟩

/-- A name is bound alike in frames of equal numbers. -/
theorem onward_define (hm : m.Alike K marks m') {e : Nat} (he : marks[e]? = some ms)
    (hv : Value.Alike K marks v v') {n n' : String} (hn : n' = K.frameName ms n) :
    Onward K marks m marks { m with heap := m.heap.define e n v }
      { m' with heap := m'.heap.define e n' v' } := by
  subst hn
  exact onward_heap hm List.prefix_rfl (hm.heap.define he hv n)

/-- New frames with equal links. -/
theorem onward_add (hm : m.Alike K marks m') {link : Nat} (hlink : marks[link]? = some ms)
    (b : Bool) : Onward K marks m (marks ++ [b :: ms])
      { m with heap := m.heap.add (some link) } { m' with heap := m'.heap.add (some link) } :=
  onward_heap hm (List.prefix_append ..) (hm.heap.add hlink b)

/-- A variable or a function is bound in the frame that the machines are in. -/
theorem abreast_declare {n n' : Token} (hm : m.Alike K marks m')
    (hhere : marks[m.here]? = some ms) (hn : K.Declares ms n n') (hv : Value.Alike K marks v v') :
    Abreast K marks m m' (do define (← currentFrame) n.lexeme v; return Flow.goOn)
      (do define (← currentFrame) n'.lexeme v'; return Flow.goOn) (Flow.Alike K) := by
  obtain ⟨heap', here', printed', closures', answers'⟩ := m'
  obtain rfl : here' = m.here := hm.here
  have ho := onward_define hm hhere hv hn.lexeme
  exact .step rfl rfl (.refl hm) (.step rfl rfl ho (.pure ho.alike .goOn))

theorem newFrame_eq (hm : m.Alike K marks m') (link : Nat) :
    newFrame link m' = .ok m.heap.size { m' with heap := m'.heap.add (some link) } := by
  rw [← hm.heap.size_eq]
  rfl

theorem alike_defineAll {h h' : Heap Value} {e : Nat} {ps ps' : List Token} {vs vs' : List Value}
    (hh : h.Alike K marks h') (he : marks[e]? = some ms)
    (hps : List.Forall₂ (K.Declares ms) ps ps') (hvs : List.Forall₂ (Value.Alike K marks) vs vs') :
    (h.defineAll e ps vs).Alike K marks (h'.defineAll e ps' vs') := by
  induction hps generalizing h h' vs vs' with
  | nil => exact hh
  | @cons p p' ps ps' hp _ ih =>
    cases hvs with
    | nil => exact hh
    | @cons v v' vs vs' hv hvs =>
      have hdefined := hh.define he hv p.lexeme
      have hlexeme : p'.lexeme = K.frameName ms p.lexeme := hp.lexeme
      rw [← hlexeme] at hdefined
      exact ih hdefined hvs

/-- Printing the same. -/
theorem onward_print (hm : m.Alike K marks m') (line : String) :
    Onward K marks m marks { m with printed := m.printed.push line }
      { m' with printed := m'.printed.push line } :=
  ⟨List.prefix_rfl, rfl, hm.heap, hm.here, congrArg (·.push line) hm.printed, hm.closures,
    hm.answers⟩

theorem abreast_ask (hs : s.Agree s') (hm : m.Alike K marks m') (n : Native)
    {args args' : List Value} (hargs : args'.length = args.length) :
    Abreast K marks m m' (ask s n args) (ask s' n args') (Value.Alike K) := by
  unfold Abreast ask
  rw [hm.answers, hs.answer _ n args args' hargs]
  cases ha : s.answer m.answers n args with
  | none => exact .error (.refl hm) .fault
  | some v =>
    refine .ok ⟨List.prefix_rfl, rfl, hm.heap, hm.here, hm.printed, hm.closures, ?_⟩
      (hs.plain _ _ _ _ ha K marks)
    rfl

/-! ## Variables -/

section Variables

variable {n n' : Token} {serial : Nat}

theorem abreast_readVariable (hm : m.Alike K marks m') (hhere : marks[m.here]? = some ms)
    (hn : K.Named (Likeness.mark ms (K.depth serial)) n n')
    (hroute : s.route serial = .ofDepth (K.depth serial))
    (hroute' : s'.route serial = .ofDepth (K.depth serial))
    (hread : ∀ depth, K.depth serial = some depth →
      ∃ v, m.heap.getAt depth m.here n.lexeme = .ok v) :
    Abreast K marks m m' (readVariable s n serial) (readVariable s' n' serial)
      (Value.Alike K) := by
  unfold readVariable
  rw [hroute, hroute']
  cases hd : K.depth serial with
  | none =>
    rw [hd] at hn
    have hlexeme : n'.lexeme = n.lexeme := K.lexeme_false hn.token
    have hrel := hm.heap.local? hm.heap.root n.lexeme
    rw [Likeness.frameName, List.head?_nil, Option.getD_none, K.name_false] at hrel
    show Ended K marks m _ (readNearest Heap.root n m) (readNearest Heap.root n' m')
    unfold readNearest
    rw [Heap.get?_of_outermost hm.heap.outermost,
      Heap.get?_of_outermost ((hm.heap.links _).trans hm.heap.outermost), hlexeme]
    generalize m.heap.local? Heap.root n.lexeme = o at hrel
    generalize m'.heap.local? Heap.root n.lexeme = o' at hrel
    cases hrel with
    | some hv => exact .ok (.refl hm) hv
    | none => exact .error (.refl hm) (.crash hn.token)
  | some depth =>
    rw [hd] at hn
    obtain ⟨v, hv⟩ := hread depth hd
    show Ended K marks m _ (readOutward depth n m) (readOutward depth n' m')
    unfold readOutward
    rw [hv]
    unfold Heap.getAt at hv ⊢
    rw [hm.here, hm.heap.outward?_eq]
    cases hout : m.heap.outward? depth m.here with
    | none =>
      rw [hout] at hv
      cases hv
    | some frame =>
      obtain ⟨ms', hms', hmark⟩ := hm.heap.outward hhere hout
      have hrel := hm.heap.local? hms' n.lexeme
      rw [Likeness.frameName, hmark, ← hn.lexeme] at hrel
      rw [hout] at hv
      dsimp only at hv ⊢
      generalize m.heap.local? frame n.lexeme = o at hrel hv
      generalize m'.heap.local? frame n'.lexeme = o' at hrel
      cases hrel with
      | none => cases hv
      | some hrel =>
        cases hv
        exact .ok (.refl hm) hrel

theorem abreast_writeVariable (hm : m.Alike K marks m') (hhere : marks[m.here]? = some ms)
    (hn : K.Named (Likeness.mark ms (K.depth serial)) n n')
    (hroute : s.route serial = .ofDepth (K.depth serial))
    (hroute' : s'.route serial = .ofDepth (K.depth serial)) (hv : Value.Alike K marks v v') :
    Abreast K marks m m' (writeVariable s n serial v) (writeVariable s' n' serial v')
      fun _ _ _ => True := by
  unfold writeVariable
  rw [hroute, hroute']
  cases hd : K.depth serial with
  | none =>
    rw [hd] at hn
    have hlexeme : n'.lexeme = n.lexeme := K.lexeme_false hn.token
    have hname : n.lexeme = K.frameName [] n.lexeme := (K.name_false _).symm
    have hholds := hm.heap.holds hm.heap.root n.lexeme
    rw [← hname] at hholds
    show Ended K marks m _ (writeNearest Heap.root n v m) (writeNearest Heap.root n' v' m')
    unfold writeNearest
    rw [Heap.assign?_of_outermost hm.heap.outermost,
      Heap.assign?_of_outermost ((hm.heap.links _).trans hm.heap.outermost), hlexeme, hholds]
    by_cases hh : m.heap.holds Heap.root n.lexeme = true
    · rw [if_pos hh, if_pos hh]
      exact .ok (onward_define hm hm.heap.root hv hname) trivial
    · rw [if_neg hh, if_neg hh]
      exact .error (.refl hm) (.crash hn.token)
  | some depth =>
    rw [hd] at hn
    show Ended K marks m _ (writeOutward depth n v m) (writeOutward depth n' v' m')
    unfold writeOutward Heap.assignAt?
    rw [hm.here, hm.heap.outward?_eq]
    cases hout : m.heap.outward? depth m.here with
    | none => exact .error (.refl hm) .fault
    | some frame =>
      obtain ⟨ms', hms', hmark⟩ := hm.heap.outward hhere hout
      have hlexeme : n'.lexeme = K.frameName ms' n.lexeme := by
        rw [Likeness.frameName, hmark, hn.lexeme]
      have ho := onward_define hm hms' hv hlexeme
      rw [hm.here] at ho
      exact .ok ho trivial

end Variables

end Eval

/-! ## One step of each kind -/

open Eval (Abreast)

/-- With so much fuel, all tasks that are alike run in lockstep. -/
structure Lockstep (K : Likeness) (s s' : Setting) (fuel : Nat) : Prop where
  expr : ∀ {room marks ms m m' e e'}, Beside K s s' marks ms ⟨fuel, room, .expr e, m⟩ m' →
    Expr.Alike K ms e e' →
    Abreast K marks m m' (Eval.expr s fuel room e) (Eval.expr s' fuel room e') (Value.Alike K)
  exprs : ∀ {room marks ms m m' es es'}, Beside K s s' marks ms ⟨fuel, room, .exprs es, m⟩ m' →
    Exprs.Alike K ms es es' →
    Abreast K marks m m' (Eval.exprs s fuel room es) (Eval.exprs s' fuel room es')
      fun marks => List.Forall₂ (Value.Alike K marks)
  apply : ∀ {room marks ms m m' paren paren' f f' vs vs'},
    Beside K s s' marks ms ⟨fuel, room, .apply paren f vs, m⟩ m' → K.token false paren paren' →
    Value.Alike K marks f f' → List.Forall₂ (Value.Alike K marks) vs vs' →
    Abreast K marks m m' (Eval.apply s fuel room paren f vs) (Eval.apply s' fuel room paren' f' vs')
      (Value.Alike K)
  stmt : ∀ {room marks ms m m' st st'}, Beside K s s' marks ms ⟨fuel, room, .stmt st, m⟩ m' →
    Stmt.Alike K ms st st' →
    Abreast K marks m m' (Eval.stmt s fuel room st) (Eval.stmt s' fuel room st') (Flow.Alike K)
  stmts : ∀ {room marks ms m m' sts sts'}, Beside K s s' marks ms ⟨fuel, room, .stmts sts, m⟩ m' →
    Stmts.Alike K ms sts sts' →
    Abreast K marks m m' (Eval.stmts s fuel room sts) (Eval.stmts s' fuel room sts')
      (Flow.Alike K)
  turns : ∀ {room marks ms m m' c c' body body'},
    Beside K s s' marks ms ⟨fuel, room, .turns c body, m⟩ m' → Expr.Alike K ms c c' →
    Stmt.Alike K ms body body' →
    Abreast K marks m m' (Eval.turns s fuel room c body) (Eval.turns s' fuel room c' body')
      (Flow.Alike K)

namespace Lockstep

section Steps

variable (ih : Lockstep K s s' fuel)

include ih

theorem expr_step {e e' : Expr} (h : Beside K s s' marks ms ⟨fuel + 1, room, .expr e, m⟩ m')
    (he : Expr.Alike K ms e e') :
    Abreast K marks m m' (Eval.expr s (fuel + 1) room e) (Eval.expr s' (fuel + 1) room e')
      (Value.Alike K) := by
  cases he with
  | @literal v =>
    simp only [Eval.expr]
    exact .pure h.alike (Value.alike_ofLiteral v)
  | @ref n n' serial hn =>
    simp only [Eval.expr]
    have hsure := h.sure _ .refl
    obtain ⟨hroute, hroute'⟩ := hsure.route n serial (.inl rfl)
    exact Eval.abreast_readVariable h.alike h.here hn hroute hroute' fun depth =>
      hsure.read n serial depth rfl
  | @assign n n' value value' serial hn hvalue =>
    simp only [Eval.expr]
    obtain ⟨hroute, hroute'⟩ := (h.sure _ .refl).route n serial (.inr ⟨value, rfl⟩)
    refine .bind (ih.expr (h.first .assign) hvalue) fun marks₁ v v' m₁ m₁' _ ho hv => ?_
    have hhere : marks₁[m₁.here]? = some ms := ho.here ▸ get_of_initial ho.marks h.here
    refine .bind (Eval.abreast_writeVariable ho.alike hhere hn hroute hroute' hv) ?_
    intro marks₂ _ _ m₂ m₂' _ ho' _
    exact .pure ho'.alike (hv.mono ho'.marks)
  | binary hlhs hop hrhs =>
    simp only [Eval.expr]
    refine .bind (ih.expr (h.first .binaryLeft) hlhs) fun marks₁ a a' m₁ m₁' hr ho ha => ?_
    refine .bind (ih.expr (h.next (.binaryRight hr) ho) hrhs) fun marks₂ b b' m₂ m₂' _ ho' hb => ?_
    exact .lift ho'.alike (Operator.binary_alike hop (ha.mono ho'.marks) hb)
  | @logical lhs lhs' rhs rhs' op op' hlhs hop hrhs =>
    simp only [Eval.expr]
    refine .bind (ih.expr (h.first .logicalLeft) hlhs) fun marks₁ a a' m₁ m₁' hr ho ha => ?_
    rw [Operator.decides_alike hop ha]
    by_cases hd : Operator.decides op a = true
    · rw [if_pos hd, if_pos hd]
      exact .pure ho.alike ha
    · rw [if_neg hd, if_neg hd]
      exact ih.expr (h.next (.logicalRight hr (Bool.eq_false_iff.2 hd)) ho) hrhs
  | unary hop harg =>
    simp only [Eval.expr]
    refine .bind (ih.expr (h.first .unary) harg) fun marks₁ a a' m₁ m₁' _ ho ha => ?_
    exact .lift ho.alike (Operator.unary_alike hop ha)
  | grouping hinner =>
    simp only [Eval.expr]
    exact ih.expr (h.first .grouping) hinner
  | call hcallee hparen hargs =>
    simp only [Eval.expr]
    refine .bind (ih.expr (h.first .callee) hcallee) fun marks₁ f f' m₁ m₁' hr ho hf => ?_
    have hbeside := h.next (.arguments hr) ho
    refine .bind (ih.exprs hbeside hargs) fun marks₂ vs vs' m₂ m₂' hr' ho' hvs => ?_
    exact ih.apply (h.next (.call hr hr') (ho.trans ho')) hparen (hf.mono ho'.marks) hvs

theorem exprs_step {es es' : List Expr}
    (h : Beside K s s' marks ms ⟨fuel + 1, room, .exprs es, m⟩ m') (hes : Exprs.Alike K ms es es') :
    Abreast K marks m m' (Eval.exprs s (fuel + 1) room es) (Eval.exprs s' (fuel + 1) room es')
      fun marks => List.Forall₂ (Value.Alike K marks) := by
  cases hes with
  | nil =>
    simp only [Eval.exprs]
    exact .pure h.alike .nil
  | cons he hrest =>
    simp only [Eval.exprs]
    refine .bind (ih.expr (h.first .first) he) fun marks₁ v v' m₁ m₁' hr ho hv => ?_
    refine .bind (ih.exprs (h.next (.others hr) ho) hrest) fun marks₂ vs vs' m₂ m₂' _ ho' hvs => ?_
    exact .pure ho'.alike (.cons (hv.mono ho'.marks) hvs)

theorem apply_step (hs : s.Agree s') {paren paren' : Token} {f f' : Value} {vs vs' : List Value}
    (h : Beside K s s' marks ms ⟨fuel + 1, room, .apply paren f vs, m⟩ m')
    (hparen : K.token false paren paren') (hf : Value.Alike K marks f f')
    (hvs : List.Forall₂ (Value.Alike K marks) vs vs') :
    Abreast K marks m m' (Eval.apply s (fuel + 1) room paren f vs)
      (Eval.apply s' (fuel + 1) room paren' f' vs') (Value.Alike K) := by
  have hlength := hvs.length_eq
  cases hf with
  | @closure identity home ms' d d' hhome hd =>
    obtain ⟨b, -, hparams, hbody⟩ := hd
    unfold Eval.apply
    dsimp only
    rw [← hlength, ← hparams.length_eq]
    by_cases hlen : vs.length = d.params.length
    · rw [if_neg (not_not.2 hlen), if_neg (not_not.2 hlen)]
      cases room with
      | zero => exact .throw h.alike (.crash hparen)
      | succ room =>
        have ho := Eval.onward_add h.alike hhome b
        have hnew : (marks ++ [b :: ms'])[m.heap.size]? = some (b :: ms') := by
          rw [h.alike.heap.size, List.getElem?_concat_length]
        have hvs' := hvs.imp fun _ _ hv => Value.Alike.mono ho.marks hv
        have ho' := Eval.onward_heap ho.alike List.prefix_rfl
          (Eval.alike_defineAll ho.alike.heap hnew hparams hvs')
        refine .step rfl (Eval.newFrame_eq h.alike home) ho ?_
        refine .step (Eval.defineAll_eq ..) (Eval.defineAll_eq ..) ho' ?_
        refine .bind (.inside ho'.alike (ih.stmts ⟨?_, hnew, ?_⟩ hbody)) ?_
        · obtain ⟨hheap, -, hprinted, hclosures, hanswers⟩ := ho'.alike
          exact ⟨hheap, rfl, hprinted, hclosures, hanswers⟩
        · exact fun c hc => h.sure c (.head (.body hlen) hc)
        · intro marks₁ flow flow' m₁ m₁' _ ho'' hflow
          exact .pure ho''.alike hflow.value
    · rw [if_pos hlen, if_pos hlen]
      exact .throw h.alike (.crash hparen)
  | @native n =>
    unfold Eval.apply
    dsimp only
    rw [← hlength]
    by_cases hlen : vs.length = n.arity
    · rw [if_neg (not_not.2 hlen), if_neg (not_not.2 hlen)]
      exact Eval.abreast_ask hs h.alike n hlength.symm
    · rw [if_pos hlen, if_pos hlen]
      exact .throw h.alike (.crash hparen)
  | _ =>
    unfold Eval.apply
    exact .throw h.alike (.crash hparen)

theorem stmt_step {st st' : Stmt} (h : Beside K s s' marks ms ⟨fuel + 1, room, .stmt st, m⟩ m')
    (hst : Stmt.Alike K ms st st') :
    Abreast K marks m m' (Eval.stmt s (fuel + 1) room st) (Eval.stmt s' (fuel + 1) room st')
      (Flow.Alike K) := by
  cases hst with
  | expr he =>
    simp only [Eval.stmt]
    refine .bind (ih.expr (h.first .statement) he) fun marks₁ v v' m₁ m₁' _ ho _ => ?_
    exact .pure ho.alike .goOn
  | print he =>
    simp only [Eval.stmt]
    refine .bind (ih.expr (h.first .print) he) fun marks₁ v v' m₁ m₁' _ ho hv => ?_
    rw [hv.text]
    have ho' := Eval.onward_print ho.alike v.text
    exact .step rfl rfl ho' (.pure ho'.alike .goOn)
  | var hn hinit =>
    cases hinit with
    | none =>
      simp only [Eval.stmt]
      exact Eval.abreast_declare h.alike h.here hn .nil
    | some hinit =>
      simp only [Eval.stmt]
      refine .bind (ih.expr (h.first .initialiser) hinit) fun marks₁ v v' m₁ m₁' _ ho hv => ?_
      have hhere : marks₁[m₁.here]? = some ms := ho.here ▸ get_of_initial ho.marks h.here
      exact Eval.abreast_declare ho.alike hhere hn hv
  | block b hbody =>
    simp only [Eval.stmt]
    refine .step rfl rfl (.refl h.alike) ?_
    rw [h.alike.here]
    have ho := Eval.onward_add h.alike h.here b
    have hnew : (marks ++ [b :: ms])[m.heap.size]? = some (b :: ms) := by
      rw [h.alike.heap.size, List.getElem?_concat_length]
    refine .step rfl (Eval.newFrame_eq h.alike m.here) ho ?_
    refine .inside ho.alike (ih.stmts ⟨?_, hnew, ?_⟩ hbody)
    · obtain ⟨hheap, -, hprinted, hclosures, hanswers⟩ := ho.alike
      exact ⟨hheap, rfl, hprinted, hclosures, hanswers⟩
    · exact fun c hc => h.sure c (.head .block hc)
  | branch hc hyes =>
    simp only [Eval.stmt]
    refine .bind (ih.expr (h.first .branch) hc) fun marks₁ v v' m₁ m₁' hr ho hv => ?_
    rw [hv.isTruthy]
    by_cases htrue : v.isTruthy = true
    · rw [if_pos htrue, if_pos htrue]
      exact ih.stmt (h.next (.yes hr htrue) ho) hyes
    · rw [if_neg htrue, if_neg htrue]
      exact .pure ho.alike .goOn
  | branches hc hyes hno =>
    simp only [Eval.stmt]
    refine .bind (ih.expr (h.first .branch) hc) fun marks₁ v v' m₁ m₁' hr ho hv => ?_
    rw [hv.isTruthy]
    by_cases htrue : v.isTruthy = true
    · rw [if_pos htrue, if_pos htrue]
      exact ih.stmt (h.next (.yes hr htrue) ho) hyes
    · rw [if_neg htrue, if_neg htrue]
      exact ih.stmt (h.next (.no hr (Bool.eq_false_iff.2 htrue)) ho) hno
  | loop hc hbody =>
    simp only [Eval.stmt]
    exact ih.turns (h.first .loop) hc hbody
  | @function _ b n n' params params' body body' hn hname hparams hbody =>
    simp only [Eval.stmt]
    obtain ⟨heap', here', printed', closures', answers'⟩ := m'
    obtain rfl : here' = m.here := h.alike.here
    obtain rfl : closures' = m.closures := h.alike.closures
    have ho : Onward K marks m marks { m with closures := m.closures + 1 }
        ⟨heap', m.here, printed', m.closures + 1, answers'⟩ :=
      ⟨List.prefix_rfl, rfl, h.alike.heap, rfl, h.alike.printed, rfl, h.alike.answers⟩
    have hv : Value.Alike K marks (.closure m.closures ⟨n, params, body⟩ m.here)
        (.closure m.closures ⟨n', params', body'⟩ m.here) :=
      .closure h.here (.intro b hname hparams hbody)
    have ho' := Eval.onward_define ho.alike h.here hv hn.lexeme
    exact .step rfl rfl (.refl h.alike) (.step rfl rfl ho (.step rfl rfl ho'
      (.pure ho'.alike .goOn)))
  | ret hvalue =>
    cases hvalue with
    | none =>
      simp only [Eval.stmt]
      exact .pure h.alike (.returning .nil)
    | some hvalue =>
      simp only [Eval.stmt]
      refine .bind (ih.expr (h.first .returned) hvalue) fun marks₁ v v' m₁ m₁' _ ho hv => ?_
      exact .pure ho.alike (.returning hv)

theorem stmts_step {sts sts' : List Stmt}
    (h : Beside K s s' marks ms ⟨fuel + 1, room, .stmts sts, m⟩ m')
    (hsts : Stmts.Alike K ms sts sts') :
    Abreast K marks m m' (Eval.stmts s (fuel + 1) room sts) (Eval.stmts s' (fuel + 1) room sts')
      (Flow.Alike K) := by
  cases hsts with
  | nil =>
    simp only [Eval.stmts]
    exact .pure h.alike .goOn
  | cons hst hrest =>
    simp only [Eval.stmts]
    refine .bind (ih.stmt (h.first .front) hst) fun marks₁ flow flow' m₁ m₁' hr ho hflow => ?_
    cases hflow with
    | goOn => exact ih.stmts (h.next (.next hr) ho) hrest
    | returning hv => exact .pure ho.alike (.returning hv)

theorem turns_step {c c' : Expr} {body body' : Stmt}
    (h : Beside K s s' marks ms ⟨fuel + 1, room, .turns c body, m⟩ m') (hc : Expr.Alike K ms c c')
    (hbody : Stmt.Alike K ms body body') :
    Abreast K marks m m' (Eval.turns s (fuel + 1) room c body)
      (Eval.turns s' (fuel + 1) room c' body') (Flow.Alike K) := by
  simp only [Eval.turns]
  refine .bind (ih.expr (h.first .condition) hc) fun marks₁ v v' m₁ m₁' hr ho hv => ?_
  rw [hv.isTruthy]
  by_cases htrue : v.isTruthy = true
  · rw [if_pos htrue, if_pos htrue]
    have hbeside := h.next (.turn hr htrue) ho
    refine .bind (ih.stmt hbeside hbody) fun marks₂ flow flow' m₂ m₂' hr' ho' hflow => ?_
    cases hflow with
    | goOn => exact ih.turns (h.next (.again hr htrue hr') (ho.trans ho')) hc hbody
    | returning hv => exact .pure ho'.alike (.returning hv)
  · rw [if_neg htrue, if_neg htrue]
    exact .pure ho.alike .goOn

end Steps

/-- **Programs that are alike run in lockstep.** -/
theorem all (hs : s.Agree s') (fuel : Nat) : Lockstep K s s' fuel := by
  induction fuel with
  | zero =>
    refine ⟨fun h _ => ?_, fun h _ => ?_, fun h _ _ _ => ?_, fun h _ => ?_, fun h _ => ?_,
      fun h _ _ => ?_⟩ <;>
      simp only [Eval.expr, Eval.exprs, Eval.apply, Eval.stmt, Eval.stmts, Eval.turns] <;>
      exact .throw h.alike .outOfFuel
  | succ fuel ih =>
    exact ⟨ih.expr_step, ih.exprs_step, ih.apply_step hs, ih.stmt_step, ih.stmts_step,
      ih.turns_step⟩

end Lockstep

/-! ## Programs -/

/-- Runs of programs have ended alike. -/
inductive Ending.Alike (K : Likeness) : Ending → Ending → Prop
  | finished : Ending.Alike K .finished .finished
  | stopped {stop stop' : Stop} : stop.Alike K stop' →
      Ending.Alike K (.stopped stop) (.stopped stop')

/-- If tokens without a mark are the same, runs that end alike end in the same way. -/
theorem Ending.Alike.eq {ending ending' : Ending} (h : ending.Alike K ending')
    (htoken : ∀ t t', K.token false t t' → t' = t) : ending' = ending := by
  cases h with
  | finished => rfl
  | stopped hstop =>
    cases hstop with
    | crash ht => rw [htoken _ _ ht]
    | fault => rfl
    | outOfFuel => rfl

/-- Programs that are alike, run on machines that are alike outside of all blocks and functions, end
alike. -/
theorem Machine.run_alike (hs : s.Agree s') {program program' : List Stmt}
    (hm : m.Alike K marks m') (hhere : m.here = Heap.root)
    (hprogram : Stmts.Alike K [] program program')
    (hsure : ∀ front st rest m₁, program = front ++ st :: rest →
      m.run s fuel room front = (.finished, m₁) →
      ∀ b, Reaches s ⟨fuel, room, .stmt st, m₁⟩ b → b.Sure K s s') :
    (m.run s fuel room program).1.Alike K (m'.run s' fuel room program').1 ∧
      ∃ marks', Onward K marks m marks' (m.run s fuel room program).2
        (m'.run s' fuel room program').2 := by
  induction program generalizing m m' marks program' with
  | nil =>
    cases hprogram
    exact ⟨.finished, marks, .refl hm⟩
  | cons st rest ih =>
    cases hprogram with
    | @cons _ _ st' _ rest' hst hrest =>
      have hbeside : Beside K s s' marks [] ⟨fuel, room, .stmt st, m⟩ m' := by
        refine ⟨hm, ?_, hsure [] st rest m rfl rfl⟩
        rw [hhere]
        exact hm.heap.root
      have hended := (Lockstep.all hs fuel).stmt hbeside hst
      unfold Machine.run
      unfold Eval.Abreast at hended
      generalize hr : Eval.stmt s fuel room st m = r at hended
      generalize Eval.stmt s' fuel room st' m' = r' at hended
      cases hended with
      | error ho hstop => exact ⟨.stopped hstop, _, ho⟩
      | @ok flow flow' marks₁ m₁ m₁' ho _ =>
        have hlater := ih ho.alike (ho.here.trans hhere) hrest ?_
        · obtain ⟨hending, marks₂, ho'⟩ := hlater
          exact ⟨hending, marks₂, ho.trans ho'⟩
        · intro front st₂ rest₂ m₂ heq hrun b hb
          refine hsure (st :: front) st₂ rest₂ m₂ (by rw [heq]; rfl) ?_ b hb
          unfold Machine.run
          rw [hr]
          exact hrun

end Scriptlet

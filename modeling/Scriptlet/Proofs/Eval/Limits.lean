import Scriptlet.Proofs.Eval.Moment
import Scriptlet.Proofs.Heap

/-!
# What a run leaves behind

However a run ends, the machine is back in the frame that it was in, links stay and names are only
added. What else a run may do is bounded by what the moments below it do themselves (`Limits`):

* names are bound only by declarations, by calls, and by assignments to a frame that does not hold
  the name (`Moment.Declares`, `Moment.Creates`);
* every function on the heap was there before, or its body is a part of what the run began with;
* a crash is blamed on a token that one of the expressions may be blamed for (`Expr.blamed`);
* a fault comes of an operator without a meaning, of a native function that refuses its arguments,
  or of a depth that leads beyond the outermost frame.

One induction on the fuel shows all of it (`Moment.Begins.keeps`), with a lemma for each kind of
task. What is said of trees need only be passed on to their parts, so the same lemma tells of
serials, of operators, and of names alone.
-/

namespace Scriptlet

/-! ## What binds names -/

/-- A moment binds a name in a frame because the program says so: by a declaration that is executed
in the frame, or by a call that makes the frame. -/
inductive Moment.Declares : Moment → Nat → String → Prop
  | var {fuel room : Nat} {name : Token} {init : Option Expr} {m : Machine} :
      Declares ⟨fuel + 1, room, .stmt (.var name init), m⟩ m.here name.lexeme
  | function {fuel room : Nat} {name : Token} {params : List Token} {body : List Stmt}
      {m : Machine} :
      Declares ⟨fuel + 1, room, .stmt (.function name params body), m⟩ m.here name.lexeme
  | parameter {fuel room identity home : Nat} {paren p : Token} {d : Declaration}
      {args : List Value} {m : Machine} : p ∈ d.params →
      Declares ⟨fuel + 1, room + 1, .apply paren (.closure identity d home) args, m⟩ m.heap.size
        p.lexeme

/-- A moment binds a name by an assignment whose depth leads to a frame that does not hold it. -/
inductive Moment.Creates (s : Setting) : Moment → Nat → String → Prop
  | intro {fuel room serial depth frame : Nat} {name : Token} {value : Expr} {v : Value}
      {m m' : Machine} : s.route serial = .outward depth →
      Eval.expr s fuel room value m = .ok v m' → m'.heap.outward? depth m'.here = some frame →
      m'.heap.holds frame name.lexeme = false →
      Creates s ⟨fuel + 1, room, .expr (.assign name value serial), m⟩ frame name.lexeme

/-! ## Limits -/

/-- The token that a crash is blamed on if an expression itself crashes, and no part of it. -/
def Expr.blamed : Expr → Option Token
  | .ref name _ | .assign name _ _ => some name
  | .binary _ op _ | .unary op _ => some op
  | .call _ paren _ => some paren
  | .literal _ | .logical _ _ _ | .grouping _ => none

/-- What may stand in a program and on a heap, which names may be bound in which frames, which
tokens may be blamed, and which faults may happen. What holds of a tree holds of its parts. -/
structure Limits where
  expr : Expr → Prop
  stmt : Stmt → Prop
  native : Native → Prop
  name : Nat → String → Prop
  token : Token → Prop
  fault : Fault → Prop
  blamed : ∀ {e : Expr} {t : Token}, expr e → e.blamed = some t → token t
  assign : ∀ {n : Token} {e : Expr} {k : Nat}, expr (.assign n e k) → expr e
  binary : ∀ {op : Token} {lhs rhs : Expr}, expr (.binary lhs op rhs) → expr lhs ∧ expr rhs
  /-- An operator without a meaning is a fault that may happen. -/
  operator : ∀ {op : Token} {lhs rhs : Expr} {a b : Value} {f : Fault},
    expr (.binary lhs op rhs) → Operator.binary op a b = .error (.fault f) → fault f
  logical : ∀ {op : Token} {lhs rhs : Expr}, expr (.logical lhs op rhs) → expr lhs ∧ expr rhs
  unary : ∀ {op : Token} {e : Expr}, expr (.unary op e) → expr e
  grouping : ∀ {e : Expr}, expr (.grouping e) → expr e
  call : ∀ {f : Expr} {paren : Token} {args : List Expr}, expr (.call f paren args) →
    expr f ∧ ∀ e ∈ args, expr e
  simple : ∀ {e : Expr}, stmt (.expr e) → expr e
  print : ∀ {t : Token} {e : Expr}, stmt (.print t e) → expr e
  var : ∀ {t : Token} {e : Expr}, stmt (.var t (some e)) → expr e
  block : ∀ {body : List Stmt}, stmt (.block body) → ∀ st ∈ body, stmt st
  branch : ∀ {e : Expr} {yes : Stmt} {no : Option Stmt}, stmt (.branch e yes no) →
    expr e ∧ stmt yes ∧ ∀ st ∈ no, stmt st
  loop : ∀ {e : Expr} {body : Stmt}, stmt (.loop e body) → expr e ∧ stmt body
  function : ∀ {t : Token} {params : List Token} {body : List Stmt},
    stmt (.function t params body) → ∀ st ∈ body, stmt st
  ret : ∀ {t : Token} {e : Expr}, stmt (.ret t (some e)) → expr e

namespace Limits

variable (L : Limits)

/-- Values within the limits. -/
def value : Value → Prop
  | .closure _ d _ => ∀ st ∈ d.body, L.stmt st
  | .native n => L.native n
  | _ => True

/-- Flows that return values within the limits. -/
def flow : Flow → Prop
  | .goOn => True
  | .returning v => L.value v

/-- Heaps of values within the limits. -/
def heap (h : Heap Value) : Prop :=
  ∀ (e : Nat) (frame : Frame Value), h.frames[e]? = some frame →
    ∀ entry ∈ frame.bindings.entries, L.value entry.2

/-- Tasks within the limits. -/
def task : Task → Prop
  | .expr e => L.expr e
  | .exprs es => ∀ e ∈ es, L.expr e
  | .apply paren f args => L.token paren ∧ L.value f ∧ ∀ v ∈ args, L.value v
  | .stmt st => L.stmt st
  | .stmts sts => ∀ st ∈ sts, L.stmt st
  | .turns condition body => L.expr condition ∧ L.stmt body

/-- Results within the limits. -/
def result : (t : Task) → t.Result → Prop
  | .expr _, v | .apply _ _ _, v => L.value v
  | .exprs _, vs => ∀ v ∈ vs, L.value v
  | .stmt _, flow | .stmts _, flow | .turns _ _, flow => L.flow flow

/-- Stops within the limits. -/
def stop : Stop → Prop
  | .crash c => L.token c.token
  | .fault f => L.fault f
  | .outOfFuel => True

variable {L}

theorem value_ofLiteral (l : Literal) : L.value (.ofLiteral l) := by
  cases l <;> exact trivial

theorem value_flow {flow : Flow} (h : L.flow flow) : L.value flow.value := by
  cases flow with
  | goOn => trivial
  | returning v => exact h

theorem unary_value {op : Token} {v w : Value} (hr : Operator.unary op v = .ok w) :
    L.value w := by
  unfold Operator.unary at hr
  split at hr
  · obtain rfl := Except.ok.inj hr
    exact True.intro
  · cases v <;> cases hr
    exact True.intro

theorem unary_stop {op : Token} {v : Value} {stop : Stop} (hop : L.token op)
    (hr : Operator.unary op v = .error stop) : L.stop stop := by
  unfold Operator.unary at hr
  split at hr
  · cases hr
  · cases v <;> cases hr <;> exact hop

theorem binary_value {op : Token} {v w u : Value} (hr : Operator.binary op v w = .ok u) :
    L.value u := by
  unfold Operator.binary Operator.plus Operator.arithmetic at hr
  repeat' split at hr
  all_goals cases hr <;> trivial

/-- An operator is blamed for its own crash. -/
theorem binary_crash {op : Token} {v w : Value} {c : Crash}
    (hr : Operator.binary op v w = .error (.crash c)) : c.token = op := by
  unfold Operator.binary Operator.plus Operator.arithmetic at hr
  repeat' split at hr
  all_goals cases hr <;> rfl

theorem binary_stop {lhs rhs : Expr} {op : Token} {v w : Value} {stop : Stop}
    (he : L.expr (.binary lhs op rhs)) (hr : Operator.binary op v w = .error stop) :
    L.stop stop := by
  cases stop with
  | crash c =>
    show L.token c.token
    rw [binary_crash hr]
    exact L.blamed he rfl
  | fault f => exact L.operator he hr
  | outOfFuel => exact trivial

/-! ## Heaps -/

variable {h : Heap Value}

/-- A heap within limits is within wider ones. -/
theorem heap.mono {L' : Limits} (hh : L.heap h) (hstmt : ∀ st, L.stmt st → L'.stmt st)
    (hnative : ∀ n, L.native n → L'.native n) : L'.heap h := by
  intro e frame hframe entry hentry
  have hv := hh e frame hframe entry hentry
  generalize entry.2 = v at hv
  cases v with
  | closure _ d _ => exact fun st hst => hstmt st (hv st hst)
  | native n => exact hnative n hv
  | _ => exact trivial

theorem heap.local? (hh : L.heap h) {e : Nat} {name : String} {v : Value}
    (hv : h.local? e name = some v) : L.value v := by
  obtain ⟨frame, hframe, hv⟩ := Option.bind_eq_some_iff.1 hv
  obtain ⟨entry, hentry, rfl⟩ : ∃ entry ∈ frame.bindings.entries, entry.2 = v := by
    unfold Table.find? at hv
    generalize frame.bindings.entries = entries at hv
    induction entries with
    | nil => cases hv
    | cons entry rest ih =>
      rw [List.lookup_cons] at hv
      split at hv
      · exact ⟨entry, List.mem_cons_self, Option.some.inj hv⟩
      · obtain ⟨entry', hentry', heq⟩ := ih hv
        exact ⟨entry', List.mem_cons_of_mem _ hentry', heq⟩
  exact hh e frame hframe entry hentry

theorem heap.add (hh : L.heap h) (link : Option Nat) : L.heap (h.add link) := by
  intro e frame hframe
  unfold Heap.add at hframe
  rw [Array.getElem?_push] at hframe
  split at hframe
  · obtain rfl := Option.some.inj hframe
    exact fun _ hentry => absurd hentry List.not_mem_nil
  · exact hh e frame hframe

theorem mem_place {name : String} {v : Value} {l : List (String × Value)} {entry : String × Value}
    (hentry : entry ∈ Table.place name v l) : entry ∈ l ∨ entry.2 = v := by
  induction l with
  | nil => exact .inr (congrArg Prod.snd (List.mem_singleton.1 hentry))
  | cons first rest ih =>
    unfold Table.place at hentry
    split at hentry
    · rcases List.mem_cons.1 hentry with rfl | hentry
      · exact .inr rfl
      · exact .inl (List.mem_cons_of_mem _ hentry)
    · rcases List.mem_cons.1 hentry with rfl | hentry
      · exact .inl List.mem_cons_self
      · exact (ih hentry).imp_left (List.mem_cons_of_mem _)

theorem heap.define (hh : L.heap h) {v : Value} (hv : L.value v) (e : Nat) (name : String) :
    L.heap (h.define e name v) := by
  intro e' frame hframe
  unfold Heap.define at hframe
  rw [Array.getElem?_modify] at hframe
  split at hframe
  · obtain ⟨frame', hframe', rfl⟩ := Option.map_eq_some_iff.1 hframe
    intro entry hentry
    rcases mem_place hentry with hold | hnew
    · exact hh e' frame' hframe' entry hold
    · exact hnew ▸ hv
  · exact hh e' frame hframe

end Limits

/-! ## What is left -/

variable {L : Limits} {m m' m'' : Machine} {s : Setting} {fuel room : Nat}

/-- What a part of a run may leave of a machine within the limits. -/
structure Left (L : Limits) (m m' : Machine) : Prop where
  here : m'.here = m.here
  extended : m.heap.Extends m'.heap
  names : ∀ e name, m'.heap.holds e name = true → m.heap.holds e name = true ∨ L.name e name
  heap : L.heap m'.heap

theorem Left.refl (h : L.heap m.heap) : Left L m m := ⟨rfl, .refl _, fun _ _ h => .inl h, h⟩

theorem Left.trans (h : Left L m m') (h' : Left L m' m'') : Left L m m'' := by
  refine ⟨h'.here.trans h.here, h.extended.trans h'.extended, fun e name hname => ?_, h'.heap⟩
  rcases h'.names e name hname with hold | hnew
  · exact h.names e name hold
  · exact .inr hnew

theorem Left.add (h : L.heap m.heap) (link : Nat) :
    Left L m { m with heap := m.heap.add (some link) } := by
  refine ⟨rfl, Heap.extends_add .., fun e name hname => ?_, h.add _⟩
  rw [Heap.holds_add] at hname
  exact .inl hname

/-- Binding a name that may be bound in the frame, or that the frame holds already. -/
theorem Left.define (h : L.heap m.heap) {v : Value} (hv : L.value v) {e : Nat} {name : String}
    (hname : m.heap.holds e name = true ∨ L.name e name) :
    Left L m { m with heap := m.heap.define e name v } := by
  refine ⟨rfl, Heap.extends_define .., fun e' key hkey => ?_, h.define hv e name⟩
  rcases Heap.holds_define_iff.1 hkey with ⟨rfl, rfl, -⟩ | hold
  · exact hname
  · exact .inl hold

theorem Left.defineAll (h : L.heap m.heap) {e : Nat} {ps : List Token} {vs : List Value}
    (hvs : ∀ v ∈ vs, L.value v) (hps : ∀ p ∈ ps, L.name e p.lexeme) :
    Left L m { m with heap := m.heap.defineAll e ps vs } := by
  induction ps generalizing m vs with
  | nil => exact .refl h
  | cons p ps ih =>
    cases vs with
    | nil => exact .refl h
    | cons v vs =>
      obtain ⟨hv, hvs⟩ := List.forall_mem_cons.1 hvs
      obtain ⟨hp, hps⟩ := List.forall_mem_cons.1 hps
      have hfirst := Left.define h hv (.inr hp)
      exact hfirst.trans (ih hfirst.heap hvs hps)

namespace Eval

variable {α β : Type} {act : Eval α} {Q : α → Prop} {R : β → Prop}

/-- A part of a run leaves what it may, its result satisfies a condition, and a stop is one that may
happen. -/
def Within (L : Limits) (m : Machine) (act : Eval α) (Q : α → Prop) : Prop :=
  act.Ends m (fun a m' => Left L m m' ∧ Q a) fun stop m' => Left L m m' ∧ L.stop stop

theorem Within.pure {a : α} (h : L.heap m.heap) (ha : Q a) : Within L m (Pure.pure a) Q :=
  ⟨.refl h, ha⟩

theorem Within.throw {stop : Stop} (h : L.heap m.heap) (hstop : L.stop stop) :
    Within L m (MonadExcept.throw stop : Eval α) Q := ⟨Left.refl h, hstop⟩

theorem Within.bind {f : α → Eval β} (h : Within L m act Q)
    (hf : ∀ a m', act m = .ok a m' → Left L m m' → Q a → Within L m' (f a) R) :
    Within L m (act >>= f) R := by
  refine Ends.bind h fun a m' hr ⟨hl, ha⟩ => ?_
  exact (hf a m' hr hl ha).mono (fun _ _ ⟨hl', hb⟩ => ⟨hl.trans hl', hb⟩)
    fun _ _ ⟨hl', hstop⟩ => ⟨hl.trans hl', hstop⟩

/-- A step that does not stop. -/
theorem Within.step {a : α} {f : α → Eval β} (hr : act m = .ok a m') (hl : Left L m m')
    (hf : Within L m' (f a) R) : Within L m (act >>= f) R := by
  refine Within.bind (Q := fun a' => a' = a) ?_ ?_
  · unfold Within Ends
    rw [hr]
    exact ⟨hl, rfl⟩
  · rintro _ _ hr' - rfl
    obtain ⟨-, rfl⟩ := EStateM.Result.ok.inj (hr.symm.trans hr')
    exact hf

theorem Within.lift {result : Except Stop α} (h : L.heap m.heap)
    (hQ : ∀ a, result = .ok a → Q a) (hstop : ∀ stop, result = .error stop → L.stop stop) :
    Within L m (Eval.lift result) Q := by
  cases result with
  | ok a => exact .pure h (hQ a rfl)
  | error stop => exact .throw h (hstop stop rfl)

theorem Within.inside {frame : Nat} (h : Within L { m with here := frame } act Q) :
    Within L m (inside frame act) Q :=
  Ends.inside (Ends.mono h (fun _ _ ⟨hl, ha⟩ => ⟨⟨rfl, hl.extended, hl.names, hl.heap⟩, ha⟩)
    fun _ _ ⟨hl, hstop⟩ => ⟨⟨rfl, hl.extended, hl.names, hl.heap⟩, hstop⟩)

/-! ## Variables -/

theorem within_readVariable (h : L.heap m.heap) {name : Token} {serial : Nat}
    (hblamed : L.token name)
    (hout : ∀ depth, s.route serial = .outward depth → m.heap.outward? depth m.here = none →
      L.fault .beyondOutermost) : Within L m (readVariable s name serial) L.value := by
  have hnearest : ∀ frame, Within L m (readNearest frame name) L.value := by
    intro frame
    unfold Within Ends readNearest
    cases hv : m.heap.get? frame name.lexeme with
    | none => exact ⟨.refl h, hblamed⟩
    | some v =>
      obtain ⟨e, -, he⟩ := Option.bind_eq_some_iff.1 hv
      exact ⟨.refl h, h.local? he⟩
  unfold readVariable
  split
  · exact hnearest _
  · next depth hroute =>
    unfold Within Ends readOutward Heap.getAt
    cases ho : m.heap.outward? depth m.here with
    | none => exact ⟨Left.refl h, hout depth hroute ho⟩
    | some e =>
      cases hv : m.heap.local? e name.lexeme with
      | none =>
        simp only [hv]
        exact ⟨Left.refl h, hblamed⟩
      | some v =>
        simp only [hv]
        exact ⟨Left.refl h, h.local? hv⟩
  · exact .step rfl (.refl h) (hnearest _)

theorem within_writeVariable (h : L.heap m.heap) {name : Token} {serial : Nat} {v : Value}
    (hblamed : L.token name) (hv : L.value v)
    (hout : ∀ depth, s.route serial = .outward depth → m.heap.outward? depth m.here = none →
      L.fault .beyondOutermost)
    (hname : ∀ depth frame, s.route serial = .outward depth →
      m.heap.outward? depth m.here = some frame →
      m.heap.holds frame name.lexeme = false → L.name frame name.lexeme) :
    Within L m (writeVariable s name serial v) fun _ => True := by
  have hnearest : ∀ frame, Within L m (writeNearest frame name v) fun _ => True := by
    intro frame
    unfold Within Ends writeNearest Heap.assign?
    cases hholder : m.heap.holder? frame name.lexeme with
    | none => exact ⟨.refl h, hblamed⟩
    | some e =>
      have hholds := List.find?_some hholder
      exact ⟨.define h hv (.inl hholds), trivial⟩
  unfold writeVariable
  split
  · exact hnearest _
  · next depth hroute =>
    unfold Within Ends writeOutward Heap.assignAt?
    cases ho : m.heap.outward? depth m.here with
    | none => exact ⟨Left.refl h, hout depth hroute ho⟩
    | some frame =>
      refine ⟨.define h hv ?_, trivial⟩
      cases hholds : m.heap.holds frame name.lexeme with
      | true => exact .inl rfl
      | false => exact .inr (hname depth frame hroute ho hholds)
  · exact .step rfl (.refl h) (hnearest _)

end Eval

/-! ## Moments that begin -/

/-- What is given to a run is within the limits. -/
structure Setting.Within (L : Limits) (s : Setting) : Prop where
  answer : ∀ {answers : Nat} {n : Native} {args : List Value} {v : Value},
    s.answer answers n args = some v → L.value v
  refused : ∀ {answers : Nat} {n : Native} {args : List Value}, L.native n →
    args.length = n.arity → s.answer answers n args = none → L.fault (.refusedArguments n)

/-- What a moment itself does is within the limits: the names that it binds, and the depth that it
goes outward. -/
structure Moment.Abides (L : Limits) (s : Setting) (a : Moment) : Prop where
  names : ∀ e name, a.Declares e name ∨ a.Creates s e name → L.name e name
  depths : ∀ name serial depth,
    a.task = .expr (.ref name serial) ∨ (∃ value, a.task = .expr (.assign name value serial)) →
    s.route serial = .outward depth → a.machine.heap.outward? depth a.machine.here = none →
    L.fault .beyondOutermost

/-- A moment at which all that there is stays within the limits, as does what the moments below it
do. -/
structure Moment.Begins (L : Limits) (s : Setting) (a : Moment) : Prop where
  heap : L.heap a.machine.heap
  task : L.task a.task
  below : ∀ b, Reaches s a b → b.Abides L s

namespace Moment

open Eval (Within)

theorem Begins.starts {a b : Moment} (h : a.Begins L s) (hb : Starts s a b)
    (hheap : L.heap b.machine.heap) (htask : L.task b.task) : b.Begins L s :=
  ⟨hheap, htask, fun c hc => h.below c (.head hb hc)⟩

theorem Begins.declares {a : Moment} (h : a.Begins L s) {e : Nat} {name : String}
    (ha : a.Declares e name) : L.name e name := (h.below a .refl).names e name (.inl ha)

/-- With so much fuel, what begins within the limits keeps to them. -/
def KeepsTo (L : Limits) (s : Setting) (fuel : Nat) : Prop :=
  ∀ {room : Nat} {t : Task} {m : Machine}, Begins L s ⟨fuel, room, t, m⟩ →
    Within L m (t.run s fuel room) (L.result t)

variable (hs : s.Within L) (ih : KeepsTo L s fuel)

section Steps

include ih

theorem expr_keeps {e : Expr} (h : Begins L s ⟨fuel + 1, room, .expr e, m⟩) :
    Within L m (Eval.expr s (fuel + 1) room e) L.value := by
  cases e with
  | literal l =>
    simp only [Eval.expr]
    exact .pure h.heap (Limits.value_ofLiteral l)
  | ref name serial =>
    simp only [Eval.expr]
    exact Eval.within_readVariable h.heap (L.blamed h.task rfl) fun depth =>
      (h.below _ .refl).depths name serial depth (.inl rfl)
  | assign name value serial =>
    simp only [Eval.expr]
    refine .bind (ih (h.starts .assign h.heap (L.assign h.task))) fun v m₁ hr hl hv => ?_
    refine .bind (Eval.within_writeVariable hl.heap (L.blamed h.task rfl) hv
      (fun depth hroute hout => ?_) ?_) fun _ m₂ _ hl' _ => .pure hl'.heap hv
    · -- The depth leads where it led before the value was there.
      refine (h.below _ .refl).depths name serial depth (.inr ⟨value, rfl⟩) hroute ?_
      cases hold : m.heap.outward? depth m.here with
      | none => rfl
      | some frame =>
        rw [hl.here, hl.extended.outward? hold] at hout
        cases hout
    · intro depth frame hroute hout hholds
      exact (h.below _ .refl).names frame _ (.inr (.intro hroute hr hout hholds))
  | binary lhs op rhs =>
    simp only [Eval.expr]
    obtain ⟨hlhs, hrhs⟩ := L.binary h.task
    refine .bind (ih (h.starts .binaryLeft h.heap hlhs)) fun v m₁ hr hl _ => ?_
    refine .bind (ih (h.starts (.binaryRight hr) hl.heap hrhs)) fun w m₂ _ hl' _ => ?_
    exact .lift hl'.heap (fun _ hu => Limits.binary_value hu)
      fun _ hu => Limits.binary_stop h.task hu
  | logical lhs op rhs =>
    simp only [Eval.expr]
    obtain ⟨hlhs, hrhs⟩ := L.logical h.task
    refine .bind (ih (h.starts .logicalLeft h.heap hlhs)) fun v m₁ hr hl hv => ?_
    by_cases hd : Operator.decides op v = true
    · rw [if_pos hd]
      exact .pure hl.heap hv
    · rw [if_neg hd]
      exact ih (h.starts (.logicalRight hr (Bool.eq_false_iff.2 hd)) hl.heap hrhs)
  | unary op arg =>
    simp only [Eval.expr]
    refine .bind (ih (h.starts .unary h.heap (L.unary h.task))) fun v m₁ _ hl _ => ?_
    exact .lift hl.heap (fun _ hu => Limits.unary_value hu)
      fun _ hu => Limits.unary_stop (L.blamed h.task rfl) hu
  | grouping inner =>
    simp only [Eval.expr]
    exact ih (h.starts .grouping h.heap (L.grouping h.task))
  | call callee paren args =>
    simp only [Eval.expr]
    obtain ⟨hcallee, hargs⟩ := L.call h.task
    refine .bind (ih (h.starts .callee h.heap hcallee)) fun f m₁ hr hl hf => ?_
    refine .bind (ih (h.starts (.arguments hr) hl.heap hargs)) fun vs m₂ hr' hl' hvs => ?_
    exact ih (h.starts (.call hr hr') hl'.heap ⟨L.blamed h.task rfl, hf, hvs⟩)

theorem exprs_keeps {es : List Expr} (h : Begins L s ⟨fuel + 1, room, .exprs es, m⟩) :
    Within L m (Eval.exprs s (fuel + 1) room es) fun vs => ∀ v ∈ vs, L.value v := by
  cases es with
  | nil =>
    simp only [Eval.exprs]
    exact .pure h.heap (List.forall_mem_nil _)
  | cons e rest =>
    simp only [Eval.exprs]
    obtain ⟨he, hrest⟩ := List.forall_mem_cons.1 h.task
    refine .bind (ih (h.starts .first h.heap he)) fun v m₁ hr hl hv => ?_
    refine .bind (ih (h.starts (.others hr) hl.heap hrest)) fun vs m₂ _ hl' hvs => ?_
    exact .pure hl'.heap (List.forall_mem_cons.2 ⟨hv, hvs⟩)

include hs in
theorem apply_keeps {paren : Token} {f : Value} {vs : List Value}
    (h : Begins L s ⟨fuel + 1, room, .apply paren f vs, m⟩) :
    Within L m (Eval.apply s (fuel + 1) room paren f vs) L.value := by
  obtain ⟨hparen, hf, hvs⟩ := h.task
  cases f with
  | closure identity d home =>
    unfold Eval.apply
    dsimp only
    by_cases hlen : vs.length = d.params.length
    · rw [if_neg fun hne => hne hlen]
      cases room with
      | zero => exact .throw h.heap hparen
      | succ room =>
        have hadd := Left.add h.heap home
        have hall : Left L { m with heap := m.heap.add (some home) } _ :=
          Left.defineAll (e := m.heap.size) hadd.heap hvs fun p hp => h.declares (.parameter hp)
        refine .step rfl hadd (.step (Eval.defineAll_eq ..) hall ?_)
        refine .bind (.inside (ih (h.starts (.body hlen) hall.heap hf)))
          fun flow m₁ _ hl hflow => ?_
        exact .pure hl.heap (Limits.value_flow hflow)
    · rw [if_pos hlen]
      exact .throw h.heap hparen
  | native n =>
    unfold Eval.apply
    dsimp only
    by_cases hlen : vs.length = n.arity
    · rw [if_neg fun hne => hne hlen]
      unfold Within Eval.Ends Eval.ask
      cases hv : s.answer m.answers n vs with
      | none => exact ⟨.refl h.heap, hs.refused hf hlen hv⟩
      | some v => exact ⟨⟨rfl, .refl _, fun _ _ h => .inl h, h.heap⟩, hs.answer hv⟩
    · rw [if_pos hlen]
      exact .throw h.heap hparen
  | _ =>
    unfold Eval.apply
    exact .throw h.heap hparen

theorem stmt_keeps {st : Stmt} (h : Begins L s ⟨fuel + 1, room, .stmt st, m⟩) :
    Within L m (Eval.stmt s (fuel + 1) room st) L.flow := by
  have hheap := h.heap
  -- What a declaration does when it has the value.
  have hdeclare : ∀ (m₁ : Machine) {name : Token} {v : Value}, L.heap m₁.heap →
      m₁.here = m.here → L.value v → L.name m.here name.lexeme → Within L m₁ (do
        Eval.define m₁.here name.lexeme v
        return Flow.goOn) L.flow := by
    intro m₁ name v hheap hhere hv hname
    have hl : Left L m₁ _ := .define hheap hv (.inr (hhere.symm ▸ hname))
    exact .step rfl hl (.pure hl.heap trivial)
  cases st with
  | expr e =>
    simp only [Eval.stmt]
    refine .bind (ih (h.starts .statement hheap (L.simple h.task))) fun _ m₁ _ hl _ => ?_
    exact .pure hl.heap trivial
  | print keyword e =>
    simp only [Eval.stmt]
    refine .bind (ih (h.starts .print hheap (L.print h.task))) fun v m₁ _ hl _ => ?_
    exact .step rfl ⟨rfl, .refl _, fun _ _ h => .inl h, hl.heap⟩ (.pure hl.heap trivial)
  | var name init =>
    cases init with
    | none =>
      simp only [Eval.stmt]
      exact .step rfl (.refl hheap) (hdeclare m hheap rfl trivial (h.declares .var))
    | some init =>
      simp only [Eval.stmt]
      refine .bind (ih (h.starts .initialiser hheap (L.var h.task))) fun v m₁ _ hl hv => ?_
      exact .step rfl (.refl hl.heap) (hdeclare _ hl.heap hl.here hv (h.declares .var))
  | block body =>
    simp only [Eval.stmt]
    have hadd := Left.add hheap m.here
    refine .step rfl (.refl hheap) (.step rfl hadd (.inside ?_))
    exact ih (h.starts .block hadd.heap (L.block h.task))
  | branch condition yes no =>
    obtain ⟨hcondition, hyes, hno⟩ := L.branch h.task
    cases no with
    | none =>
      simp only [Eval.stmt]
      refine .bind (ih (h.starts .branch hheap hcondition)) fun v m₁ hr hl _ => ?_
      by_cases htrue : v.isTruthy = true
      · rw [if_pos htrue]
        exact ih (h.starts (.yes hr htrue) hl.heap hyes)
      · rw [if_neg htrue]
        exact .pure hl.heap trivial
    | some no =>
      simp only [Eval.stmt]
      refine .bind (ih (h.starts .branch hheap hcondition)) fun v m₁ hr hl _ => ?_
      by_cases htrue : v.isTruthy = true
      · rw [if_pos htrue]
        exact ih (h.starts (.yes hr htrue) hl.heap hyes)
      · rw [if_neg htrue]
        exact ih (h.starts (.no hr (Bool.eq_false_iff.2 htrue)) hl.heap (hno no rfl))
  | loop condition body =>
    simp only [Eval.stmt]
    exact ih (h.starts .loop hheap (L.loop h.task))
  | function name params body =>
    simp only [Eval.stmt]
    refine .step rfl (.refl hheap) (.step rfl ⟨rfl, .refl _, fun _ _ h => .inl h, hheap⟩ ?_)
    exact hdeclare _ hheap rfl (L.function h.task) (h.declares .function)
  | ret keyword value =>
    cases value with
    | none =>
      simp only [Eval.stmt]
      exact .pure hheap trivial
    | some value =>
      simp only [Eval.stmt]
      refine .bind (ih (h.starts .returned hheap (L.ret h.task))) fun v m₁ _ hl hv => ?_
      exact .pure hl.heap hv

theorem stmts_keeps {sts : List Stmt} (h : Begins L s ⟨fuel + 1, room, .stmts sts, m⟩) :
    Within L m (Eval.stmts s (fuel + 1) room sts) L.flow := by
  cases sts with
  | nil =>
    simp only [Eval.stmts]
    exact .pure h.heap trivial
  | cons st rest =>
    simp only [Eval.stmts]
    obtain ⟨hst, hrest⟩ := List.forall_mem_cons.1 h.task
    refine .bind (ih (h.starts .front h.heap hst)) fun flow m₁ hr hl hflow => ?_
    cases flow with
    | goOn => exact ih (h.starts (.next hr) hl.heap hrest)
    | returning v => exact .pure hl.heap hflow

theorem turns_keeps {condition : Expr} {body : Stmt}
    (h : Begins L s ⟨fuel + 1, room, .turns condition body, m⟩) :
    Within L m (Eval.turns s (fuel + 1) room condition body) L.flow := by
  simp only [Eval.turns]
  refine .bind (ih (h.starts .condition h.heap h.task.1)) fun v m₁ hr hl _ => ?_
  by_cases htrue : v.isTruthy = true
  · rw [if_pos htrue]
    refine .bind (ih (h.starts (.turn hr htrue) hl.heap h.task.2)) fun flow m₂ hr' hl' hflow => ?_
    cases flow with
    | goOn => exact ih (h.starts (.again hr htrue hr') hl'.heap h.task)
    | returning v => exact .pure hl'.heap hflow
  · rw [if_neg htrue]
    exact .pure hl.heap trivial

end Steps

/-- **What a run leaves behind.** A run that begins within limits keeps to them. -/
theorem Begins.keeps (hs : s.Within L) : ∀ {a : Moment}, a.Begins L s →
    Within L a.machine (a.task.run s a.fuel a.room) (L.result a.task) := by
  suffices h : ∀ fuel, KeepsTo L s fuel from fun {a} ha => h a.fuel ha
  intro fuel
  induction fuel with
  | zero =>
    intro room t m h
    cases t <;>
      simp only [Task.run, Eval.expr, Eval.exprs, Eval.apply, Eval.stmt, Eval.stmts, Eval.turns] <;>
      exact .throw h.heap trivial
  | succ fuel ih =>
    intro room t m h
    cases t with
    | expr e => exact expr_keeps ih h
    | exprs es => exact exprs_keeps ih h
    | apply paren f args => exact apply_keeps hs ih h
    | stmt st => exact stmt_keeps ih h
    | stmts sts => exact stmts_keeps ih h
    | turns condition body => exact turns_keeps ih h

end Moment

/-! ## Names -/

/-- Limits of names alone. -/
def Limits.naming (name : Nat → String → Prop) : Limits where
  expr _ := True
  stmt _ := True
  native _ := True
  name := name
  token _ := True
  fault _ := True
  blamed _ _ := trivial
  assign := id
  binary _ := ⟨trivial, trivial⟩
  operator _ _ := trivial
  logical _ := ⟨trivial, trivial⟩
  unary := id
  grouping := id
  call _ := ⟨trivial, fun _ _ => trivial⟩
  simple := id
  print := id
  var := id
  block _ _ _ := trivial
  branch _ := ⟨trivial, trivial, fun _ _ => trivial⟩
  loop _ := ⟨trivial, trivial⟩
  function _ _ _ := trivial
  ret := id

/-- A moment at or below this one binds the name in the frame. -/
def Moment.Binds (s : Setting) (a : Moment) (e : Nat) (name : String) : Prop :=
  ∃ b, Reaches s a b ∧ (b.Declares e name ∨ b.Creates s e name)

/-- **Every name is bound by a moment.** However a task ends, the names that are bound then and were
not before were bound by declarations, by calls, or by assignments to a frame without the name. -/
theorem Moment.left (s : Setting) (a : Moment) :
    (a.task.run s a.fuel a.room).Ends a.machine
      (fun _ m' => Left (.naming (a.Binds s)) a.machine m')
      fun _ m' => Left (.naming (a.Binds s)) a.machine m' := by
  have hvalue : ∀ v : Value, (Limits.naming (a.Binds s)).value v := by
    intro v
    cases v <;> first | exact fun _ _ => trivial | exact trivial
  have htask : (Limits.naming (a.Binds s)).task a.task := by
    cases a.task with
    | apply _ f args => exact ⟨trivial, hvalue f, fun v _ => hvalue v⟩
    | exprs _ | stmts _ => exact fun _ _ => trivial
    | turns _ _ => exact ⟨trivial, trivial⟩
    | expr _ | stmt _ => exact trivial
  have hkeeps := Moment.Begins.keeps ⟨fun _ => hvalue _, fun _ _ _ => trivial⟩
    (a := a) ⟨fun _ _ _ _ _ => hvalue _, htask,
      fun b hb => ⟨fun _ _ hname => ⟨b, hb, hname⟩, fun _ _ _ _ _ _ => trivial⟩⟩
  exact Eval.Ends.mono hkeeps (fun _ _ h => h.1) fun _ _ h => h.1

/-! ## Programs -/

/-- What a program leaves behind, if what all its moments do is within the limits. -/
theorem Machine.run_keeps (hs : s.Within L) {program : List Stmt} (hheap : L.heap m.heap)
    (hprogram : ∀ st ∈ program, L.stmt st)
    (hbelow : ∀ front st rest m₁, program = front ++ st :: rest →
      m.run s fuel room front = (.finished, m₁) →
      ∀ b, Reaches s ⟨fuel, room, .stmt st, m₁⟩ b → b.Abides L s) :
    Left L m (m.run s fuel room program).2 ∧
      ∀ stop, (m.run s fuel room program).1 = .stopped stop → L.stop stop := by
  induction program generalizing m with
  | nil => exact ⟨.refl hheap, fun _ hstop => nomatch hstop⟩
  | cons st rest ih =>
    obtain ⟨hst, hrest⟩ := List.forall_mem_cons.1 hprogram
    have hkeeps : Eval.Within L m (Eval.stmt s fuel room st) L.flow :=
      Moment.Begins.keeps hs (a := ⟨fuel, room, .stmt st, m⟩)
        ⟨hheap, hst, hbelow [] st rest m rfl rfl⟩
    unfold Machine.run
    cases hr : Eval.stmt s fuel room st m with
    | error stop m₁ =>
      obtain ⟨hl, hstop⟩ := hkeeps.error hr
      refine ⟨hl, ?_⟩
      rintro _ ⟨⟩
      exact hstop
    | ok flow m₁ =>
      obtain ⟨hl, -⟩ := hkeeps.ok hr
      obtain ⟨hl', hstop⟩ := ih hl.heap hrest fun front st₂ rest₂ m₂ heq hrun b hb => by
        refine hbelow (st :: front) st₂ rest₂ m₂ (by rw [heq]; rfl) ?_ b hb
        unfold Machine.run
        rw [hr]
        exact hrun
      exact ⟨hl.trans hl', hstop⟩

end Scriptlet

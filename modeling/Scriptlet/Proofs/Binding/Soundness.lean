import Scriptlet.Proofs.Binding.Placed

/-!
# Runs keep to the scopes

If a run begins in the place that its program is in, every moment of it is in the place that its
task is in (`Moment.Sound`). This is proved along `Starts`: where a task begins another one behind
a third, what the third has left is known by induction on the fuel.

**What a task leaves** (`Moment.Keeps`). However it ends, the machine is in the frame that it was
in before, the heap is extended, and its values are sound. A statement that goes on has bound the
name that it declares.
-/

namespace Scriptlet

variable {c : Chronicle}

/-! ## Keeping -/

/-- What every part of a run keeps. -/
structure Later (c : Chronicle) (m m' : Machine) : Prop where
  here : m'.here = m.here
  extended : m.heap.Extends m'.heap
  sound : m'.heap.Sound c

theorem Later.refl {m : Machine} (h : m.heap.Sound c) : Later c m m := ⟨rfl, .refl _, h⟩

theorem Later.trans {m m' m'' : Machine} (h : Later c m m') (h' : Later c m' m'') :
    Later c m m'' := ⟨h'.here.trans h.here, h.extended.trans h'.extended, h'.sound⟩

theorem Stands.later {m m' : Machine} {sites : List Region → Scopes → List Site}
    (h : Later c m m') (hs : Stands c m.heap m.here sites) : Stands c m'.heap m'.here sites := by
  rw [h.here]
  exact hs.mono (.refl c) h.extended

theorem Value.Sound.later {m m' : Machine} {v : Value} (h : Later c m m')
    (hv : v.Sound c m.heap) : v.Sound c m'.heap := hv.mono (.refl c) h.extended

namespace Eval

variable {α β : Type} {m : Machine} {Q : α → Machine → Prop} {R : β → Machine → Prop}

/-- A part of a run keeps what every part keeps, and its result satisfies a condition. -/
def Keeps (c : Chronicle) (m : Machine) (act : Eval α) (Q : α → Machine → Prop) : Prop :=
  act.Ends m (fun a m' => Later c m m' ∧ Q a m') fun _ m' => Later c m m'

theorem Keeps.pure {a : α} (h : m.heap.Sound c) (ha : Q a m) : Keeps c m (Pure.pure a) Q :=
  ⟨.refl h, ha⟩

theorem Keeps.bind {act : Eval α} {f : α → Eval β} (h : Keeps c m act Q)
    (hf : ∀ a m', act m = .ok a m' → Later c m m' → Q a m' → Keeps c m' (f a) R) :
    Keeps c m (act >>= f) R := by
  refine Ends.bind h fun a m' hr ⟨hl, ha⟩ => ?_
  exact (hf a m' hr hl ha).mono (fun _ _ ⟨hl', hb⟩ => ⟨hl.trans hl', hb⟩)
    fun _ _ hl' => hl.trans hl'

theorem Keeps.mono {act : Eval α} {Q' : α → Machine → Prop} (h : Keeps c m act Q)
    (hQ : ∀ a m', Q a m' → Q' a m') : Keeps c m act Q' :=
  Ends.mono h (fun a m' ⟨hl, ha⟩ => ⟨hl, hQ a m' ha⟩) fun _ _ hl => hl

/-- A stop leaves the machine as it is. -/
theorem Keeps.throw {stop : Stop} (h : m.heap.Sound c) :
    Keeps c m (MonadExcept.throw stop : Eval α) Q := Later.refl h

theorem Keeps.lift {result : Except Stop α} (h : m.heap.Sound c)
    (hQ : ∀ a, result = .ok a → Q a m) : Keeps c m (Eval.lift result) Q := by
  cases result with
  | ok a => exact .pure h (hQ a rfl)
  | error stop => exact .throw h

/-- Binding a name keeps what every part keeps, and then the frame holds the name. -/
theorem later_define (h : m.heap.Sound c) {v : Value} {e : Nat} {name : String}
    (hv : v.Sound c (m.heap.define e name v)) :
    Later c m { m with heap := m.heap.define e name v } :=
  ⟨rfl, Heap.extends_define .., h.define hv⟩

end Eval

/-! ## Sound moments -/

namespace Task

/-- The sites of what is to be done. Those of a function that is called are elsewhere. -/
def sites : Task → List Region → Scopes → List Site
  | expr e, rs, s => Sites.expr rs s e
  | exprs es, rs, s => Sites.exprs rs s es
  | apply _ _ _, _, _ => []
  | stmt st, rs, s => Sites.stmt rs s st
  | stmts sts, rs, s => Sites.stmts rs s sts
  | turns condition body, rs, s => Sites.expr rs s condition ++ Sites.stmt rs s body

/-- Whether what is to be done is well-formed. -/
def Shaped : Task → Prop
  | stmt st => Shape.stmt st
  | stmts sts => Shape.stmts sts
  | turns _ body => Shape.stmt body ∧ body.declares? = none
  | _ => True

/-- The values that are given to a task. -/
def values : Task → List Value
  | apply _ f args => f :: args
  | _ => []

end Task

/-- What a flow returns is sound. -/
def Flow.Sound (c : Chronicle) (h : Heap Value) : Flow → Prop
  | goOn => True
  | returning v => v.Sound c h

/-- What the result of a task is like. -/
def Task.Gives (c : Chronicle) (m : Machine) : (t : Task) → t.Result → Prop
  | .expr _, v | .apply _ _ _, v => v.Sound c m.heap
  | .exprs _, vs => ∀ v ∈ vs, v.Sound c m.heap
  | .stmt st, flow => flow.Sound c m.heap ∧
    (flow = .goOn → ∀ name, st.declares? = some name → m.heap.holds m.here name.lexeme = true)
  | .stmts _, flow | .turns _ _, flow => flow.Sound c m.heap

/-- A statement that declares nothing need only return what is sound. -/
theorem Task.Gives.plain {m : Machine} {st : Stmt} {flow : Flow} (hst : st.declares? = none)
    (h : flow.Sound c m.heap) : Task.Gives c m (.stmt st) flow := by
  refine ⟨h, fun _ name hname => ?_⟩
  rw [hst] at hname
  cases hname

namespace Moment

/-- A moment on a sound heap, in the place that its task is in. -/
structure Sound (c : Chronicle) (a : Moment) : Prop where
  heap : a.machine.heap.Sound c
  shape : a.task.Shaped
  stands : Stands c a.machine.heap a.machine.here a.task.sites
  values : ∀ v ∈ a.task.values, v.Sound c a.machine.heap

/-- What the task of a moment leaves. -/
def Keeps (c : Chronicle) (s : Setting) (a : Moment) : Prop :=
  Eval.Keeps c a.machine (a.task.run s a.fuel a.room) fun r m' => a.task.Gives c m' r

end Moment

/-! ## New frames -/

theorem Placed.framed {h h' : Heap Value} {link : Nat} {layers : List Layer} {r : Region}
    {rs : List Region} (hh : h.Sound c) (hmade : c.Made h.size r link)
    (hlink : h'.link? h.size = some link) (hext : h.Extends h')
    (hp : Placed c h link layers rs) : Placed c h' h.size (.empty :: layers) (r :: rs) :=
  .inner (Nat.ne_of_gt hh.size) hmade hlink nofun (hp.mono (.refl c) hext)

/-- The frame of a block is in the place of the block. -/
theorem Stands.block {m : Machine} {body : List Stmt} (hh : m.heap.Sound c)
    (hmade : c.Made m.heap.size (.block body) m.here)
    (hs : Stands c m.heap m.here (Sites.stmt · · (.block body))) :
    Stands c (m.framed m.here).heap (m.framed m.here).here (Sites.stmts · · body) := by
  obtain ⟨rs, layers, g, hp, hsites⟩ := hs
  exact ⟨.block body :: rs, .empty :: layers, g,
    hp.framed hh hmade (Heap.link?_add_self ..) (Heap.extends_add ..), hsites⟩

theorem Heap.extends_defineAll (h : Heap Value) (e : Nat) (ps : List Token) (vs : List Value) :
    h.Extends (h.defineAll e ps vs) := by
  induction ps generalizing h vs with
  | nil => exact .refl h
  | cons p ps ih =>
    cases vs with
    | nil => exact .refl h
    | cons v vs => exact (extends_define h e p.lexeme v).trans (ih _ vs)

theorem Heap.Sound.defineAll {h : Heap Value} (hh : h.Sound c) (e : Nat) (ps : List Token)
    {vs : List Value} (hvs : ∀ v ∈ vs, v.Sound c h) : (h.defineAll e ps vs).Sound c := by
  induction ps generalizing h vs with
  | nil => exact hh
  | cons p ps ih =>
    cases vs with
    | nil => exact hh
    | cons v vs =>
      have hext := extends_define h e p.lexeme v
      refine ih (hh.define ((hvs v List.mem_cons_self).mono (.refl c) hext)) fun w hw => ?_
      exact (hvs w (List.mem_cons_of_mem _ hw)).mono (.refl c) hext

theorem Heap.holds_defineAll {h : Heap Value} {e : Nat} (he : e < h.size) {ps : List Token}
    {vs : List Value} (hlen : vs.length = ps.length) :
    ∀ p ∈ ps, (h.defineAll e ps vs).holds e p.lexeme = true := by
  induction ps generalizing h vs with
  | nil => exact List.forall_mem_nil _
  | cons p ps ih =>
    cases vs with
    | nil => cases hlen
    | cons v vs =>
      intro q hq
      rcases List.mem_cons.1 hq with rfl | hq
      · exact (extends_defineAll _ e ps vs).holds e _ (holds_define h he q.lexeme v)
      · exact ih (by rw [size_define]; exact he) (Nat.succ.inj hlen) q hq

/-- The frame of a call is in the place of the body, and holds the parameters. -/
theorem Stands.called {m : Machine} {identity home : Nat} {d : Declaration} {args : List Value}
    (hh : m.heap.Sound c) (hmade : c.Made m.heap.size (.function d) home)
    (hlen : args.length = d.params.length)
    (hf : (Value.closure identity d home).Sound c m.heap) :
    Stands c (m.called home d.params args).heap (m.called home d.params args).here
      (Sites.stmts · · d.body) := by
  obtain ⟨-, -, rs, layers, g, hp, hsites⟩ := hf
  let h₁ := m.heap.add (some home)
  have hext : h₁.Extends (h₁.defineAll m.heap.size d.params args) := Heap.extends_defineAll ..
  have hp₁ : Placed c (h₁.defineAll m.heap.size d.params args) m.heap.size (.empty :: layers)
      (.function d :: rs) :=
    hp.framed hh hmade (hext.link_eq (Heap.link?_add_self ..))
      ((Heap.extends_add ..).trans hext)
  have hlt : m.heap.size < h₁.size := by rw [Heap.size_add]; exact Nat.lt_succ_self _
  obtain ⟨layers', g', heq, hp'⟩ := hp₁.params (g := g) (Heap.holds_defineAll hlt hlen)
  refine ⟨.function d :: rs, layers', g', hp', ?_⟩
  rw [← heq]
  exact hsites

/-! ## One moment from another -/

variable {a : Moment} {m m' : Machine} {fuel room : Nat} {t t' : Task}

/-- A part of a task is in the place of the task. -/
theorem Moment.Sound.part (ha : Sound c ⟨fuel, room, t, m⟩) (t' : Task) {fuel' room' : Nat}
    (hshape : t'.Shaped) (hvalues : t'.values = [])
    (hsub : ∀ rs s, t'.sites rs s ⊆ t.sites rs s) : Sound c ⟨fuel', room', t', m⟩ := by
  refine ⟨ha.heap, hshape, ha.stands.part fun rs s site hsite => hsub rs s hsite, ?_⟩
  intro v hv
  rw [hvalues] at hv
  cases hv

/-- A task stays in its place. -/
theorem Moment.Sound.later (ha : Sound c ⟨fuel, room, t, m⟩) (hl : Later c m m') :
    Sound c ⟨fuel, room, t, m'⟩ :=
  ⟨hl.sound, ha.shape, ha.stands.later hl, fun v hv => Value.Sound.later hl (ha.values v hv)⟩

/-- What a moment begins is in its place too, if what it begins before keeps to it. -/
theorem Moment.Sound.starts {s : Setting} {a b : Moment} (ha : a.Sound c) (hm : c.moment a)
    (hkeeps : ∀ b', Starts s a b' → b'.Sound c → b'.Keeps c s) (h : Starts s a b) :
    b.Sound c := by
  have hfront : ∀ {l l' : List Site}, l ⊆ l ++ l' := fun {l l'} => List.subset_append_left l l'
  have hback : ∀ {l l' : List Site}, l' ⊆ l ++ l' := fun {l l'} => List.subset_append_right l l'
  cases h with
  | assign | binaryLeft | logicalLeft | callee | first =>
    exact ha.part (.expr _) trivial rfl fun _ _ => hfront
  | binaryRight hr =>
    have hl := hkeeps _ .binaryLeft (ha.part (.expr _) trivial rfl fun _ _ => hfront)
    exact (ha.part (.expr _) trivial rfl fun _ _ => hback).later (hl.ok hr).1
  | logicalRight hr _ =>
    have hl := hkeeps _ .logicalLeft (ha.part (.expr _) trivial rfl fun _ _ => hfront)
    exact (ha.part (.expr _) trivial rfl fun _ _ => hback).later (hl.ok hr).1
  | unary | grouping | statement | print | returned =>
    exact ha.part (.expr _) trivial rfl fun _ _ => List.Subset.refl _
  | arguments hr =>
    have hl := hkeeps _ .callee (ha.part (.expr _) trivial rfl fun _ _ => hfront)
    exact (ha.part (.exprs _) trivial rfl fun _ _ => hback).later (hl.ok hr).1
  | call hr hr' =>
    have hcallee := hkeeps _ .callee (ha.part (.expr _) trivial rfl fun _ _ => hfront)
    obtain ⟨hl, hf⟩ := hcallee.ok hr
    have hargs := hkeeps _ (.arguments hr)
      ((ha.part (.exprs _) trivial rfl fun _ _ => hback).later hl)
    obtain ⟨hl', hvs⟩ := hargs.ok hr'
    refine ⟨hl'.sound, trivial, ?_, List.forall_mem_cons.2 ⟨Value.Sound.later hl' hf, hvs⟩⟩
    exact (ha.stands.part fun _ _ _ h => absurd h List.not_mem_nil).later (hl.trans hl')
  | others hr =>
    have hl := hkeeps _ .first (ha.part (.expr _) trivial rfl fun _ _ => hfront)
    exact (ha.part (.exprs _) trivial rfl fun _ _ => hback).later (hl.ok hr).1
  | body hlen =>
    obtain ⟨hf, hvs⟩ := List.forall_mem_cons.1 ha.values
    refine ⟨(ha.heap.add _).defineAll _ _ fun v hv => ?_, hf.2.1, ?_, List.forall_mem_nil _⟩
    · exact (hvs v hv).mono (.refl c) (Heap.extends_add ..)
    · exact Stands.called ha.heap (.call hm hlen hf.1) hlen hf
  | initialiser =>
    obtain ⟨rs, layers, g, hp, hsites⟩ := ha.stands
    obtain ⟨layers', g', heq, hp'⟩ := hp.announce (g := g) _
    refine ⟨ha.heap, trivial, ⟨rs, layers', g', hp', ?_⟩, List.forall_mem_nil _⟩
    rw [← heq]
    exact hsites
  | block =>
    exact ⟨ha.heap.add _, ha.shape, Stands.block ha.heap (.block hm) ha.stands,
      List.forall_mem_nil _⟩
  | @branch _ _ _ condition yes no =>
    cases no <;> exact ha.part (.expr _) trivial rfl fun _ _ => hfront
  | @yes _ _ _ _ condition yes no _ hr _ =>
    cases no with
    | none =>
      have hl := hkeeps _ .branch (ha.part (.expr _) trivial rfl fun _ _ => hfront)
      exact (ha.part (.stmt _) ha.shape.1 rfl fun _ _ => hback).later (hl.ok hr).1
    | some no =>
      have hl := hkeeps _ .branch (ha.part (.expr _) trivial rfl fun _ _ => hfront)
      exact (ha.part (.stmt _) ha.shape.1.1 rfl fun _ _ =>
        List.Subset.trans hfront hback).later (hl.ok hr).1
  | no hr _ =>
    have hl := hkeeps _ .branch (ha.part (.expr _) trivial rfl fun _ _ => hfront)
    exact (ha.part (.stmt _) ha.shape.2.1 rfl fun _ _ =>
      List.Subset.trans hback hback).later (hl.ok hr).1
  | loop => exact ha.part (.turns _ _) ha.shape rfl fun _ _ => List.Subset.refl _
  | front => exact ha.part (.stmt _) ha.shape.1 rfl fun _ _ => hfront
  | next hr =>
    have hst := hkeeps _ .front (ha.part (.stmt _) ha.shape.1 rfl fun _ _ => hfront)
    obtain ⟨hl, -, hbound⟩ := hst.ok hr
    obtain ⟨rs, layers, g, hp, hall⟩ := ha.stands.later hl
    obtain ⟨layers', g', heq, hp'⟩ := hp.behind (g := g) (hbound rfl)
    refine ⟨hl.sound, ha.shape.2, ⟨rs, layers', g', hp', fun site hsite => hall site ?_⟩,
      List.forall_mem_nil _⟩
    rw [← heq] at hsite
    exact hback hsite
  | condition => exact ha.part (.expr _) trivial rfl fun _ _ => hfront
  | turn hr _ =>
    have hl := hkeeps _ .condition (ha.part (.expr _) trivial rfl fun _ _ => hfront)
    exact (ha.part (.stmt _) ha.shape.1 rfl fun _ _ => hback).later (hl.ok hr).1
  | again hr hc hr' =>
    have hl := hkeeps _ .condition (ha.part (.expr _) trivial rfl fun _ _ => hfront)
    have hl' := hkeeps _ (.turn hr hc)
      ((ha.part (.stmt _) ha.shape.1 rfl fun _ _ => hback).later (hl.ok hr).1)
    exact ((ha.part (.turns _ _) ha.shape rfl fun _ _ => List.Subset.refl _).later
      (hl.ok hr).1).later (hl'.ok hr').1

/-! ## What a moment keeps -/

theorem Operator.sound_unary {op : Token} {v w : Value} {h : Heap Value}
    (hr : Operator.unary op v = .ok w) : w.Sound c h := by
  unfold unary at hr
  split at hr
  · cases hr
    trivial
  · split at hr <;> cases hr
    trivial

theorem Operator.sound_binary {op : Token} {v w u : Value} {h : Heap Value}
    (hr : Operator.binary op v w = .ok u) : u.Sound c h := by
  unfold binary plus arithmetic at hr
  repeat' split at hr
  all_goals cases hr <;> trivial

/-- Answers from outside are no closures. -/
def Setting.Plain (s : Setting) : Prop :=
  ∀ answers n args v, s.answer answers n args = some v → ∀ c h, v.Sound c h

namespace Eval

variable {α : Type} {Q : α → Machine → Prop}

theorem keeps_currentFrame (h : m.heap.Sound c) :
    Keeps c m currentFrame fun e m' => m.here = e ∧ m = m' := ⟨.refl h, rfl, rfl⟩

theorem keeps_newIdentity (h : m.heap.Sound c) : Keeps c m newIdentity
    fun i m' => m.closures = i ∧ { m with closures := m.closures + 1 } = m' :=
  ⟨⟨rfl, .refl _, h⟩, rfl, rfl⟩

theorem keeps_newFrame (h : m.heap.Sound c) (link : Nat) : Keeps c m (newFrame link)
    fun e m' => e = m.heap.size ∧ m' = { m with heap := m.heap.add (some link) } :=
  ⟨⟨rfl, Heap.extends_add .., h.add _⟩, rfl, rfl⟩

theorem keeps_defineAll (h : m.heap.Sound c) {vs : List Value} (hvs : ∀ v ∈ vs, v.Sound c m.heap)
    (e : Nat) (ps : List Token) : Keeps c m (Eval.defineAll e ps vs)
      fun _ m' => m' = { m with heap := m.heap.defineAll e ps vs } := by
  unfold Keeps Ends
  rw [defineAll_eq]
  exact ⟨⟨rfl, Heap.extends_defineAll .., h.defineAll e ps hvs⟩, rfl⟩

theorem keeps_ask (h : m.heap.Sound c) {s : Setting} (hplain : s.Plain) (n : Native)
    (args : List Value) : Keeps c m (ask s n args) fun v m' => v.Sound c m'.heap := by
  unfold Keeps Ends ask
  cases hv : s.answer m.answers n args with
  | none => exact Later.refl h
  | some v => exact ⟨⟨rfl, .refl _, h⟩, hplain _ _ _ _ hv _ _⟩

theorem keeps_print (h : m.heap.Sound c) (line : String) :
    Keeps c m (print line) fun _ _ => True := ⟨⟨rfl, .refl _, h⟩, trivial⟩

/-- A declaration has bound its name when it goes on. -/
theorem keeps_declare {st : Stmt} {name : Token} {v : Value}
    {sites : List Region → Scopes → List Site} (h : m.heap.Sound c)
    (hs : Stands c m.heap m.here sites) (hv : v.Sound c (m.heap.define m.here name.lexeme v))
    (hst : st.declares? = some name) :
    Keeps c m (do
      Eval.define m.here name.lexeme v
      return Flow.goOn) fun flow m' => Task.Gives c m' (.stmt st) flow := by
  obtain ⟨rs, layers, g, hp, -⟩ := hs
  refine ⟨later_define h hv, trivial, fun _ name' hname => ?_⟩
  obtain rfl := Option.some.inj (hst.symm.trans hname)
  exact Heap.holds_define _ (hp.lt h) _ _

/-- The closure that a declaration makes is sound where its name is bound to it. -/
theorem sound_closure {fuel room : Nat} {name : Token} {params : List Token} {body : List Stmt}
    (h : m.heap.Sound c) (hshape : Shape.stmts body)
    (hs : Stands c m.heap m.here (Sites.stmt · · (.function name params body)))
    (hm : c.moment ⟨fuel + 1, room, .stmt (.function name params body), m⟩) :
    let v := Value.closure m.closures ⟨name, params, body⟩ m.here
    v.Sound c (m.heap.define m.here name.lexeme v) := by
  intro v
  obtain ⟨rs, layers, g, hp, hsites⟩ := hs
  have hname := Heap.holds_define m.heap (hp.lt h) name.lexeme v
  have hp' := hp.mono (.refl c) (Heap.extends_define m.heap m.here name.lexeme v)
  obtain ⟨layers', g', heq, hp''⟩ := hp'.settle (g := g) hname
  refine ⟨⟨fuel, room, m, hm, rfl, rfl⟩, hshape, rs, layers', g', hp'', ?_⟩
  rw [← heq]
  exact hsites

/-- In another frame, what is kept is kept for the frame that is come back to. -/
theorem Keeps.inside {act : Eval α} {frame : Nat} (h : Keeps c { m with here := frame } act Q)
    (hQ : ∀ a m', Q a m' → Q a { m' with here := m.here }) : Keeps c m (inside frame act) Q :=
  Ends.inside (Ends.mono h (fun a m' ⟨hl, ha⟩ => ⟨⟨rfl, hl.extended, hl.sound⟩, hQ a m' ha⟩)
    fun _ _ hl => ⟨rfl, hl.extended, hl.sound⟩)

/-- What is read from a sound heap is sound. -/
theorem keeps_readVariable (h : m.heap.Sound c) (s : Setting) (name : Token) (serial : Nat) :
    Keeps c m (readVariable s name serial) fun v m' => v.Sound c m'.heap := by
  have hnearest : ∀ frame, Keeps c m (readNearest frame name) fun v m' => v.Sound c m'.heap := by
    intro frame
    unfold Keeps Ends readNearest
    cases hv : m.heap.get? frame name.lexeme with
    | none => exact .refl h
    | some v =>
      obtain ⟨e, -, he⟩ := Option.bind_eq_some_iff.1 hv
      exact ⟨.refl h, h.values e _ v he⟩
  unfold readVariable
  split
  · exact hnearest _
  · next depth _ =>
    unfold Keeps Ends readOutward Heap.getAt
    cases m.heap.outward? depth m.here with
    | none => exact Later.refl h
    | some e =>
      cases hv : m.heap.local? e name.lexeme with
      | none =>
        simp only [hv]
        exact Later.refl h
      | some v =>
        simp only [hv]
        exact ⟨.refl h, h.values e _ v hv⟩
  · refine Keeps.bind (keeps_currentFrame h) ?_
    rintro _ _ - - ⟨rfl, rfl⟩
    exact hnearest _

theorem keeps_writeVariable (h : m.heap.Sound c) (s : Setting) (name : Token) (serial : Nat)
    {v : Value} (hv : v.Sound c m.heap) :
    Keeps c m (writeVariable s name serial v) fun _ _ => True := by
  have hnearest : ∀ frame, Keeps c m (writeNearest frame name v) fun _ _ => True := by
    intro frame
    unfold Keeps Ends writeNearest Heap.assign?
    cases m.heap.holder? frame name.lexeme with
    | none => exact .refl h
    | some e => exact ⟨later_define h (hv.mono (.refl c) (Heap.extends_define ..)), trivial⟩
  unfold writeVariable
  split
  · exact hnearest _
  · next depth _ =>
    unfold Keeps Ends writeOutward Heap.assignAt?
    cases m.heap.outward? depth m.here with
    | none => exact .refl h
    | some e => exact ⟨later_define h (hv.mono (.refl c) (Heap.extends_define ..)), trivial⟩
  · refine Keeps.bind (keeps_currentFrame h) ?_
    rintro _ _ - - ⟨rfl, rfl⟩
    exact hnearest _

end Eval

/-! ## One step of each kind -/

namespace Moment

open Eval (Keeps)

variable {s : Setting}

/-- What a moment begins directly keeps to its place. -/
def Below (c : Chronicle) (s : Setting) (a : Moment) : Prop := ∀ b, Starts s a b → b.Keeps c s

theorem keeps_expr {e : Expr} (ha : Sound c ⟨fuel + 1, room, .expr e, m⟩)
    (hsub : Below c s ⟨fuel + 1, room, .expr e, m⟩) :
    Moment.Keeps c s ⟨fuel + 1, room, .expr e, m⟩ := by
  unfold Moment.Keeps
  cases e with
  | literal value =>
    simp only [Task.run, Eval.expr]
    exact Keeps.pure ha.heap (by cases value <;> exact trivial)
  | ref name serial =>
    simp only [Task.run, Eval.expr]
    exact Eval.keeps_readVariable ha.heap s name serial
  | assign name value serial =>
    simp only [Task.run, Eval.expr]
    refine Keeps.bind (hsub _ .assign) fun v m₁ _ hl hv => ?_
    refine Keeps.bind (Eval.keeps_writeVariable hl.sound s name serial hv) fun _ m₂ _ hl' _ => ?_
    exact Keeps.pure hl'.sound (Value.Sound.later hl' hv)
  | binary lhs op rhs =>
    simp only [Task.run, Eval.expr]
    refine Keeps.bind (hsub _ .binaryLeft) fun v m₁ hr hl hv => ?_
    refine Keeps.bind (hsub _ (.binaryRight hr)) fun w m₂ _ hl' _ => ?_
    exact Keeps.lift hl'.sound fun u hu => Operator.sound_binary hu
  | logical lhs op rhs =>
    simp only [Task.run, Eval.expr]
    refine Keeps.bind (hsub _ .logicalLeft) fun v m₁ hr hl hv => ?_
    split
    · exact Keeps.pure hl.sound hv
    · next hdecides => exact hsub _ (.logicalRight hr (Bool.eq_false_iff.2 hdecides))
  | unary op arg =>
    simp only [Task.run, Eval.expr]
    refine Keeps.bind (hsub _ .unary) fun v m₁ _ hl _ => ?_
    exact Keeps.lift hl.sound fun u hu => Operator.sound_unary hu
  | grouping inner =>
    simp only [Task.run, Eval.expr]
    exact hsub _ .grouping
  | call callee paren args =>
    simp only [Task.run, Eval.expr]
    refine Keeps.bind (hsub _ .callee) fun f m₁ hr _ _ => ?_
    refine Keeps.bind (hsub _ (.arguments hr)) fun vs m₂ hr' _ _ => ?_
    exact hsub _ (.call hr hr')

theorem keeps_exprs {es : List Expr} (ha : Sound c ⟨fuel + 1, room, .exprs es, m⟩)
    (hsub : Below c s ⟨fuel + 1, room, .exprs es, m⟩) :
    Moment.Keeps c s ⟨fuel + 1, room, .exprs es, m⟩ := by
  unfold Moment.Keeps
  cases es with
  | nil =>
    simp only [Task.run, Eval.exprs]
    exact Keeps.pure ha.heap fun _ hv => absurd hv List.not_mem_nil
  | cons e rest =>
    simp only [Task.run, Eval.exprs]
    refine Keeps.bind (hsub _ .first) fun v m₁ hr _ hv => ?_
    refine Keeps.bind (hsub _ (.others hr)) fun vs m₂ _ hl' hvs => ?_
    exact Keeps.pure hl'.sound (List.forall_mem_cons.2 ⟨Value.Sound.later hl' hv, hvs⟩)

theorem keeps_apply (hplain : s.Plain) {paren : Token} {f : Value} {args : List Value}
    (ha : Sound c ⟨fuel + 1, room, .apply paren f args, m⟩)
    (hsub : Below c s ⟨fuel + 1, room, .apply paren f args, m⟩) :
    Moment.Keeps c s ⟨fuel + 1, room, .apply paren f args, m⟩ := by
  unfold Moment.Keeps
  cases f with
  | closure identity d home =>
    unfold Task.run Eval.apply
    dsimp only
    split
    · exact Keeps.throw ha.heap
    · next hlen =>
      cases room with
      | zero => exact Keeps.throw ha.heap
      | succ room =>
        refine Keeps.bind (Eval.keeps_newFrame ha.heap home) ?_
        rintro _ _ - hl ⟨rfl, rfl⟩
        have hargs : ∀ v ∈ args, v.Sound c (m.heap.add (some home)) := fun v hv =>
          (ha.values v (List.mem_cons_of_mem _ hv)).mono (.refl c) hl.extended
        refine Keeps.bind (Eval.keeps_defineAll hl.sound hargs _ _) ?_
        rintro _ _ - hl' rfl
        refine Keeps.bind (Eval.Keeps.inside (hsub _ (.body (not_not.1 hlen))) fun _ _ h => h) ?_
        intro flow m₁ _ hl'' hflow
        refine Keeps.pure hl''.sound ?_
        cases flow with
        | goOn => trivial
        | returning v => exact hflow
  | native n =>
    unfold Task.run Eval.apply
    dsimp only
    split
    · exact Keeps.throw ha.heap
    · exact Eval.keeps_ask ha.heap hplain n args
  | _ =>
    unfold Task.run Eval.apply
    exact Keeps.throw ha.heap

theorem keeps_stmt {st : Stmt} (ha : Sound c ⟨fuel + 1, room, .stmt st, m⟩)
    (hm : c.moment ⟨fuel + 1, room, .stmt st, m⟩)
    (hsub : Below c s ⟨fuel + 1, room, .stmt st, m⟩) :
    Moment.Keeps c s ⟨fuel + 1, room, .stmt st, m⟩ := by
  unfold Moment.Keeps
  cases st with
  | expr e =>
    simp only [Task.run, Eval.stmt]
    refine Keeps.bind (hsub _ .statement) fun v m₁ _ hl _ => ?_
    exact Keeps.pure hl.sound (.plain rfl trivial)
  | print keyword e =>
    simp only [Task.run, Eval.stmt]
    refine Keeps.bind (hsub _ .print) fun v m₁ _ hl _ => ?_
    refine Keeps.bind (Eval.keeps_print hl.sound v.text) fun _ m₂ _ hl' _ => ?_
    exact Keeps.pure hl'.sound (.plain rfl trivial)
  | var name init =>
    cases init with
    | none =>
      simp only [Task.run, Eval.stmt]
      refine Keeps.bind (Eval.keeps_currentFrame ha.heap) ?_
      rintro _ _ - - ⟨rfl, rfl⟩
      exact Eval.keeps_declare ha.heap ha.stands trivial rfl
    | some init =>
      simp only [Task.run, Eval.stmt]
      refine Keeps.bind (hsub _ .initialiser) fun v m₁ _ hl hv => ?_
      refine Keeps.bind (Eval.keeps_currentFrame hl.sound) ?_
      rintro _ _ - - ⟨rfl, rfl⟩
      exact Eval.keeps_declare hl.sound (ha.stands.later hl)
        (hv.mono (.refl c) (Heap.extends_define ..)) rfl
  | block body =>
    simp only [Task.run, Eval.stmt]
    refine Keeps.bind (Eval.keeps_currentFrame ha.heap) ?_
    rintro _ _ - - ⟨rfl, rfl⟩
    refine Keeps.bind (Eval.keeps_newFrame ha.heap m.here) ?_
    rintro _ _ - - ⟨rfl, rfl⟩
    refine Keeps.mono (Eval.Keeps.inside (hsub _ .block) fun _ _ h => h) fun flow m₁ hflow => ?_
    exact .plain rfl hflow
  | branch condition yes no =>
    cases no with
    | none =>
      simp only [Task.run, Eval.stmt]
      refine Keeps.bind (hsub _ .branch) fun v m₁ hr hl _ => ?_
      split
      · next htrue => exact Keeps.mono (hsub _ (.yes hr htrue)) fun _ _ h => .plain rfl h.1
      · exact Keeps.pure hl.sound (.plain rfl trivial)
    | some no =>
      simp only [Task.run, Eval.stmt]
      refine Keeps.bind (hsub _ .branch) fun v m₁ hr _ _ => ?_
      split
      · next htrue => exact Keeps.mono (hsub _ (.yes hr htrue)) fun _ _ h => .plain rfl h.1
      · next hfalse =>
        have hno := hsub _ (.no hr (Bool.eq_false_iff.2 hfalse))
        exact Keeps.mono hno fun _ _ h => .plain rfl h.1
  | loop condition body =>
    simp only [Task.run, Eval.stmt]
    exact Keeps.mono (hsub _ .loop) fun _ _ h => .plain rfl h
  | function name params body =>
    simp only [Task.run, Eval.stmt]
    refine Keeps.bind (Eval.keeps_currentFrame ha.heap) ?_
    rintro _ _ - - ⟨rfl, rfl⟩
    refine Keeps.bind (Eval.keeps_newIdentity ha.heap) ?_
    rintro _ _ - hl ⟨rfl, rfl⟩
    exact Eval.keeps_declare (m := { m with closures := m.closures + 1 }) hl.sound ha.stands
      (Eval.sound_closure ha.heap ha.shape ha.stands hm) rfl
  | ret keyword value =>
    cases value with
    | none =>
      simp only [Task.run, Eval.stmt]
      exact Keeps.pure ha.heap (.plain rfl trivial)
    | some value =>
      simp only [Task.run, Eval.stmt]
      refine Keeps.bind (hsub _ .returned) fun v m₁ _ hl hv => ?_
      exact Keeps.pure hl.sound (.plain rfl hv)

theorem keeps_stmts {sts : List Stmt} (ha : Sound c ⟨fuel + 1, room, .stmts sts, m⟩)
    (hsub : Below c s ⟨fuel + 1, room, .stmts sts, m⟩) :
    Moment.Keeps c s ⟨fuel + 1, room, .stmts sts, m⟩ := by
  unfold Moment.Keeps
  cases sts with
  | nil =>
    simp only [Task.run, Eval.stmts]
    exact Keeps.pure ha.heap trivial
  | cons st rest =>
    simp only [Task.run, Eval.stmts]
    refine Keeps.bind (hsub _ .front) fun flow m₁ hr hl hflow => ?_
    cases flow with
    | goOn => exact hsub _ (.next hr)
    | returning v => exact Keeps.pure hl.sound hflow.1

theorem keeps_turns {condition : Expr} {body : Stmt}
    (hsub : Below c s ⟨fuel + 1, room, .turns condition body, m⟩) :
    Moment.Keeps c s ⟨fuel + 1, room, .turns condition body, m⟩ := by
  unfold Moment.Keeps
  simp only [Task.run, Eval.turns]
  refine Keeps.bind (hsub _ .condition) fun v m₁ hr hl _ => ?_
  split
  · next htrue =>
    refine Keeps.bind (hsub _ (.turn hr htrue)) fun flow m₂ hr' hl' hflow => ?_
    cases flow with
    | goOn => exact hsub _ (.again hr htrue hr')
    | returning v => exact Keeps.pure hl'.sound hflow.1
  · exact Keeps.pure hl.sound trivial

/-- **Runs keep to the scopes.** A moment in the place that its task is in keeps to it. -/
theorem Sound.keeps (hplain : s.Plain) : ∀ (fuel room : Nat) (t : Task) (m : Machine),
    Sound c ⟨fuel, room, t, m⟩ → (∀ b, Reaches s ⟨fuel, room, t, m⟩ b → c.moment b) →
    Moment.Keeps c s ⟨fuel, room, t, m⟩ := by
  intro fuel
  induction fuel with
  | zero =>
    intro room t m ha _
    unfold Moment.Keeps
    cases t <;>
      simp only [Task.run, Eval.expr, Eval.exprs, Eval.apply, Eval.stmt, Eval.stmts, Eval.turns] <;>
      exact Keeps.throw ha.heap
  | succ fuel ih =>
    intro room t m ha hm
    have hbelow : ∀ b, Starts s ⟨fuel + 1, room, t, m⟩ b → b.Sound c → b.Keeps c s := by
      rintro ⟨fuel', room', t', m'⟩ hb hsound
      obtain rfl := Nat.succ.inj hb.fuel_eq
      exact ih room' t' m' hsound fun b' hb' => hm b' (.head hb hb')
    have hsub : Below c s ⟨fuel + 1, room, t, m⟩ := fun b hb =>
      hbelow b hb (ha.starts (hm _ .refl) hbelow hb)
    cases t with
    | expr e => exact keeps_expr ha hsub
    | exprs es => exact keeps_exprs ha hsub
    | apply paren f args => exact keeps_apply hplain ha hsub
    | stmt st => exact keeps_stmt ha (hm _ .refl) hsub
    | stmts sts => exact keeps_stmts ha hsub
    | turns condition body => exact keeps_turns hsub

/-- Every moment below one that is in its place is in its place. -/
theorem Sound.reaches (hplain : s.Plain) {b : Moment} (ha : a.Sound c)
    (hm : ∀ b, Reaches s a b → c.moment b) (h : Reaches s a b) : b.Sound c := by
  induction h with
  | refl => exact ha
  | tail hab hbc ih =>
    refine ih.starts (hm _ hab) (fun b' hb' hsound => ?_) hbc
    exact hsound.keeps hplain _ _ _ _ fun b'' hb'' => hm b'' ((hab.tail hb').trans hb'')

/-- When the value of an assignment is there, the frames are in the place of the assignment. -/
theorem Sound.assignment (hplain : s.Plain) {name : Token} {value : Expr} {serial : Nat} {v : Value}
    {m' : Machine} (ha : Sound c ⟨fuel + 1, room, .expr (.assign name value serial), m⟩)
    (hm : ∀ b, Reaches s ⟨fuel, room, .expr value, m⟩ b → c.moment b)
    (hr : Eval.expr s fuel room value m = .ok v m') :
    ∃ rs layers g, Placed c m'.heap m'.here layers rs ∧
      c.site ⟨serial, name, true, ⟨layers, .globals g⟩, rs⟩ := by
  obtain ⟨rs, layers, g, hp, hsites⟩ := ha.stands
  have hvalue : Sound c ⟨fuel, room, .expr value, m⟩ :=
    ha.part (.expr value) trivial rfl fun _ _ => List.subset_append_left ..
  have hkeeps := hvalue.keeps hplain fuel room _ m hm
  have hl := (hkeeps.ok hr).1
  refine ⟨rs, layers, g, ?_, hsites _ (List.mem_append_right _ (List.mem_singleton_self _))⟩
  rw [hl.here]
  exact hp.mono (.refl c) hl.extended

end Moment

end Scriptlet

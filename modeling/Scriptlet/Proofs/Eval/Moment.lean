import Mathlib.Logic.Relation
import Scriptlet.Eval.Run

/-!
# The moments of a run

A run is a tree: to do one thing, a machine does others one after the other. A `Moment` is a place
in this tree: a task that is begun, and the machine that begins it. `Starts` says which moments
come directly below one; those further below are reached along it (`Reaches`).

A task that is begun behind another one begins on the machine that the other has left. So `Starts`
holds the run itself, and what is shown of all moments is shown of everything that is evaluated,
also of what is evaluated before the run stops.

**Ends.** What a part of a run leads to is told by two conditions, one for the result and one for a
stop (`Eval.Ends`). Parts are put together by `Ends.bind`, which also keeps how the first part has
ended.
-/

namespace Scriptlet

/-- Something that a machine is to do. -/
inductive Task where
  | expr (e : Expr)
  | exprs (es : List Expr)
  /-- The call of a value. -/
  | apply (paren : Token) (f : Value) (args : List Value)
  | stmt (st : Stmt)
  | stmts (sts : List Stmt)
  /-- The turns of a loop. -/
  | turns (condition : Expr) (body : Stmt)

namespace Task

/-- What a task results in. -/
abbrev Result : Task → Type
  | expr _ | apply _ _ _ => Value
  | exprs _ => List Value
  | stmt _ | stmts _ | turns _ _ => Flow

/-- Does a task. -/
def run (s : Setting) (fuel room : Nat) : (t : Task) → Eval t.Result
  | expr e => Eval.expr s fuel room e
  | exprs es => Eval.exprs s fuel room es
  | apply paren f args => Eval.apply s fuel room paren f args
  | stmt st => Eval.stmt s fuel room st
  | stmts sts => Eval.stmts s fuel room sts
  | turns condition body => Eval.turns s fuel room condition body

end Task

/-- A task that is begun, and the machine that begins it. -/
structure Moment where
  fuel : Nat
  room : Nat
  task : Task
  machine : Machine

/-- Binds parameters to arguments in a frame, in order. -/
def Heap.defineAll (h : Heap Value) (e : Nat) : List Token → List Value → Heap Value
  | p :: ps, v :: vs => (h.define e p.lexeme v).defineAll e ps vs
  | _, _ => h

namespace Machine

/-- The machine in a new frame with this link. -/
def framed (m : Machine) (link : Nat) : Machine :=
  { m with heap := m.heap.add (some link), here := m.heap.size }

/-- The machine in the new frame of a call. -/
def called (m : Machine) (link : Nat) (params : List Token) (args : List Value) : Machine :=
  { m with heap := (m.heap.add (some link)).defineAll m.heap.size params args,
           here := m.heap.size }

end Machine

open Eval in
/-- To do the first thing, a machine directly begins the second. -/
inductive Starts (s : Setting) : Moment → Moment → Prop
  | assign {fuel room : Nat} {m : Machine} {name : Token} {value : Expr} {serial : Nat} :
      Starts s ⟨fuel + 1, room, .expr (.assign name value serial), m⟩ ⟨fuel, room, .expr value, m⟩
  | binaryLeft {fuel room : Nat} {m : Machine} {lhs rhs : Expr} {op : Token} :
      Starts s ⟨fuel + 1, room, .expr (.binary lhs op rhs), m⟩ ⟨fuel, room, .expr lhs, m⟩
  | binaryRight {fuel room : Nat} {m m₁ : Machine} {lhs rhs : Expr} {op : Token} {a : Value} :
      expr s fuel room lhs m = .ok a m₁ →
      Starts s ⟨fuel + 1, room, .expr (.binary lhs op rhs), m⟩ ⟨fuel, room, .expr rhs, m₁⟩
  | logicalLeft {fuel room : Nat} {m : Machine} {lhs rhs : Expr} {op : Token} :
      Starts s ⟨fuel + 1, room, .expr (.logical lhs op rhs), m⟩ ⟨fuel, room, .expr lhs, m⟩
  | logicalRight {fuel room : Nat} {m m₁ : Machine} {lhs rhs : Expr} {op : Token} {a : Value} :
      expr s fuel room lhs m = .ok a m₁ → Operator.decides op a = false →
      Starts s ⟨fuel + 1, room, .expr (.logical lhs op rhs), m⟩ ⟨fuel, room, .expr rhs, m₁⟩
  | unary {fuel room : Nat} {m : Machine} {op : Token} {arg : Expr} :
      Starts s ⟨fuel + 1, room, .expr (.unary op arg), m⟩ ⟨fuel, room, .expr arg, m⟩
  | grouping {fuel room : Nat} {m : Machine} {inner : Expr} :
      Starts s ⟨fuel + 1, room, .expr (.grouping inner), m⟩ ⟨fuel, room, .expr inner, m⟩
  | callee {fuel room : Nat} {m : Machine} {callee : Expr} {paren : Token} {args : List Expr} :
      Starts s ⟨fuel + 1, room, .expr (.call callee paren args), m⟩ ⟨fuel, room, .expr callee, m⟩
  | arguments {fuel room : Nat} {m m₁ : Machine} {callee : Expr} {paren : Token}
      {args : List Expr} {f : Value} :
      expr s fuel room callee m = .ok f m₁ →
      Starts s ⟨fuel + 1, room, .expr (.call callee paren args), m⟩ ⟨fuel, room, .exprs args, m₁⟩
  | call {fuel room : Nat} {m m₁ m₂ : Machine} {callee : Expr} {paren : Token}
      {args : List Expr} {f : Value} {vs : List Value} :
      expr s fuel room callee m = .ok f m₁ → exprs s fuel room args m₁ = .ok vs m₂ →
      Starts s ⟨fuel + 1, room, .expr (.call callee paren args), m⟩
        ⟨fuel, room, .apply paren f vs, m₂⟩
  | first {fuel room : Nat} {m : Machine} {e : Expr} {rest : List Expr} :
      Starts s ⟨fuel + 1, room, .exprs (e :: rest), m⟩ ⟨fuel, room, .expr e, m⟩
  | others {fuel room : Nat} {m m₁ : Machine} {e : Expr} {rest : List Expr} {v : Value} :
      expr s fuel room e m = .ok v m₁ →
      Starts s ⟨fuel + 1, room, .exprs (e :: rest), m⟩ ⟨fuel, room, .exprs rest, m₁⟩
  | body {fuel room : Nat} {m : Machine} {paren : Token} {identity home : Nat}
      {d : Declaration} {vs : List Value} :
      vs.length = d.params.length →
      Starts s ⟨fuel + 1, room + 1, .apply paren (.closure identity d home) vs, m⟩
        ⟨fuel, room, .stmts d.body, m.called home d.params vs⟩
  | statement {fuel room : Nat} {m : Machine} {e : Expr} :
      Starts s ⟨fuel + 1, room, .stmt (.expr e), m⟩ ⟨fuel, room, .expr e, m⟩
  | print {fuel room : Nat} {m : Machine} {keyword : Token} {e : Expr} :
      Starts s ⟨fuel + 1, room, .stmt (.print keyword e), m⟩ ⟨fuel, room, .expr e, m⟩
  | initialiser {fuel room : Nat} {m : Machine} {name : Token} {init : Expr} :
      Starts s ⟨fuel + 1, room, .stmt (.var name (some init)), m⟩ ⟨fuel, room, .expr init, m⟩
  | block {fuel room : Nat} {m : Machine} {body : List Stmt} :
      Starts s ⟨fuel + 1, room, .stmt (.block body), m⟩
        ⟨fuel, room, .stmts body, m.framed m.here⟩
  | branch {fuel room : Nat} {m : Machine} {condition : Expr} {yes : Stmt} {no : Option Stmt} :
      Starts s ⟨fuel + 1, room, .stmt (.branch condition yes no), m⟩
        ⟨fuel, room, .expr condition, m⟩
  | yes {fuel room : Nat} {m m₁ : Machine} {condition : Expr} {yes : Stmt} {no : Option Stmt}
      {c : Value} :
      expr s fuel room condition m = .ok c m₁ → c.isTruthy = true →
      Starts s ⟨fuel + 1, room, .stmt (.branch condition yes no), m⟩ ⟨fuel, room, .stmt yes, m₁⟩
  | no {fuel room : Nat} {m m₁ : Machine} {condition : Expr} {yes no : Stmt} {c : Value} :
      expr s fuel room condition m = .ok c m₁ → c.isTruthy = false →
      Starts s ⟨fuel + 1, room, .stmt (.branch condition yes (some no)), m⟩
        ⟨fuel, room, .stmt no, m₁⟩
  | loop {fuel room : Nat} {m : Machine} {condition : Expr} {body : Stmt} :
      Starts s ⟨fuel + 1, room, .stmt (.loop condition body), m⟩
        ⟨fuel, room, .turns condition body, m⟩
  | returned {fuel room : Nat} {m : Machine} {keyword : Token} {value : Expr} :
      Starts s ⟨fuel + 1, room, .stmt (.ret keyword (some value)), m⟩
        ⟨fuel, room, .expr value, m⟩
  | front {fuel room : Nat} {m : Machine} {st : Stmt} {rest : List Stmt} :
      Starts s ⟨fuel + 1, room, .stmts (st :: rest), m⟩ ⟨fuel, room, .stmt st, m⟩
  | next {fuel room : Nat} {m m₁ : Machine} {st : Stmt} {rest : List Stmt} :
      stmt s fuel room st m = .ok .goOn m₁ →
      Starts s ⟨fuel + 1, room, .stmts (st :: rest), m⟩ ⟨fuel, room, .stmts rest, m₁⟩
  | condition {fuel room : Nat} {m : Machine} {condition : Expr} {body : Stmt} :
      Starts s ⟨fuel + 1, room, .turns condition body, m⟩ ⟨fuel, room, .expr condition, m⟩
  | turn {fuel room : Nat} {m m₁ : Machine} {condition : Expr} {body : Stmt} {c : Value} :
      expr s fuel room condition m = .ok c m₁ → c.isTruthy = true →
      Starts s ⟨fuel + 1, room, .turns condition body, m⟩ ⟨fuel, room, .stmt body, m₁⟩
  | again {fuel room : Nat} {m m₁ m₂ : Machine} {condition : Expr} {body : Stmt} {c : Value} :
      expr s fuel room condition m = .ok c m₁ → c.isTruthy = true →
      stmt s fuel room body m₁ = .ok .goOn m₂ →
      Starts s ⟨fuel + 1, room, .turns condition body, m⟩ ⟨fuel, room, .turns condition body, m₂⟩

/-- Below the first moment, or at it, is the second. -/
abbrev Reaches (s : Setting) : Moment → Moment → Prop := Relation.ReflTransGen (Starts s)

theorem Starts.fuel_eq {s : Setting} {a b : Moment} (h : Starts s a b) : a.fuel = b.fuel + 1 := by
  cases h <;> rfl

/-! ## How parts of a run end -/

namespace Eval

variable {α β : Type}

theorem bind_ok {act : Eval α} {f : α → Eval β} {m m' : Machine} {a : α} (h : act m = .ok a m') :
    (act >>= f) m = f a m' := by
  show EStateM.bind act f m = _
  rw [EStateM.bind, h]

theorem bind_error {act : Eval α} {f : α → Eval β} {m m' : Machine} {stop : Stop}
    (h : act m = .error stop m') : (act >>= f) m = .error stop m' := by
  show EStateM.bind act f m = _
  rw [EStateM.bind, h]

/-- A result satisfies one condition, and a stop another. -/
def Ends (act : Eval α) (m : Machine) (Q : α → Machine → Prop) (E : Stop → Machine → Prop) :
    Prop :=
  match act m with
  | .ok a m' => Q a m'
  | .error stop m' => E stop m'

variable {act : Eval α} {m : Machine} {Q Q' : α → Machine → Prop} {E E' : Stop → Machine → Prop}

theorem Ends.ok (h : act.Ends m Q E) {a : α} {m' : Machine} (hr : act m = .ok a m') : Q a m' := by
  unfold Ends at h
  rw [hr] at h
  exact h

theorem Ends.error (h : act.Ends m Q E) {stop : Stop} {m' : Machine}
    (hr : act m = .error stop m') : E stop m' := by
  unfold Ends at h
  rw [hr] at h
  exact h

theorem Ends.intro (hok : ∀ a m', act m = .ok a m' → Q a m')
    (herror : ∀ stop m', act m = .error stop m' → E stop m') : act.Ends m Q E := by
  unfold Ends
  cases hr : act m with
  | ok a m' => exact hok a m' hr
  | error stop m' => exact herror stop m' hr

theorem Ends.mono (h : act.Ends m Q E) (hQ : ∀ a m', Q a m' → Q' a m')
    (hE : ∀ stop m', E stop m' → E' stop m') : act.Ends m Q' E' :=
  .intro (fun a m' hr => hQ a m' (h.ok hr)) fun stop m' hr => hE stop m' (h.error hr)

/-- Parts one behind the other. The second part may use how the first has ended. -/
theorem Ends.bind {f : α → Eval β} {R : β → Machine → Prop} (h : act.Ends m Q E)
    (hf : ∀ a m', act m = .ok a m' → Q a m' → (f a).Ends m' R E) : (act >>= f).Ends m R E := by
  show match EStateM.bind act f m with | .ok a m' => R a m' | .error e m' => E e m'
  unfold EStateM.bind
  cases hr : act m with
  | ok a m' => exact hf a m' hr (h.ok hr)
  | error stop m' => exact h.error hr

/-- Doing something in another frame. -/
theorem Ends.inside {frame : Nat}
    (h : act.Ends { m with here := frame } (fun a m' => Q a { m' with here := m.here })
      fun stop m' => E stop { m' with here := m.here }) : (inside frame act).Ends m Q E := by
  show match Eval.inside frame act m with | .ok a m' => Q a m' | .error e m' => E e m'
  unfold Eval.inside
  cases hr : act { m with here := frame } with
  | ok a m' => exact h.ok hr
  | error stop m' => exact h.error hr

theorem defineAll_eq (e : Nat) (ps : List Token) (vs : List Value) (m : Machine) :
    defineAll e ps vs m = .ok () { m with heap := m.heap.defineAll e ps vs } := by
  induction ps generalizing vs m with
  | nil => rfl
  | cons p ps ih =>
    cases vs with
    | nil => rfl
    | cons v vs => exact ih vs { m with heap := m.heap.define e p.lexeme v }

theorem writeOutward_eq {m : Machine} {depth frame : Nat} (name : Token) (v : Value)
    (hout : m.heap.outward? depth m.here = some frame) :
    writeOutward depth name v m = .ok () { m with heap := m.heap.define frame name.lexeme v } := by
  unfold writeOutward Heap.assignAt?
  rw [hout]
  rfl

end Eval

end Scriptlet

import Scriptlet.Complaint
import Scriptlet.Heap
import Scriptlet.Value

/-!
# The machine that programs run on

A running program changes a `Machine`: the heap, the frame that it is in, and what it has printed.
It goes on until it has its value, or stops (`Stop`). If it stops it leaves the machine as it was
at that moment, except that it is back in the frame that it came from (`Eval.inside`).

**Stops.** A crash is an error of the program. A fault is an error of whoever prepared it: no
program that the grammar reads and the binding accepts has one. Out of fuel means that no answer
was found within the given number of steps.

**What is given.** The `Setting` of a run does not change while it runs: the routes by which
references find their variables, and the answers of the native functions. An answer may depend on
how many were given before, so a clock can go on.
-/

namespace Scriptlet

/-- An error of whoever prepared a program. -/
inductive Fault where
  /-- An operator without a meaning for numbers. -/
  | unknownOperator (kind : Kind)
  /-- A depth that leads beyond the outermost frame. -/
  | beyondOutermost
  /-- A native function that refuses as many arguments as it claims to have. -/
  | refusedArguments (n : Native)
deriving DecidableEq, Repr

/-- Why a program has stopped. -/
inductive Stop where
  | crash (c : Crash)
  | fault (f : Fault)
  | outOfFuel
deriving DecidableEq, Repr

/-- What a running program changes. -/
structure Machine where
  heap : Heap Value
  /-- The frame that the program is in. -/
  here : Nat
  printed : Array String
  /-- How many functions were made. -/
  closures : Nat
  /-- How many answers native functions have given. -/
  answers : Nat

/-- How a reference finds its variable. -/
inductive Route where
  /-- Among the globals. -/
  | global
  /-- In the frame so many links out. -/
  | outward (depth : Nat)
  /-- In the nearest frame outward that holds the name. -/
  | nearest
deriving DecidableEq, Repr

/-- What is given to a running program. -/
structure Setting where
  /-- How a reference finds its variable, by its serial. -/
  route : Nat → Route
  /-- The answer of a native function to arguments, behind so many answers. -/
  answer : Nat → Native → List Value → Option Value

/-- Part of a run that ends with a result. -/
abbrev Eval (α : Type) := EStateM Stop Machine α

namespace Eval

/-- Stops with an error of the program. -/
def crash {α : Type} (token : Token) (cause : Crash.Cause) : Eval α :=
  throw (.crash ⟨token, cause⟩)

/-- Does something in another frame, and comes back whatever happens. -/
def inside {α : Type} (frame : Nat) (act : Eval α) : Eval α := fun m =>
  let back := m.here
  match act { m with here := frame } with
  | .ok a m => .ok a { m with here := back }
  | .error stop m => .error stop { m with here := back }

/-- Makes a frame with a link outward, and gives its number. -/
def newFrame (link : Nat) : Eval Nat := fun m =>
  .ok m.heap.size { m with heap := m.heap.add (some link) }

/-- The frame that the program is in. -/
def currentFrame : Eval Nat := fun m => .ok m.here m

/-- Binds a name in a frame. -/
def define (frame : Nat) (name : String) (value : Value) : Eval Unit := fun m =>
  .ok () { m with heap := m.heap.define frame name value }

/-- Binds parameters to arguments in a frame, in order. -/
def defineAll (frame : Nat) : List Token → List Value → Eval Unit
  | p :: ps, v :: vs => do
    define frame p.lexeme v
    defineAll frame ps vs
  | _, _ => return ()

/-- An identity that no function has had. -/
def newIdentity : Eval Nat := fun m =>
  .ok m.closures { m with closures := m.closures + 1 }

/-- Prints a line. -/
def print (line : String) : Eval Unit := fun m =>
  .ok () { m with printed := m.printed.push line }

/-- The answer of a native function. -/
def ask (s : Setting) (n : Native) (args : List Value) : Eval Value := fun m =>
  match s.answer m.answers n args with
  | some v => .ok v { m with answers := m.answers + 1 }
  | none => .error (.fault (.refusedArguments n)) m

/-! ## Variables -/

/-- The value of a variable, as the nearest frame outward from this one has it. -/
def readNearest (frame : Nat) (name : Token) : Eval Value := fun m =>
  match m.heap.get? frame name.lexeme with
  | some v => .ok v m
  | none => .error (.crash ⟨name, .undefined name.lexeme⟩) m

/-- The value of a variable so many links out. -/
def readOutward (depth : Nat) (name : Token) : Eval Value := fun m =>
  match m.heap.getAt depth m.here name.lexeme with
  | .ok v => .ok v m
  | .error .unbound => .error (.crash ⟨name, .undefined name.lexeme⟩) m
  | .error .outside => .error (.fault .beyondOutermost) m

/-- The value of a variable. -/
def readVariable (s : Setting) (name : Token) (serial : Nat) : Eval Value := do
  match s.route serial with
  | .global => readNearest Heap.root name
  | .outward depth => readOutward depth name
  | .nearest => readNearest (← currentFrame) name

/-- Changes the value of a variable in the nearest frame outward from this one that holds it. -/
def writeNearest (frame : Nat) (name : Token) (value : Value) : Eval Unit := fun m =>
  match m.heap.assign? frame name.lexeme value with
  | some heap => .ok () { m with heap }
  | none => .error (.crash ⟨name, .undefined name.lexeme⟩) m

/-- Changes the value of a variable so many links out. -/
def writeOutward (depth : Nat) (name : Token) (value : Value) : Eval Unit := fun m =>
  match m.heap.assignAt? depth m.here name.lexeme value with
  | some heap => .ok () { m with heap }
  | none => .error (.fault .beyondOutermost) m

/-- Changes the value of a variable. -/
def writeVariable (s : Setting) (name : Token) (serial : Nat) (value : Value) : Eval Unit := do
  match s.route serial with
  | .global => writeNearest Heap.root name value
  | .outward depth => writeOutward depth name value
  | .nearest => writeNearest (← currentFrame) name value

end Eval

end Scriptlet

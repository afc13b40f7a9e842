import Scriptlet.Table
import Scriptlet.Token.Basic

/-!
# Static scopes

A scope knows which names are declared in it, by which token, and whether a name is ready: it is
pending from the beginning of its declaration to the end of its initialiser.

**Layers.** Every block and every function has a layer. Layers stand on one another, the innermost
first, and below all of them is a root. A name means its declaration in the first layer that holds
it (`Scopes.depthOf`), and the number of layers before that one is how far out it is.

**Globals.** The root of a program are its globals. They are found when the program runs, so they
have no depth, and they may be declared again. Only the first declaration of a global is ever
pending: a later one may read the value that is already there.
-/

namespace Scriptlet

/-- The names of one block or function: who declared each first, and whether it is ready. -/
structure Layer where
  declarers : Table Token
  ready : Table Bool

namespace Layer

/-- A layer without names. -/
def empty : Layer := ⟨.empty, .empty⟩

/-- Whether a name is declared in this layer. -/
def holds (l : Layer) (name : String) : Bool := l.ready.contains name

/-- Declares a name, pending. The error is the token that declared it before. -/
def declare (l : Layer) (name : Token) : Except Token Layer :=
  match l.declarers.find? name.lexeme with
  | some first => .error first
  | none => .ok ⟨l.declarers.insert name.lexeme name, l.ready.insert name.lexeme false⟩

/-- Makes a name ready, and declares it if need be. -/
def define (l : Layer) (name : Token) : Layer where
  declarers :=
    if l.declarers.contains name.lexeme then l.declarers
    else l.declarers.insert name.lexeme name
  ready := l.ready.insert name.lexeme true

/-- Whether a name is declared in this layer and pending. -/
def isPending (l : Layer) (name : String) : Bool := l.ready.find? name == some false

end Layer

/-- The global names of which something is known before the program runs. -/
structure Globals where
  pending : List String
  defined : List String

namespace Globals

/-- Globals of which these are defined. -/
def knowing (names : List String) : Globals := ⟨[], names⟩

/-- Declares a name, which is pending then unless it is defined. -/
def declare (g : Globals) (name : Token) : Globals :=
  if name.lexeme ∈ g.defined then g else { g with pending := g.pending.insert name.lexeme }

/-- Makes a name defined. -/
def define (g : Globals) (name : Token) : Globals where
  pending := g.pending.filter (· ≠ name.lexeme)
  defined := g.defined.insert name.lexeme

/-- Whether a name is pending. -/
def isPending (g : Globals) (name : String) : Bool := name ∈ g.pending

end Globals

/-- What is below all layers. -/
inductive Root where
  | globals (g : Globals)
  | layer (l : Layer)

namespace Root

/-- Declares a name. The error is the token that declared it before. -/
def declare (name : Token) : Root → Except Token Root
  | globals g => .ok (.globals (g.declare name))
  | layer l => (l.declare name).map .layer

/-- Makes a name ready. -/
def define (name : Token) : Root → Root
  | globals g => .globals (g.define name)
  | layer l => .layer (l.define name)

/-- How far out a name is declared; globals have no depth. -/
def depthOf (name : String) : Root → Option Nat
  | globals _ => none
  | layer l => if l.holds name then some 0 else none

/-- Whether a name is pending. -/
def isPending (name : String) : Root → Bool
  | globals g => g.isPending name
  | layer l => l.isPending name

end Root

/-- Layers, the innermost first, on a root. -/
structure Scopes where
  layers : List Layer
  root : Root

namespace Scopes

/-- The scopes outside of all blocks and functions. -/
def outermost (root : Root) : Scopes := ⟨[], root⟩

/-- Enters a block or function. -/
def enter (s : Scopes) : Scopes := { s with layers := .empty :: s.layers }

/-- Leaves a block or function, if one was entered. -/
def leave? (s : Scopes) : Option Scopes :=
  match s.layers with
  | [] => none
  | _ :: outer => some { s with layers := outer }

/-- Declares a name in the innermost scope. The error is the token that declared it there
before. -/
def declare (s : Scopes) (name : Token) : Except Token Scopes :=
  match s.layers with
  | [] => (s.root.declare name).map fun root => { s with root }
  | top :: outer => (top.declare name).map fun top => { s with layers := top :: outer }

/-- Makes a name of the innermost scope ready. -/
def define (s : Scopes) (name : Token) : Scopes :=
  match s.layers with
  | [] => { s with root := s.root.define name }
  | top :: outer => { s with layers := top.define name :: outer }

/-- Whether the innermost layer holds a name; nothing if there is no layer. -/
def topHolds? (s : Scopes) (name : String) : Option Bool := s.layers.head?.map (·.holds name)

/-- How many layers to go out to the declaration of a name, from these layers on. -/
def depthIn (root : Root) (name : String) : List Layer → Option Nat
  | [] => root.depthOf name
  | top :: outer => if top.holds name then some 0 else (depthIn root name outer).map (· + 1)

/-- How many layers to go out to the declaration of a name; nothing if it may be a global. -/
def depthOf (s : Scopes) (name : String) : Option Nat := depthIn s.root name s.layers

/-- Whether the nearest declaration of a name is pending. -/
def isPending (s : Scopes) (name : String) : Bool :=
  match s.layers.find? (·.holds name) with
  | some l => l.isPending name
  | none => s.root.isPending name

end Scopes

end Scriptlet

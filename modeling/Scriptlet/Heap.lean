import Scriptlet.Table

/-!
# Frames on a heap

When a block or a call begins, a frame is made that holds its variables, and the frame stays for as
long as anything may refer to it. A frame has a link outward to the frame around it, which never
changes and always points at an older frame. Frames are numbered in the order in which they were
made; the globals are frame `root`.

**The chain.** From a frame the links lead outward along its `chain`. A name is looked up in the
first frame of the chain that holds it (`holder?`), or in the frame so many links out
(`ancestor`), if this number is known beforehand.
-/

namespace Scriptlet

/-- Variables, and the link to the frame around. -/
structure Frame (α : Type) where
  bindings : Table α
  link : Option Nat

/-- All frames, by number. -/
structure Heap (α : Type) where
  frames : Array (Frame α)

namespace Heap

variable {α : Type}

/-- Why a variable is not found a number of links out. -/
inductive Miss where
  /-- The frame does not hold the name. -/
  | unbound
  /-- There is no frame so far out. -/
  | outside
deriving DecidableEq, Repr

/-- The frame of the globals. -/
def root : Nat := 0

/-- No frames. -/
def empty : Heap α := ⟨#[]⟩

/-- The number that the next frame will have. -/
def size (h : Heap α) : Nat := h.frames.size

/-- Makes a frame without variables. -/
def add (h : Heap α) (link : Option Nat) : Heap α := ⟨h.frames.push ⟨.empty, link⟩⟩

/-- The link of a frame. -/
def link? (h : Heap α) (e : Nat) : Option Nat := h.frames[e]?.bind Frame.link

/-- The value that a name has in a frame itself. -/
def local? (h : Heap α) (e : Nat) (name : String) : Option α :=
  h.frames[e]?.bind fun f => f.bindings.find? name

/-- Whether a frame itself holds a name. -/
def holds (h : Heap α) (e : Nat) (name : String) : Bool := (h.local? e name).isSome

/-- Binds a name in a frame, for the first time or again. -/
def define (h : Heap α) (e : Nat) (name : String) (value : α) : Heap α :=
  ⟨h.frames.modify e fun f => { f with bindings := f.bindings.insert name value }⟩

/-! ## Looking outward -/

/-- The frames from one outward. -/
def chain (h : Heap α) (e : Nat) : List Nat :=
  match h.link? e with
  | none => [e]
  | some outer => if outer < e then e :: chain h outer else [e]
termination_by e

/-- The nearest frame outward that holds a name. -/
def holder? (h : Heap α) (e : Nat) (name : String) : Option Nat :=
  (h.chain e).find? (h.holds · name)

/-- The value of a name, as the nearest frame outward that holds it has it. -/
def get? (h : Heap α) (e : Nat) (name : String) : Option α :=
  (h.holder? e name).bind (h.local? · name)

/-- Changes the value of a name in the nearest frame outward that holds it, if any does. -/
@[inline] def assign? (h : Heap α) (e : Nat) (name : String) (value : α) : Option (Heap α) :=
  (h.holder? e name).map fun holder => h.define holder name value

/-! ## Going outward -/

/-- The frame a number of links out. One link out of the outermost frame there is none
(`some none`), and further there is nothing to go out of (`none`). -/
def ancestor (h : Heap α) : Nat → Option Nat → Option (Option Nat)
  | 0, e => some e
  | _ + 1, none => none
  | depth + 1, some e => ancestor h depth (h.link? e)

/-- The frame a number of links out, if there is one. -/
def outward? (h : Heap α) (depth e : Nat) : Option Nat := (h.ancestor depth (some e)).join

/-- The value of a name in the frame a number of links out. -/
def getAt (h : Heap α) (depth e : Nat) (name : String) : Except Miss α :=
  match h.outward? depth e with
  | none => .error .outside
  | some target =>
    match h.local? target name with
    | some value => .ok value
    | none => .error .unbound

/-- Binds a name in the frame a number of links out, if there is one. -/
@[inline] def assignAt? (h : Heap α) (depth e : Nat) (name : String) (value : α) :
    Option (Heap α) :=
  (h.outward? depth e).map fun target => h.define target name value

end Heap

end Scriptlet

import Scriptlet.Binding
import Scriptlet.Proofs.Mapping
import Scriptlet.Proofs.Tree.Relabeling

/-!
# Binding the names of a relabeled program

The walk over a relabeled program leaves the relabeled log (`Binding.log_relabeled`): the same
issues, and the same depths of the references, in the same order. For a walk looks at no serial, and
at no literal of a token.
-/

namespace Scriptlet

open Binding (Walk Event Reference)

namespace Relabeling

variable (g : Relabeling)

/-- Relabels the declarers of a layer. -/
def layer (l : Layer) : Layer := ⟨l.declarers.map g.token, l.ready⟩

/-- Relabels the declarers of a root. -/
def root : Root → Root
  | .globals known => .globals known
  | .layer l => .layer (g.layer l)

/-- Relabels the declarers of scopes. -/
def scopes (s : Scopes) : Scopes := ⟨s.layers.map g.layer, g.root s.root⟩

/-- Relabels what is found out about a reference. -/
def reference (r : Reference) : Reference :=
  ⟨g.serial r.serial, g.token r.name, r.writes, r.depth⟩

/-- Relabels an entry of the log. -/
def event : Event → Event
  | .reference r => .reference (g.reference r)
  | .issue i => .issue i
  | .declaredBefore first => .declaredBefore (g.token first)
  | .unbalanced => .unbalanced

/-- Relabels the state of a walk. -/
def walk (w : Walk) : Walk := ⟨g.scopes w.scopes, w.functions, w.log.map g.event⟩

variable {g}

@[simp] theorem blame_token (t : Token) (cause : Issue.Cause) :
    Issue.blame (g.token t) cause = .blame t cause := by
  unfold Issue.blame
  rw [g.kind_token, g.lexeme_token, g.line_token, g.offset_token]

/-! ## Scopes -/

theorem layer_define (l : Layer) (name : Token) :
    (g.layer l).define (g.token name) = g.layer (l.define name) := by
  unfold Layer.define layer Table.contains
  rw [g.lexeme_token, Table.find?_map, Option.isSome_map]
  refine congrArg (Layer.mk · _) ?_
  split
  · rfl
  · exact Table.insert_map g.token l.declarers name.lexeme name

theorem layer_declare (l : Layer) (name : Token) :
    (g.layer l).declare (g.token name) =
      ((l.declare name).map g.layer).mapError g.token := by
  unfold Layer.declare layer
  rw [g.lexeme_token, Table.find?_map]
  cases l.declarers.find? name.lexeme with
  | some first => rfl
  | none =>
    show Except.ok _ = Except.ok _
    rw [Table.insert_map]

theorem scopes_declare (s : Scopes) (name : Token) :
    (g.scopes s).declare (g.token name) =
      ((s.declare name).map g.scopes).mapError g.token := by
  obtain ⟨layers, root⟩ := s
  cases layers with
  | nil =>
    cases root with
    | globals known =>
      show Except.ok (Scopes.mk [] (.globals (known.declare (g.token name)))) = _
      unfold Globals.declare
      rw [g.lexeme_token]
      rfl
    | layer l =>
      show (((g.layer l).declare (g.token name)).map Root.layer).map _ = _
      rw [layer_declare]
      show _ = ((((l.declare name).map Root.layer).map _).map g.scopes).mapError g.token
      cases l.declare name <;> rfl
  | cons top outer =>
    show ((g.layer top).declare (g.token name)).map _ = _
    rw [layer_declare]
    show _ = (((top.declare name).map _).map g.scopes).mapError g.token
    cases top.declare name <;> rfl

theorem scopes_define (s : Scopes) (name : Token) :
    (g.scopes s).define (g.token name) = g.scopes (s.define name) := by
  obtain ⟨layers, root⟩ := s
  cases layers with
  | nil =>
    cases root with
    | globals known =>
      show Scopes.mk [] (.globals (known.define (g.token name))) = _
      unfold Globals.define
      rw [g.lexeme_token]
      rfl
    | layer l => exact congrArg (Scopes.mk [] <| Root.layer ·) (layer_define l name)
  | cons top outer =>
    exact congrArg (fun l => Scopes.mk (l :: outer.map g.layer) (g.root root))
      (layer_define top name)

theorem depthIn_layers (root : Root) (name : String) (layers : List Layer) :
    Scopes.depthIn (g.root root) name (layers.map g.layer) =
      Scopes.depthIn root name layers := by
  induction layers with
  | nil => cases root <;> rfl
  | cons top outer ih =>
    show (if top.holds name then _ else _) = if top.holds name then _ else _
    rw [ih]

theorem depthOf_scopes (s : Scopes) (name : String) :
    (g.scopes s).depthOf name = s.depthOf name := depthIn_layers s.root name s.layers

theorem isPending_scopes (s : Scopes) (name : String) :
    (g.scopes s).isPending name = s.isPending name := by
  obtain ⟨layers, root⟩ := s
  have hfind : (g.scopes ⟨layers, root⟩).layers.find? (·.holds name) =
      (layers.find? (·.holds name)).map g.layer := List.find?_map ..
  unfold Scopes.isPending
  rw [hfind]
  cases layers.find? (·.holds name) with
  | some l => rfl
  | none => cases root <;> rfl

/-! ## Walks -/

theorem walk_add (w : Walk) (e : Event) : (g.walk w).add (g.event e) = g.walk (w.add e) :=
  congrArg (Walk.mk _ _) (Array.map_push ..).symm

theorem walk_issue (w : Walk) (name : Token) (cause : Issue.Cause) :
    (g.walk w).add (.issue (.blame (g.token name) cause)) =
      g.walk (w.add (.issue (.blame name cause))) := by
  rw [blame_token]
  exact walk_add w (.issue (.blame name cause))

theorem walk_declare (w : Walk) (name : Token) :
    (g.walk w).declare (g.token name) = g.walk (w.declare name) := by
  have hdeclare : (g.walk w).scopes.declare (g.token name) =
      ((w.scopes.declare name).map g.scopes).mapError g.token := scopes_declare ..
  unfold Walk.declare
  rw [hdeclare]
  cases w.scopes.declare name with
  | ok scopes => rfl
  | error first =>
    show ((g.walk w).add (g.event (.declaredBefore first))).add _ = _
    rw [walk_add, walk_issue]

theorem walk_define (w : Walk) (name : Token) :
    (g.walk w).define (g.token name) = g.walk (w.define name) :=
  congrArg (Walk.mk · _ _) (scopes_define w.scopes name)

theorem walk_refer (w : Walk) (serial : Nat) (name : Token) (writes : Bool) :
    (g.walk w).refer (g.serial serial) (g.token name) writes =
      g.walk (w.refer serial name writes) := by
  unfold Walk.refer
  rw [← walk_add, g.lexeme_token]
  show (g.walk w).add (.reference ⟨_, _, writes, (g.scopes w.scopes).depthOf name.lexeme⟩) = _
  rw [depthOf_scopes]
  rfl

theorem walk_enter (w : Walk) : (g.walk w).enter = g.walk w.enter := rfl

theorem walk_leave (w : Walk) : (g.walk w).leave = g.walk w.leave := by
  obtain ⟨⟨layers, root⟩, functions, log⟩ := w
  cases layers with
  | nil => exact walk_add _ .unbalanced
  | cons top outer => rfl

theorem walk_leaveFunction (w : Walk) : (g.walk w).leaveFunction = g.walk w.leaveFunction := by
  unfold Walk.leaveFunction
  rw [walk_leave]
  rfl

mutual

theorem walk_expr : ∀ (e : Expr) (w : Walk),
    Binding.expr (g.expr e) (g.walk w) = g.walk (Binding.expr e w)
  | .literal _, _ => rfl
  | .ref name serial, w => by
    simp only [expr, Binding.expr]
    show Walk.refer (if (g.scopes w.scopes).isPending (g.token name).lexeme then _ else _) .. = _
    rw [isPending_scopes, g.lexeme_token, ← walk_refer]
    cases w.scopes.isPending name.lexeme with
    | false => rfl
    | true => exact congrArg (Walk.refer · _ _ _) (walk_issue w name .selfReference)
  | .assign name value serial, w => by
    simp only [expr, Binding.expr]
    rw [walk_expr value w, walk_refer]
  | .binary lhs op rhs, w | .logical lhs op rhs, w => by
    simp only [expr, Binding.expr]
    rw [walk_expr lhs w, walk_expr rhs]
  | .unary op arg, w => walk_expr arg w
  | .grouping inner, w => walk_expr inner w
  | .call callee paren args, w => by
    simp only [expr, Binding.expr]
    rw [walk_expr callee w, walk_exprs args]

theorem walk_exprs : ∀ (es : List Expr) (w : Walk),
    Binding.exprs (g.exprs es) (g.walk w) = g.walk (Binding.exprs es w)
  | [], _ => rfl
  | e :: rest, w => by
    simp only [exprs, Binding.exprs]
    rw [walk_expr e w, walk_exprs rest]

end

theorem walk_optional (e : Option Expr) (w : Walk) :
    Binding.optional (e.map g.expr) (g.walk w) = g.walk (Binding.optional e w) := by
  cases e with
  | none => rfl
  | some e => exact walk_expr e w

theorem walk_params (params : List Token) (w : Walk) :
    (params.map g.token).foldl (fun w p => (w.declare p).define p) (g.walk w) =
      g.walk (params.foldl (fun w p => (w.declare p).define p) w) := by
  induction params generalizing w with
  | nil => rfl
  | cons p rest ih =>
    rw [List.map_cons, List.foldl_cons, List.foldl_cons, walk_declare, walk_define]
    exact ih _

mutual

theorem walk_stmt : ∀ (st : Stmt) (w : Walk),
    Binding.stmt (g.stmt st) (g.walk w) = g.walk (Binding.stmt st w)
  | .expr e, w | .print _ e, w => walk_expr e w
  | .var name init, w => by
    simp only [stmt, Binding.stmt]
    rw [walk_declare, walk_optional, walk_define]
  | .block body, w => by
    simp only [stmt, Binding.stmt]
    rw [walk_enter, walk_stmts body, walk_leave]
  | .branch condition yes none, w => by
    simp only [stmt, Binding.stmt]
    rw [walk_expr condition w, walk_stmt yes]
  | .branch condition yes (some no), w => by
    simp only [stmt, Binding.stmt]
    rw [walk_expr condition w, walk_stmt yes, walk_stmt no]
  | .loop condition body, w => by
    simp only [stmt, Binding.stmt]
    rw [walk_expr condition w, walk_stmt body]
  | .function name params body, w => by
    simp only [stmt, Binding.stmt]
    rw [walk_declare, walk_define]
    show Walk.leaveFunction (Binding.stmts _ (List.foldl _ (g.walk (Walk.enterFunction _)) _)) = _
    rw [walk_params, walk_stmts body, walk_leaveFunction]
  | .ret keyword value, w => by
    simp only [stmt, Binding.stmt]
    rw [← walk_optional]
    show Binding.optional _ (if w.functions = 0 then _ else _) = _
    by_cases h : w.functions = 0
    · rw [if_pos h, if_pos h, walk_issue]
    · rw [if_neg h, if_neg h]

theorem walk_stmts : ∀ (sts : List Stmt) (w : Walk),
    Binding.stmts (g.stmts sts) (g.walk w) = g.walk (Binding.stmts sts w)
  | [], _ => rfl
  | st :: rest, w => by
    simp only [stmts, Binding.stmts]
    rw [walk_stmt st w, walk_stmts rest]

end

end Relabeling

/-- **The log of a relabeled program is the relabeled log.** -/
theorem Binding.log_relabeled (g : Relabeling) (known : List String) (program : List Stmt) :
    (log known (g.stmts program)).toList = (log known program).toList.map g.event := by
  have hstart : g.walk ⟨.outermost (.globals (.knowing known)), 0, #[]⟩ =
      ⟨.outermost (.globals (.knowing known)), 0, #[]⟩ := congrArg (Walk.mk _ _) Array.map_empty
  unfold log
  rw [← Array.toList_map, ← hstart, Relabeling.walk_stmts, hstart]
  rfl

end Scriptlet

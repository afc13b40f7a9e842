import Scriptlet.Binding
import Scriptlet.Proofs.Tree.Wellformed
import Scriptlet.Value

/-!
# Where references stand

Every reference of a program stands in a place: inside of certain blocks and functions, where
certain names are declared. Both can be told from the tree (`Sites.stmts`). The walk that binds
names comes to the same references in the same order, and finds the depths that the scopes of
their places have (`stmts_walked`).

**Regions.** A region is what has a scope of its own: a block, or a function with its parameters
and its body. The regions around a reference stand in a list, the innermost first, in the order of
the layers of its scopes.
-/

namespace Scriptlet

/-- A block or a function: what has a scope of its own. -/
inductive Region where
  | block (body : List Stmt)
  | function (declaration : Declaration)

/-- The names that a region declares in its scope. -/
def Region.declarations : Region → List Token
  | block body => body.filterMap Stmt.declares?
  | function d => d.params ++ d.body.filterMap Stmt.declares?

namespace Scopes

/-- Declares a name, unless it is declared in the innermost scope. -/
def announce (s : Scopes) (name : Token) : Scopes :=
  match s.declare name with
  | .ok s => s
  | .error _ => s

/-- Declares a name, unless it is declared, and makes it ready. -/
def settle (s : Scopes) (name : Token) : Scopes := (s.announce name).define name

/-- The scopes behind a statement. -/
def behind (s : Scopes) (st : Stmt) : Scopes :=
  match st.declares? with
  | some name => s.settle name
  | none => s

/-- The scopes of the body of a function, inside of those that the function is declared in. -/
def within (s : Scopes) (d : Declaration) : Scopes := d.params.foldl settle s.enter

end Scopes

/-- A reference and the place that it stands in. -/
structure Site where
  serial : Nat
  name : Token
  writes : Bool
  scopes : Scopes
  /-- The regions around the reference, the innermost first. -/
  regions : List Region

namespace Site

/-- What the walk finds out about a reference that stands here. -/
def reference (s : Site) : Binding.Reference :=
  ⟨s.serial, s.name, s.writes, s.scopes.depthOf s.name.lexeme⟩

/-- A reference that reads means a name that is ready. -/
def Settled (s : Site) : Prop := s.writes = false → s.scopes.isPending s.name.lexeme = false

end Site

namespace Sites

mutual

/-- The sites of an expression in these regions and scopes. -/
def expr (rs : List Region) (s : Scopes) : Expr → List Site
  | .literal _ => []
  | .ref name serial => [⟨serial, name, false, s, rs⟩]
  | .assign name value serial => expr rs s value ++ [⟨serial, name, true, s, rs⟩]
  | .binary lhs _ rhs | .logical lhs _ rhs => expr rs s lhs ++ expr rs s rhs
  | .unary _ arg => expr rs s arg
  | .grouping inner => expr rs s inner
  | .call callee _ args => expr rs s callee ++ exprs rs s args

/-- The sites of expressions. -/
def exprs (rs : List Region) (s : Scopes) : List Expr → List Site
  | [] => []
  | e :: rest => expr rs s e ++ exprs rs s rest

end

/-- The sites of an expression, if there is one. -/
def optional (rs : List Region) (s : Scopes) : Option Expr → List Site
  | none => []
  | some e => expr rs s e

mutual

/-- The sites of a statement in these regions and scopes. -/
def stmt (rs : List Region) (s : Scopes) : Stmt → List Site
  | .expr e | .print _ e => expr rs s e
  | .var name init => optional rs (s.announce name) init
  | .block body => stmts (.block body :: rs) s.enter body
  | .branch condition yes none => expr rs s condition ++ stmt rs s yes
  | .branch condition yes (some no) => expr rs s condition ++ (stmt rs s yes ++ stmt rs s no)
  | .loop condition body => expr rs s condition ++ stmt rs s body
  | .function name params body =>
    stmts (.function ⟨name, params, body⟩ :: rs) ((s.settle name).within ⟨name, params, body⟩) body
  | .ret _ value => optional rs s value

/-- The sites of statements, each in the scopes behind those before it. -/
def stmts (rs : List Region) (s : Scopes) : List Stmt → List Site
  | [] => []
  | st :: rest => stmt rs s st ++ stmts rs (s.behind st) rest

end

end Sites

/-! ## The serials of sites -/

namespace Sites

mutual

theorem map_serial_expr (rs : List Region) (s : Scopes) :
    ∀ e : Expr, (expr rs s e).map Site.serial = Serials.expr e
  | .literal _ | .ref _ _ => rfl
  | .assign _ value _ => by
    simp only [expr, Serials.expr, List.map_append, map_serial_expr rs s value]
    rfl
  | .binary lhs _ rhs | .logical lhs _ rhs => by
    simp only [expr, Serials.expr, List.map_append, map_serial_expr rs s lhs,
      map_serial_expr rs s rhs]
  | .unary _ arg => map_serial_expr rs s arg
  | .grouping inner => map_serial_expr rs s inner
  | .call callee _ args => by
    simp only [expr, Serials.expr, List.map_append, map_serial_expr rs s callee,
      map_serial_exprs rs s args]

theorem map_serial_exprs (rs : List Region) (s : Scopes) :
    ∀ es : List Expr, (exprs rs s es).map Site.serial = Serials.exprs es
  | [] => rfl
  | e :: rest => by
    simp only [exprs, Serials.exprs, List.map_append, map_serial_expr rs s e,
      map_serial_exprs rs s rest]

end

theorem map_serial_optional (rs : List Region) (s : Scopes) (e : Option Expr) :
    (optional rs s e).map Site.serial = Serials.optional e := by
  cases e with
  | none => rfl
  | some e => exact map_serial_expr rs s e

mutual

theorem map_serial_stmt (rs : List Region) (s : Scopes) :
    ∀ st : Stmt, (stmt rs s st).map Site.serial = Serials.stmt st
  | .expr e | .print _ e => map_serial_expr rs s e
  | .var name init => map_serial_optional rs (s.announce name) init
  | .block body => map_serial_stmts _ _ body
  | .branch condition yes none => by
    simp only [stmt, Serials.stmt, List.map_append, map_serial_expr rs s condition,
      map_serial_stmt rs s yes]
  | .branch condition yes (some no) => by
    simp only [stmt, Serials.stmt, List.map_append, map_serial_expr rs s condition,
      map_serial_stmt rs s yes, map_serial_stmt rs s no]
  | .loop condition body => by
    simp only [stmt, Serials.stmt, List.map_append, map_serial_expr rs s condition,
      map_serial_stmt rs s body]
  | .function _ _ body => map_serial_stmts _ _ body
  | .ret _ value => map_serial_optional rs s value

/-- The sites of a program have its serials. -/
theorem map_serial_stmts (rs : List Region) (s : Scopes) :
    ∀ sts : List Stmt, (stmts rs s sts).map Site.serial = Serials.stmts sts
  | [] => rfl
  | st :: rest => by
    simp only [stmts, Serials.stmts, List.map_append, map_serial_stmt rs s st,
      map_serial_stmts rs (s.behind st) rest]

end

end Sites

/-! ## The walk comes to the sites -/

namespace Binding

/-- The reference of an entry, if it is one. -/
def Event.reference? : Event → Option Reference
  | .reference r => some r
  | _ => none

/-- Whether an entry is an issue, or as bad as one. -/
def Event.isTrouble : Event → Bool
  | .issue _ | .unbalanced => true
  | _ => false

/-- The walk went from one state to another, past these sites, and the second has these scopes. -/
structure Walked (w w' : Walk) (scopes : Scopes) (sites : List Site) : Prop where
  scopes : w'.scopes = scopes
  log : ∃ new : List Event, w'.log.toList = w.log.toList ++ new ∧
    new.filterMap Event.reference? = sites.map Site.reference ∧
    ((∀ e ∈ new, e.isTrouble = false) → ∀ s ∈ sites, s.Settled)

variable {w w' w'' : Walk} {s s' : Scopes} {sites sites' : List Site}

theorem Walked.refl (w : Walk) : Walked w w w.scopes [] :=
  ⟨rfl, [], by simp, rfl, fun _ => List.forall_mem_nil _⟩

theorem Walked.trans (h : Walked w w' s sites) (h' : Walked w' w'' s' sites') :
    Walked w w'' s' (sites ++ sites') := by
  obtain ⟨new, hlog, href, hset⟩ := h.log
  obtain ⟨new', hlog', href', hset'⟩ := h'.log
  refine ⟨h'.scopes, new ++ new', ?_, ?_, fun htrouble st hst => ?_⟩
  · rw [hlog', hlog, List.append_assoc]
  · rw [List.filterMap_append, List.map_append, href, href']
  · rcases List.mem_append.1 hst with hst | hst
    · exact hset (fun e he => htrouble e (List.mem_append_left _ he)) st hst
    · exact hset' (fun e he => htrouble e (List.mem_append_right _ he)) st hst

/-- A step without references. -/
theorem Walked.step (new : List Event) (hscopes : w'.scopes = s)
    (hlog : w'.log.toList = w.log.toList ++ new)
    (href : new.filterMap Event.reference? = []) : Walked w w' s [] :=
  ⟨hscopes, new, hlog, href, fun _ => List.forall_mem_nil _⟩

/-- Changing the scopes leaves no entry. -/
theorem Walked.rescope (w : Walk) (scopes : Scopes) (functions : Nat) :
    Walked w ⟨scopes, functions, w.log⟩ scopes [] :=
  .step [] rfl (List.append_nil _).symm rfl

/-- The walk does not count functions for what it finds. -/
theorem Walked.recount (h : Walked w w' s sites) (functions : Nat) :
    Walked w { w' with functions } s sites := ⟨h.scopes, h.log⟩

theorem stray_walked (w : Walk) (i : Issue) :
    Walked w (if w.functions = 0 then w.add (.issue i) else w) w.scopes [] := by
  by_cases h : w.functions = 0
  · rw [if_pos h]
    exact .step [.issue i] rfl Array.toList_push rfl
  · rw [if_neg h]
    exact .refl w

theorem declare_walked (w : Walk) (name : Token) :
    Walked w (w.declare name) (w.scopes.announce name) [] := by
  unfold Walk.declare Scopes.announce
  cases w.scopes.declare name with
  | ok scopes => exact .rescope w scopes w.functions
  | error first =>
    refine .step [.declaredBefore first, .issue (.blame name .redeclared)] rfl ?_ rfl
    simp [Walk.add]

theorem define_walked (w : Walk) (name : Token) :
    Walked w (w.define name) (w.scopes.define name) [] :=
  .rescope w _ w.functions

theorem settle_walked (w : Walk) (name : Token) :
    Walked w ((w.declare name).define name) (w.scopes.settle name) [] := by
  have h := (declare_walked w name).trans (define_walked (w.declare name) name)
  rw [(declare_walked w name).scopes] at h
  exact h

/-- A scope that has been entered can be left. -/
theorem leave_walked {l : Layer} (h : w.scopes = { s with layers := l :: s.layers }) :
    Walked w w.leave s [] := by
  unfold Walk.leave Scopes.leave?
  rw [h]
  exact .rescope w s w.functions

theorem refer_walked (rs : List Region) (w : Walk) (serial : Nat) (name : Token) (writes : Bool)
    (h : writes = false → w.scopes.isPending name.lexeme = false) :
    Walked w (w.refer serial name writes) w.scopes [⟨serial, name, writes, w.scopes, rs⟩] := by
  refine ⟨rfl, [.reference ⟨serial, name, writes, w.scopes.depthOf name.lexeme⟩], ?_, rfl, ?_⟩
  · simp [Walk.refer, Walk.add]
  · intro _ st hst
    rw [List.mem_singleton.1 hst]
    exact h

mutual

theorem expr_walked (rs : List Region) : ∀ (e : Expr) (w : Walk),
    Walked w (expr e w) w.scopes (Sites.expr rs w.scopes e)
  | .literal _, w => .refl w
  | .ref name serial, w => by
    show Walked w (Walk.refer (if _ then _ else _) serial name false) _ [_]
    by_cases hp : w.scopes.isPending name.lexeme = true
    · -- The issue is trouble, so nothing is claimed of the site.
      rw [if_pos hp]
      refine ⟨rfl, [.issue (.blame name .selfReference), .reference ⟨serial, name, false, _⟩],
        ?_, rfl, fun htrouble => ?_⟩
      · simp [Walk.refer, Walk.add]
      · exact absurd (htrouble _ List.mem_cons_self) (by simp [Event.isTrouble])
    · rw [if_neg hp]
      exact refer_walked rs w serial name false fun _ => Bool.eq_false_iff.2 hp
  | .assign name value serial, w => by
    have hvalue := expr_walked rs value w
    have hrefer := refer_walked rs (expr value w) serial name true Bool.noConfusion
    rw [hvalue.scopes] at hrefer
    exact hvalue.trans hrefer
  | .binary lhs _ rhs, w | .logical lhs _ rhs, w => by
    have hlhs := expr_walked rs lhs w
    have hrhs := expr_walked rs rhs (expr lhs w)
    rw [hlhs.scopes] at hrhs
    exact hlhs.trans hrhs
  | .unary _ arg, w => expr_walked rs arg w
  | .grouping inner, w => expr_walked rs inner w
  | .call callee _ args, w => by
    have hcallee := expr_walked rs callee w
    have hargs := exprs_walked rs args (expr callee w)
    rw [hcallee.scopes] at hargs
    exact hcallee.trans hargs

theorem exprs_walked (rs : List Region) : ∀ (es : List Expr) (w : Walk),
    Walked w (exprs es w) w.scopes (Sites.exprs rs w.scopes es)
  | [], w => .refl w
  | e :: rest, w => by
    have he := expr_walked rs e w
    have hrest := exprs_walked rs rest (expr e w)
    rw [he.scopes] at hrest
    exact he.trans hrest

end

theorem optional_walked (rs : List Region) (e : Option Expr) (w : Walk) :
    Walked w (optional e w) w.scopes (Sites.optional rs w.scopes e) := by
  cases e with
  | none => exact .refl w
  | some e => exact expr_walked rs e w

theorem params_walked (params : List Token) (w : Walk) :
    Walked w (params.foldl (fun w p => (w.declare p).define p) w)
      (params.foldl Scopes.settle w.scopes) [] := by
  induction params generalizing w with
  | nil => exact .refl w
  | cons p rest ih =>
    have hp := settle_walked w p
    have hrest := ih ((w.declare p).define p)
    rw [hp.scopes] at hrest
    exact hp.trans hrest

end Binding

/-! ## The innermost layer alone changes -/

namespace Scopes

theorem isPending_cons (l : Layer) (ls : List Layer) (root : Root) (name : String) :
    (⟨l :: ls, root⟩ : Scopes).isPending name =
      if l.holds name then l.isPending name else (⟨ls, root⟩ : Scopes).isPending name := by
  unfold isPending
  dsimp only
  rw [List.find?_cons]
  cases l.holds name <;> rfl

/-- From one state of the scopes to another only the innermost layer changes. -/
def SameOutside (s s' : Scopes) : Prop :=
  ∀ l ls, s.layers = l :: ls → ∃ l', s' = ⟨l' :: ls, s.root⟩

theorem SameOutside.refl (s : Scopes) : s.SameOutside s := by
  intro l ls h
  exact ⟨l, by rw [← h]⟩

theorem SameOutside.trans {s s' s'' : Scopes} (h : s.SameOutside s') (h' : s'.SameOutside s'') :
    s.SameOutside s'' := by
  intro l ls hl
  obtain ⟨l', rfl⟩ := h l ls hl
  exact h' l' ls rfl

theorem sameOutside_announce (s : Scopes) (name : Token) : s.SameOutside (s.announce name) := by
  intro l ls h
  cases hd : l.declare name with
  | ok l' => exact ⟨l', by simp [announce, declare, h, hd, Except.map]⟩
  | error _ =>
    have hs : s.announce name = s := by simp [announce, declare, h, hd, Except.map]
    exact ⟨l, by rw [hs, ← h]⟩

theorem sameOutside_settle (s : Scopes) (name : Token) : s.SameOutside (s.settle name) := by
  refine (sameOutside_announce s name).trans ?_
  intro l ls h
  show ∃ l', (s.announce name).define name = _
  unfold Scopes.define
  rw [h]
  exact ⟨l.define name, rfl⟩

theorem sameOutside_behind (s : Scopes) (st : Stmt) : s.SameOutside (s.behind st) := by
  unfold behind
  cases st.declares? with
  | none => exact .refl s
  | some name => exact sameOutside_settle s name

theorem sameOutside_params (params : List Token) (s : Scopes) :
    s.SameOutside (params.foldl settle s) := by
  induction params generalizing s with
  | nil => exact .refl s
  | cons p rest ih => exact (sameOutside_settle s p).trans (ih (s.settle p))

theorem sameOutside_stmts (sts : List Stmt) (s : Scopes) : s.SameOutside (sts.foldl behind s) := by
  induction sts generalizing s with
  | nil => exact .refl s
  | cons st rest ih => exact (sameOutside_behind s st).trans (ih (s.behind st))

end Scopes

namespace Binding

/-! ## Statements -/

theorem behind_of_none {s : Scopes} {st : Stmt} (h : st.declares? = none) : s.behind st = s := by
  unfold Scopes.behind
  rw [h]

mutual

theorem stmt_walked (rs : List Region) : ∀ (st : Stmt) (w : Walk), Shape.stmt st →
    Walked w (stmt st w) (w.scopes.behind st) (Sites.stmt rs w.scopes st)
  | .expr e, w, _ | .print _ e, w, _ => expr_walked rs e w
  | .var name init, w, _ => by
    have hdeclare := declare_walked w name
    have hinit := optional_walked rs init (w.declare name)
    have hdefine := define_walked (optional init (w.declare name)) name
    rw [hdeclare.scopes] at hinit
    rw [hinit.scopes] at hdefine
    have h := (hdeclare.trans hinit).trans hdefine
    rw [List.append_nil] at h
    exact h
  | .block body, w, hshape => by
    have hbody := stmts_walked (.block body :: rs) body w.enter hshape
    obtain ⟨l, hl⟩ := Scopes.sameOutside_stmts body w.enter.scopes _ _ rfl
    rw [hl] at hbody
    have h := ((Walked.rescope w w.scopes.enter w.functions).trans hbody).trans
      (leave_walked hbody.scopes)
    rw [List.append_nil] at h
    exact h
  | .branch condition yes none, w, hshape => by
    have hc := expr_walked rs condition w
    have hyes := stmt_walked rs yes (expr condition w) hshape.1
    rw [behind_of_none hshape.2, hc.scopes] at hyes
    exact hc.trans hyes
  | .branch condition yes (some no), w, hshape => by
    have hc := expr_walked rs condition w
    have hyes := stmt_walked rs yes (expr condition w) hshape.1.1
    have hno := stmt_walked rs no (stmt yes (expr condition w)) hshape.2.1
    rw [behind_of_none hshape.1.2, hc.scopes] at hyes
    rw [behind_of_none hshape.2.2, hyes.scopes] at hno
    exact hc.trans (hyes.trans hno)
  | .loop condition body, w, hshape => by
    have hc := expr_walked rs condition w
    have hbody := stmt_walked rs body (expr condition w) hshape.1
    rw [behind_of_none hshape.2, hc.scopes] at hbody
    exact hc.trans hbody
  | .function name params body, w, hshape => by
    have hname := settle_walked w name
    let w₁ := ((w.declare name).define name).enterFunction
    have henter : Walked ((w.declare name).define name) w₁ _ [] :=
      .rescope ((w.declare name).define name) _ _
    have hparams := params_walked params w₁
    have hbody := stmts_walked (.function ⟨name, params, body⟩ :: rs) body
      (params.foldl (fun w p => (w.declare p).define p) w₁) hshape
    obtain ⟨l, hl⟩ := ((Scopes.sameOutside_params params w₁.scopes).trans
      (Scopes.sameOutside_stmts body _)) _ _ rfl
    rw [hparams.scopes, hl] at hbody
    have h := ((hname.trans henter).trans (hparams.trans hbody)).trans (leave_walked hbody.scopes)
    have hw₁ : w₁.scopes = (w.scopes.settle name).enter := congrArg Scopes.enter hname.scopes
    rw [List.append_nil, hw₁, hname.scopes] at h
    exact h.recount _
  | .ret keyword value, w, _ => by
    have hstray := stray_walked w (.blame keyword .strayReturn)
    have hvalue := optional_walked rs value
      (if w.functions = 0 then w.add (.issue (.blame keyword .strayReturn)) else w)
    rw [hstray.scopes] at hvalue
    exact hstray.trans hvalue

theorem stmts_walked (rs : List Region) : ∀ (sts : List Stmt) (w : Walk), Shape.stmts sts →
    Walked w (stmts sts w) (sts.foldl Scopes.behind w.scopes) (Sites.stmts rs w.scopes sts)
  | [], w, _ => .refl w
  | st :: rest, w, hshape => by
    have hst := stmt_walked rs st w hshape.1
    have hrest := stmts_walked rs rest (stmt st w) hshape.2
    rw [hst.scopes] at hrest
    exact hst.trans hrest

end

end Binding

end Scriptlet

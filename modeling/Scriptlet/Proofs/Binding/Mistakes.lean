import Scriptlet.Proofs.Binding.Globals
import Scriptlet.Proofs.Binding.Pending
import Scriptlet.Proofs.Binding.Spots
import Scriptlet.Proofs.Binding.Standing

/-!
# What the walk complains about

**The walk complains about mistakes, and about nothing else** (`Binding.issues_log`): the issues of
its log are those of the spots in which a rule of names is broken, in their order.

The rules speak of the names that are declared before a spot, but the walk looks at marks that it
keeps in its scopes. The invariant says what these amount to (`Scopes.Fits`). Outside of
initialisers no name is pending, and the innermost scope holds just the names that are declared in
it. So a declaration that is refused breaks the second rule, and one that is not makes its own name
pending and no other (`Scopes.Fits.isPending_announce`), which breaks the first rule where the name
is read. A declaration that is refused leaves the marks as they are: the name was ready and stays
so.
-/

namespace Scriptlet

/-! ## What a layer keeps -/

/-- No name of the layer is pending, and it holds just these names. -/
structure Layer.Keeps (l : Layer) (names : List String) : Prop where
  quiet : l.Quiet
  holds : ∀ key, l.holds key = true ↔ key ∈ names
  declarers : ∀ key, l.declarers.contains key = true ↔ key ∈ names

namespace Layer

variable {l : Layer} {names : List String} {name : Token}

theorem keeps_empty : Layer.empty.Keeps [] :=
  ⟨quiet_empty, fun _ => ⟨nofun, List.not_mem_nil.elim⟩, fun _ => ⟨nofun, List.not_mem_nil.elim⟩⟩

/-- If at most this name is pending, then none is when it has been made ready. -/
theorem define_keeps (hpending : ∀ key, l.isPending key = true → key = name.lexeme)
    (hholds : ∀ key, key ≠ name.lexeme → (l.holds key = true ↔ key ∈ names))
    (hdeclarers : ∀ key, key ≠ name.lexeme → (l.declarers.contains key = true ↔ key ∈ names)) :
    (l.define name).Keeps (names ++ [name.lexeme]) := by
  have hmem : ∀ key, key ∈ names ++ [name.lexeme] ↔ key = name.lexeme ∨ key ∈ names := fun key => by
    rw [List.mem_append, List.mem_singleton, or_comm]
  refine ⟨define_quiet hpending, fun key => ?_, fun key => ?_⟩
  · rw [hmem, ← or_congr_right' (hholds key)]
    exact Table.contains_insert
  · rw [hmem, ← or_congr_right' (hdeclarers key)]
    unfold Layer.define
    split
    · next hcontained =>
      exact ⟨.inr, fun hkey => hkey.elim (fun heq => heq ▸ hcontained) id⟩
    · exact Table.contains_insert

/-- A name is declared unless the layer holds it. Then it is pending, and no other is. In both cases
the layer holds it when it has been made ready. -/
theorem Keeps.declare (h : l.Keeps names) (name : Token) :
    match l.declare name with
    | .ok l' => name.lexeme ∉ names ∧ (∀ key, l'.isPending key = true ↔ key = name.lexeme) ∧
        (l'.define name).Keeps (names ++ [name.lexeme])
    | .error _ => name.lexeme ∈ names ∧ (l.define name).Keeps (names ++ [name.lexeme]) := by
  unfold Layer.declare
  cases hfind : l.declarers.find? name.lexeme with
  | some first =>
    have hmem : name.lexeme ∈ names := (h.declarers _).1 (by unfold Table.contains; rw [hfind]; rfl)
    refine ⟨hmem, define_keeps (fun key hkey => ?_) (fun key _ => h.holds key)
      fun key _ => h.declarers key⟩
    rw [h.quiet key] at hkey
    cases hkey
  | none =>
    have hpending : ∀ key, isPending ⟨l.declarers.insert name.lexeme name,
        l.ready.insert name.lexeme false⟩ key = true ↔ key = name.lexeme := fun key => by
      rw [isPending_insert]
      by_cases hkey : key = name.lexeme
      · simp [hkey]
      · simp [hkey, h.quiet key]
    refine ⟨fun hmem => ?_, hpending, define_keeps (fun key => (hpending key).1)
      (fun key hne => ?_) fun key hne => ?_⟩
    · have hcontained := (h.declarers _).2 hmem
      unfold Table.contains at hcontained
      rw [hfind] at hcontained
      cases hcontained
    · exact Table.contains_insert.trans ((or_iff_right hne).trans (h.holds key))
    · exact Table.contains_insert.trans ((or_iff_right hne).trans (h.declarers key))

end Layer

/-! ## What the scopes amount to -/

/-- No name is pending, and the innermost scope holds the names that are declared in it. -/
inductive Scopes.Fits (p : Standing) : Scopes → Prop
  | outside {g : Globals} : p.enclosed = false → g.pending = [] →
      (∀ key, key ∈ g.defined ↔ key ∈ p.earlier) → Fits p ⟨[], .globals g⟩
  | inside {l : Layer} {outer : List Layer} {g : Globals} : p.enclosed = true → g.pending = [] →
      l.Keeps p.earlier → (∀ l ∈ outer, l.Quiet) → Fits p ⟨l :: outer, .globals g⟩

namespace Scopes

variable {s : Scopes} {p : Standing}

/-- Nothing is pending where nothing is pending in any layer. -/
theorem Quiet.isPending_globals {layers : List Layer} {g : Globals} (hg : g.pending = [])
    (h : ∀ l ∈ layers, l.Quiet) (key : String) :
    (⟨layers, .globals g⟩ : Scopes).isPending key = false := by
  induction layers with
  | nil =>
    show decide (key ∈ g.pending) = false
    rw [hg]
    exact decide_eq_false List.not_mem_nil
  | cons l outer ih =>
    obtain ⟨hl, houter⟩ := List.forall_mem_cons.1 h
    rw [isPending_cons, hl key, ih houter, ite_self]

/-- If something may be pending only in the innermost layer, it is told from this one. -/
theorem isPending_top {l : Layer} {outer : List Layer} {g : Globals} (hg : g.pending = [])
    (h : ∀ l ∈ outer, l.Quiet) (key : String) :
    (⟨l :: outer, .globals g⟩ : Scopes).isPending key = l.isPending key := by
  rw [isPending_cons, Quiet.isPending_globals hg h]
  split
  · rfl
  · next hholds => exact (Bool.eq_false_iff.2 fun hp => hholds (Layer.holds_of_isPending hp)).symm

namespace Fits

theorem known (names : List String) :
    Fits (.outside names) (.outermost (.globals (.knowing names))) :=
  .outside rfl rfl fun _ => Iff.rfl

/-- Outside of initialisers no name is pending. -/
theorem isPending (h : s.Fits p) (key : String) : s.isPending key = false := by
  cases h with
  | outside _ hg _ => exact Quiet.isPending_globals hg (List.forall_mem_nil _) key
  | inside _ hg hl houter =>
    exact Quiet.isPending_globals hg (List.forall_mem_cons.2 ⟨hl.quiet, houter⟩) key

/-- A declaration makes its own name pending, unless it is declared before in the same scope. -/
theorem isPending_announce (h : s.Fits p) (name : Token) (key : String) :
    (s.announce name).isPending key = true ↔ key = name.lexeme ∧ name.lexeme ∉ p.earlier := by
  cases h with
  | outside _ hg hdefined =>
    rw [← hdefined]
    exact Globals.isPending_declare hg name key
  | @inside l outer g _ hg hl houter =>
    have hd := hl.declare name
    unfold Scopes.announce Scopes.declare
    dsimp only
    cases ho : l.declare name with
    | ok l' =>
      rw [ho] at hd
      show (⟨l' :: outer, .globals g⟩ : Scopes).isPending key = true ↔ _
      rw [isPending_top hg houter, hd.2.1, and_iff_left hd.1]
    | error first =>
      rw [ho] at hd
      show (⟨l :: outer, .globals g⟩ : Scopes).isPending key = true ↔ _
      rw [isPending_top hg houter, hl.quiet]
      exact ⟨nofun, fun hkey => absurd hd.1 hkey.2⟩

/-- A declaration is refused just if its name is declared before in the same block or function. -/
theorem declare (h : s.Fits p) (name : Token) :
    match s.declare name with
    | .ok _ => ¬ (p.enclosed = true ∧ name.lexeme ∈ p.earlier)
    | .error _ => p.enclosed = true ∧ name.lexeme ∈ p.earlier := by
  cases h with
  | outside henclosed _ _ =>
    show ¬ _
    rw [henclosed]
    exact fun hp => Bool.false_ne_true hp.1
  | @inside l outer g henclosed _ hl _ =>
    have hd := hl.declare name
    unfold Scopes.declare
    dsimp only
    cases ho : l.declare name with
    | ok l' =>
      rw [ho] at hd
      exact fun hp => hd.1 hp.2
    | error first =>
      rw [ho] at hd
      exact ⟨henclosed, hd.1⟩

theorem settle (h : s.Fits p) (name : Token) : (s.settle name).Fits (p.declare name) := by
  cases h with
  | @outside g henclosed hg hdefined =>
    refine .outside (g := g.settle name) henclosed (Globals.pending_settle hg name) fun key => ?_
    rw [Globals.defined_settle, List.mem_insert_iff, hdefined, Standing.declare, List.mem_append,
      List.mem_singleton, or_comm]
  | @inside l outer g henclosed hg hl houter =>
    have hd := hl.declare name
    unfold Scopes.settle Scopes.announce Scopes.declare
    dsimp only
    cases ho : l.declare name with
    | ok l' =>
      rw [ho] at hd
      exact .inside henclosed hg hd.2.2 houter
    | error first =>
      rw [ho] at hd
      exact .inside henclosed hg hd.2 houter

theorem behind (h : s.Fits p) (st : Stmt) : (s.behind st).Fits (p.behind st) := by
  unfold Scopes.behind Standing.behind
  cases st.declares? with
  | none => exact h
  | some name => exact h.settle name

theorem enter (h : s.Fits p) : s.enter.Fits p.block := by
  cases h with
  | outside _ hg _ => exact .inside rfl hg Layer.keeps_empty (List.forall_mem_nil _)
  | inside _ hg hl houter =>
    exact .inside rfl hg Layer.keeps_empty (List.forall_mem_cons.2 ⟨hl.quiet, houter⟩)

/-- For the scopes it does not matter whether they are those of a function. -/
theorem function (h : s.Fits p) : s.Fits { p with inFunction := true } := by
  cases h with
  | outside henclosed hg hdefined => exact .outside henclosed hg hdefined
  | inside henclosed hg hl houter => exact .inside henclosed hg hl houter

end Fits

end Scopes

namespace Binding

/-! ## States of the walk -/

/-- The walk stands outside of all initialisers, and its scopes and its count of functions are those
of this place. -/
structure Walk.At (w : Walk) (p : Standing) : Prop where
  scopes : w.scopes.Fits p
  functions : w.functions = 0 ↔ p.inFunction = false
  outright : p.initialised = none

/-- Pending is just what must not be read here. -/
def Walk.Forbids (w : Walk) (p : Standing) : Prop :=
  ∀ key, w.scopes.isPending key = true ↔ p.initialised = some key ∧ key ∉ p.earlier

namespace Walk.At

variable {w w' : Walk} {p : Standing}

theorem moved (h : w.At p) (hscopes : w'.scopes = w.scopes)
    (hfunctions : w'.functions = w.functions) : w'.At p :=
  ⟨hscopes ▸ h.scopes, hfunctions ▸ h.functions, h.outright⟩

theorem expr (h : w.At p) (e : Expr) : (Binding.expr e w).At p :=
  h.moved (expr_walked [] e w).scopes (expr_stands e w).functions

theorem settle (h : w.At p) (name : Token) :
    ((w.declare name).define name).At (p.declare name) := by
  refine ⟨?_, ?_, h.outright⟩
  · rw [(settle_walked w name).scopes]
    exact h.scopes.settle name
  · rw [show ((w.declare name).define name).functions = _ from functions_declare w name]
    exact h.functions

theorem enter (h : w.At p) : w.enter.At p.block := ⟨h.scopes.enter, h.functions, h.outright⟩

theorem enterFunction (h : w.At p) : w.enterFunction.At p.function := by
  refine ⟨?_, ⟨nofun, nofun⟩, h.outright⟩
  exact h.scopes.enter.function

theorem stmt (h : w.At p) {st : Stmt} (hshape : Shape.stmt st) :
    (Binding.stmt st w).At (p.behind st) := by
  have houtright : (p.behind st).initialised = none := by
    unfold Standing.behind
    cases st.declares? <;> exact h.outright
  have hfunction : (p.behind st).inFunction = p.inFunction := by
    unfold Standing.behind
    cases st.declares? <;> rfl
  refine ⟨?_, ?_, houtright⟩
  · rw [scopes_stmt hshape]
    exact h.scopes.behind st
  · rw [(stmt_stands st w).functions, hfunction]
    exact h.functions

/-- Behind a statement that declares no name. -/
theorem branch (h : w.At p) {st : Stmt} (hshape : Shape.stmt st) (hst : st.declares? = none) :
    (Binding.stmt st w).At p := by
  have hbehind := h.stmt hshape
  unfold Standing.behind at hbehind
  rwa [hst] at hbehind

/-- Outside of initialisers every name may be read. -/
theorem forbids (h : w.At p) : w.Forbids p := by
  intro key
  rw [h.scopes.isPending, h.outright]
  exact ⟨nofun, fun hkey => nomatch hkey.1⟩

/-- In its initialiser a variable must not be read, unless it is declared before. -/
theorem initialiser (h : w.At p) (name : Token) :
    (w.declare name).Forbids (p.initialiser name) := by
  intro key
  rw [(declare_walked w name).scopes, h.scopes.isPending_announce]
  show _ ↔ some name.lexeme = some key ∧ key ∉ p.earlier
  rw [Option.some_inj, eq_comm]
  exact and_congr_right fun heq => by rw [heq]

end Walk.At

theorem Walk.Forbids.expr {w : Walk} {p : Standing} (h : w.Forbids p) (e : Expr) :
    (Binding.expr e w).Forbids p := by
  unfold Forbids
  rw [(expr_walked [] e w).scopes]
  exact h

/-! ## Issues -/

/-- The issue of an entry, if it is one. -/
def Event.issue? : Event → Option Issue
  | issue i => some i
  | _ => none

/-- The issues of the log, in order. -/
def Walk.issues (w : Walk) : List Issue := w.log.toList.filterMap Event.issue?

theorem issues_add (w : Walk) (e : Event) : (w.add e).issues = w.issues ++ e.issue?.toList := by
  unfold Walk.issues Walk.add
  rw [Array.toList_push, List.filterMap_append]
  cases e <;> rfl

theorem issues_refer (w : Walk) (serial : Nat) (name : Token) (writes : Bool) :
    (w.refer serial name writes).issues = w.issues :=
  (issues_add w _).trans (List.append_nil _)

theorem issues_leave (w : Walk) : w.leave.issues = w.issues := by
  unfold Walk.leave
  split
  · rfl
  · exact (issues_add w _).trans (List.append_nil _)

/-- From one state of the walk to another the issues of those of these spots are logged that break a
rule, and no others. -/
def Reports (w w' : Walk) (spots : List Spot) : Prop :=
  w'.issues = w.issues ++ (spots.filter Spot.breaks).map Spot.issue

variable {w w' w'' : Walk} {spots spots' : List Spot} {spot : Spot} {p : Standing}

theorem Reports.refl (w : Walk) : Reports w w [] := (List.append_nil _).symm

theorem Reports.trans (h : Reports w w' spots) (h' : Reports w' w'' spots') :
    Reports w w'' (spots ++ spots') := by
  unfold Reports at h h' ⊢
  rw [h', h, List.filter_append, List.map_append, List.append_assoc]

/-- A step without issues behind. -/
theorem Reports.still (h : Reports w w' spots) (hissues : w''.issues = w'.issues) :
    Reports w w'' spots := hissues.trans h

theorem reports_broken (h : spot.breaks = true) (hissues : w'.issues = w.issues ++ [spot.issue]) :
    Reports w w' [spot] := by
  unfold Reports
  rw [List.filter_singleton, h]
  exact hissues

theorem reports_kept (h : spot.breaks = false) (hissues : w'.issues = w.issues) :
    Reports w w' [spot] := by
  unfold Reports
  rw [List.filter_singleton, h]
  exact hissues.trans (List.append_nil _).symm

theorem reports_if (w : Walk) (spot : Spot) (c : Prop) [Decidable c]
    (h : spot.breaks = true ↔ c) :
    Reports w (if c then w.add (.issue spot.issue) else w) [spot] := by
  split
  · next hc => exact reports_broken (h.2 hc) (issues_add w _)
  · next hc => exact reports_kept (Bool.eq_false_iff.2 fun hb => hc (h.1 hb)) rfl

theorem reports_declare (h : w.At p) (name : Token) :
    Reports w (w.declare name) [⟨.declares name, p⟩] := by
  have hd := h.scopes.declare name
  unfold Walk.declare
  cases hs : w.scopes.declare name with
  | ok scopes =>
    rw [hs] at hd
    exact reports_kept (decide_eq_false hd) rfl
  | error first =>
    rw [hs] at hd
    have hnote : (w.add (.declaredBefore first)).issues = w.issues :=
      (issues_add w _).trans (List.append_nil _)
    refine reports_broken (decide_eq_true hd) ?_
    exact (issues_add _ _).trans (congrArg (· ++ _) hnote)

theorem reports_return (h : w.At p) (keyword : Token) :
    Reports w (if w.functions = 0 then w.add (.issue (.blame keyword .strayReturn)) else w)
      [⟨.returns keyword, p⟩] :=
  reports_if w ⟨.returns keyword, p⟩ (w.functions = 0) <| by
    rw [h.functions]
    exact iff_of_eq (Bool.not_eq_true' _)

/-! ## Trees -/

mutual

theorem expr_reports : ∀ (e : Expr) (w : Walk), w.Forbids p → Reports w (expr e w) (Spots.expr p e)
  | .literal _, w, _ => .refl w
  | .ref name _, w, h => by
    have hread := reports_if w ⟨.reads name, p⟩ (w.scopes.isPending name.lexeme = true)
      (decide_eq_true_iff.trans (h name.lexeme).symm)
    exact hread.still (issues_refer _ _ _ _)
  | .assign _ value _, w, h => (expr_reports value w h).still (issues_refer _ _ _ _)
  | .binary lhs _ rhs, w, h | .logical lhs _ rhs, w, h =>
    (expr_reports lhs w h).trans (expr_reports rhs _ (h.expr lhs))
  | .unary _ arg, w, h => expr_reports arg w h
  | .grouping inner, w, h => expr_reports inner w h
  | .call callee _ args, w, h =>
    (expr_reports callee w h).trans (exprs_reports args _ (h.expr callee))

theorem exprs_reports : ∀ (es : List Expr) (w : Walk), w.Forbids p →
    Reports w (exprs es w) (Spots.exprs p es)
  | [], w, _ => .refl w
  | e :: rest, w, h => (expr_reports e w h).trans (exprs_reports rest _ (h.expr e))

end

theorem optional_reports (e : Option Expr) (h : w.Forbids p) :
    Reports w (optional e w) (Spots.optional p e) := by
  cases e with
  | none => exact .refl w
  | some e => exact expr_reports e w h

theorem params_reports (ps : List Token) (h : w.At p) :
    Reports w (ps.foldl (fun w x => (w.declare x).define x) w) (Spots.params p ps) ∧
      (ps.foldl (fun w x => (w.declare x).define x) w).At (ps.foldl Standing.declare p) := by
  induction ps generalizing w p with
  | nil => exact ⟨.refl w, h⟩
  | cons x rest ih =>
    obtain ⟨hreports, hat⟩ := ih (h.settle x)
    exact ⟨(reports_declare h x).trans hreports, hat⟩

mutual

/-- Of a statement the mistakes are logged that are made in its spots. -/
theorem stmt_reports : ∀ (st : Stmt) (w : Walk) (p : Standing), Shape.stmt st → w.At p →
    Reports w (stmt st w) (Spots.stmt p st)
  | .expr e, w, _, _, h | .print _ e, w, _, _, h => expr_reports e w h.forbids
  | .var name init, _, _, _, h =>
    (reports_declare h name).trans (optional_reports init (h.initialiser name))
  | .block body, w, p, hshape, h =>
    (stmts_reports body w.enter p.block hshape h.enter).still (issues_leave _)
  | .branch condition yes none, w, p, hshape, h =>
    (expr_reports condition w h.forbids).trans (stmt_reports yes _ p hshape.1 (h.expr condition))
  | .branch condition yes (some no), w, p, hshape, h => by
    have hyes := stmt_reports yes _ p hshape.1.1 (h.expr condition)
    have hno := stmt_reports no _ p hshape.2.1 ((h.expr condition).branch hshape.1.1 hshape.1.2)
    exact (expr_reports condition w h.forbids).trans (hyes.trans hno)
  | .loop condition body, w, p, hshape, h =>
    (expr_reports condition w h.forbids).trans (stmt_reports body _ p hshape.1 (h.expr condition))
  | .function name ps body, w, p, hshape, h => by
    obtain ⟨hparams, hat⟩ := params_reports ps (h.settle name).enterFunction
    have hbody := stmts_reports body _ _ hshape hat
    -- What is declared around a function does not count in it.
    exact (reports_declare h name).trans ((hparams.trans hbody).still (issues_leave _))
  | .ret keyword value, w, p, _, h => by
    refine (reports_return h keyword).trans (optional_reports value (Walk.At.forbids ?_))
    split
    · exact h.moved rfl rfl
    · exact h

theorem stmts_reports : ∀ (sts : List Stmt) (w : Walk) (p : Standing), Shape.stmts sts → w.At p →
    Reports w (stmts sts w) (Spots.stmts p sts)
  | [], w, _, _, _ => .refl w
  | st :: rest, w, p, hshape, h =>
    (stmt_reports st w p hshape.1 h).trans
      (stmts_reports rest _ (p.behind st) hshape.2 (h.stmt hshape.1))

end

/-- **The issues of a log are the mistakes of its spots**, in the order of the walk. -/
theorem issues_log (known : List String) {program : List Stmt} (h : Shape.stmts program) :
    (log known program).toList.filterMap Event.issue? =
      ((Spots.stmts (.outside known) program).filter Spot.breaks).map Spot.issue := by
  have hat : Walk.At ⟨.outermost (.globals (.knowing known)), 0, #[]⟩ (.outside known) :=
    ⟨.known known, ⟨fun _ => rfl, fun _ => rfl⟩, rfl⟩
  exact stmts_reports program _ _ h hat

end Binding

end Scriptlet

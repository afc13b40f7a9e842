import Scriptlet.Proofs.Binding.Begun
import Scriptlet.Proofs.Session.Alike
import Scriptlet.Proofs.Session.Frames

/-!
# Globals that are held to be defined

The walk that binds the names of a program holds some globals to be defined before anything of the
program has run. **When a statement runs, the globals that the walk holds to be defined there are
bound** (`Session.defined_bound`), whatever has become of the lines before. For a name is held to be
defined for one of two reasons. Either it was bound before the program began, or a statement further
up in the program declares it, and if that had not run to its end, no statement behind it would run.
A line that has crashed or was rejected only leaves names out that it would have bound.

So a global variable may read its old value in its initialiser wherever the walk lets it: the walk
complains about that unless it holds the variable to be defined already.
-/

namespace Scriptlet

variable {setting : Setting} {m m' : Machine} {fuel room : Nat}

/-- A statement that has run to its end has bound the name that it declares. -/
theorem Eval.holds_of_stmt {st : Stmt} {name : Token} {flow : Flow} (hd : st.declares? = some name)
    (hhere : m.here < m.heap.size) (hr : Eval.stmt setting fuel room st m = .ok flow m') :
    m'.heap.holds m.here name.lexeme = true := by
  cases fuel with
  | zero =>
    unfold Eval.stmt at hr
    cases hr
  | succ fuel =>
    cases st with
    | var own init =>
      obtain rfl := Option.some.inj hd
      cases init with
      | none =>
        simp only [Eval.stmt] at hr
        cases hr
        exact Heap.holds_define _ hhere _ _
      | some init =>
        simp only [Eval.stmt] at hr
        cases hinit : Eval.expr setting fuel room init m with
        | error stop m₁ =>
          rw [bind_error hinit] at hr
          cases hr
        | ok v m₁ =>
          rw [bind_ok hinit] at hr
          cases hr
          obtain ⟨hback, hext⟩ : m₁.here = m.here ∧ m.heap.Extends m₁.heap :=
            Ends.ok (Moment.leaves_back setting ⟨fuel, room, .expr init, m⟩) hinit
          show (m₁.heap.define m₁.here own.lexeme v).holds m.here own.lexeme = true
          rw [hback]
          exact Heap.holds_define _ (Nat.lt_of_lt_of_le hhere hext.size) _ _
    | function own params body =>
      obtain rfl := Option.some.inj hd
      simp only [Eval.stmt] at hr
      cases hr
      exact Heap.holds_define _ hhere _ _
    | _ => cases hd

/-- What is held to be defined is bound, and stays so behind each statement that has run. -/
theorem Machine.run_binds {front : List Stmt} {g : Globals} (hhere : m.here = Heap.root)
    (hsize : Heap.root < m.heap.size) (hbound : ∀ name ∈ g.defined, m.heap.holds Heap.root name)
    (hrun : m.run setting fuel room front = (.finished, m')) :
    ∀ name ∈ (g.behind front).defined, m'.heap.holds Heap.root name := by
  induction front generalizing m g with
  | nil =>
    cases hrun
    exact hbound
  | cons st rest ih =>
    unfold run at hrun
    cases hr : Eval.stmt setting fuel room st m with
    | error stop m₁ =>
      rw [hr] at hrun
      cases hrun
    | ok flow m₁ =>
      rw [hr] at hrun
      obtain ⟨hback, hext⟩ : m₁.here = m.here ∧ m.heap.Extends m₁.heap :=
        Eval.Ends.ok (Moment.leaves_back setting ⟨fuel, room, .stmt st, m⟩) hr
      have hkept : ∀ name ∈ g.defined, m₁.heap.holds Heap.root name :=
        fun name hname => hext.holds _ _ (hbound name hname)
      have hsize₁ := Nat.lt_of_lt_of_le hsize hext.size
      unfold Globals.behind
      cases hd : st.declares? with
      | none =>
        rw [List.filterMap_cons_none hd]
        exact ih (hback.trans hhere) hsize₁ hkept hrun
      | some own =>
        rw [List.filterMap_cons_some hd, List.foldl_cons]
        refine ih (g := g.settle own) (hback.trans hhere) hsize₁ (fun name hname => ?_) hrun
        rw [Globals.defined_settle, List.mem_insert_iff] at hname
        rcases hname with rfl | hname
        · have hholds := Eval.holds_of_stmt hd (hhere ▸ hsize) hr
          rwa [hhere] at hholds
        · exact hkept name hname

/-- A global that is bound can be read. -/
theorem Eval.read_global {name : Token} {serial : Nat} (hroute : setting.route serial = .global)
    (hholds : m.heap.holds Heap.root name.lexeme) :
    ∃ v, m.heap.local? Heap.root name.lexeme = some v ∧
      ∀ fuel room, Eval.expr setting (fuel + 1) room (.ref name serial) m = .ok v m := by
  obtain ⟨v, hv⟩ := Option.isSome_iff_exists.1 hholds
  have hget : m.heap.get? Heap.root name.lexeme = some v := by
    unfold Heap.get?
    rw [Heap.holder?_root, if_pos hholds]
    exact hv
  refine ⟨v, hv, fun fuel room => ?_⟩
  simp only [Eval.expr]
  unfold readVariable readNearest
  rw [hroute]
  dsimp only
  rw [hget]

namespace Session

variable {host : Host} {r : Report} {lines : List String} {s : Session} {program : List Stmt}
  {front rest : List Stmt} {st : Stmt} {b : Moment}

/-- The frame of the globals is there from the beginning. -/
theorem Accepts.root_lt (h : Accepts host r lines s program) :
    Heap.root < s.machine.heap.size := by
  obtain ⟨before, line, after, hlines, hready, -⟩ := h.ready
  rw [hready.machine]
  have hext : fresh.machine.heap.Extends (afterLines host r ([] ++ before)).1.machine.heap :=
    extends_afterLines [] before
  exact Nat.lt_of_lt_of_le Nat.one_pos hext.size

/-- What the walk holds to be defined is bound when the program has come so far. -/
theorem Accepts.bound (h : Accepts host r lines s program)
    (hrun : s.machine.run (.following s.depths host) enoughFuel maxCalls front = (.finished, m)) :
    ∀ name ∈ ((Globals.knowing s.globals.keys).behind front).defined,
      m.heap.holds Heap.root name :=
  Machine.run_binds h.here h.root_lt (fun _ => mem_keys.1) hrun

/-- A reference in the initialiser of a global, where that begins, is the reference of a site. -/
theorem mem_sites_initialiser {x y : Token} {e : Expr} {serial : Nat}
    (hplace : ⟨serial, y, false, []⟩ ∈ Places.expr [] e) :
    ∃ site ∈ s.sites (front ++ .var x (some e) :: rest), site.serial = serial ∧ site.name = y ∧
      site.writes = false ∧ site.scopes =
        .outermost (.globals (((Globals.knowing s.globals.keys).behind front).declare x)) := by
  let scopes : Scopes :=
    .outermost (.globals (((Globals.knowing s.globals.keys).behind front).declare x))
  have hplaces := Places.expr_sites [] (Scopes.Lists.globals
    (((Globals.knowing s.globals.keys).behind front).declare x)) e
  obtain ⟨site, hsite, href⟩ := List.mem_map.1 (hplaces ▸ List.mem_map_of_mem hplace)
  refine ⟨site, ?_, congrArg Binding.Reference.serial href, congrArg Binding.Reference.name href,
    congrArg Binding.Reference.writes href, (Sites.expr_place [] scopes e site hsite).1⟩
  unfold sites
  rw [Sites.stmts_append]
  refine List.mem_append_right _ (List.mem_append_left _ ?_)
  show site ∈ Sites.stmt [] (front.foldl Scopes.behind ⟨[], .globals _⟩) _
  rw [Scopes.foldl_behind_globals]
  exact hsite

/-- **Globals that are held to be defined are bound.** When a statement of an accepted program runs,
and at every moment of its run, every global is bound that the walk over the program holds to be
defined when it comes to this statement; this is so whatever lines have been completed, have crashed
or were rejected before. If the statement declares a variable, a reference that reads this variable
in its own initialiser gets the value that it is bound to, whenever the run comes to it. -/
theorem defined_bound (h : Accepts host r lines s (front ++ st :: rest))
    (hrun : s.machine.run (.following s.depths host) enoughFuel maxCalls front = (.finished, m))
    (hb : Reaches (.following s.depths host) ⟨enoughFuel, maxCalls, .stmt st, m⟩ b) :
    (∃ g, (Binding.walkBehind s.globals.keys front).scopes = .outermost (.globals g) ∧
      Binding.log s.globals.keys (front ++ st :: rest) =
        (Binding.stmts (st :: rest) (Binding.walkBehind s.globals.keys front)).log ∧
      ∀ name ∈ g.defined, b.machine.heap.holds Heap.root name) ∧
    ∀ x e y serial, st = .var x (some e) → ⟨serial, y, false, []⟩ ∈ Places.expr [] e →
      y.lexeme = x.lexeme → ∃ v, b.machine.heap.local? Heap.root x.lexeme = some v ∧
        ∀ fuel room, Eval.expr (.following s.depths host) (fuel + 1) room (.ref y serial)
          b.machine = .ok v b.machine := by
  obtain ⟨before, line, after, hlines, hready, -⟩ := h.ready
  have hext : m.heap.Extends b.machine.heap := hb.history.extends
  have hbound : ∀ name ∈ ((Globals.knowing s.globals.keys).behind front).defined,
      b.machine.heap.holds Heap.root name :=
    fun name hname => hext.holds _ _ (h.bound hrun name hname)
  have hshape := Shape.stmts_append_iff.1 hready.derives.wellformed.shape
  refine ⟨⟨_, Binding.scopes_walkBehind _ hshape.1, Binding.log_append .., hbound⟩, ?_⟩
  rintro x e y serial rfl hplace hname
  obtain ⟨site, hsite, rfl, rfl, hreads, hscopes⟩ := mem_sites_initialiser hplace
  have hfound := hready.found site (hready.sites_eq ▸ hsite)
  -- The walk has not complained about the reference, so it held the variable to be defined.
  have hsettled := hfound.settled hreads
  rw [hscopes, hname] at hsettled
  have hdefined : x.lexeme ∈ ((Globals.knowing s.globals.keys).behind front).defined := by
    by_contra hne
    have hpending := (Globals.isPending_declare (Globals.pending_behind rfl front) x _).2 ⟨rfl, hne⟩
    rw [← Bool.not_eq_true] at hsettled
    exact hsettled hpending
  have hroute : (Setting.following s.depths host).route site.serial = .global := by
    show Route.ofDepth (Binding.depthOf s.depths site.serial) = .global
    rw [hfound.depth, hscopes]
    rfl
  rw [← hname] at hdefined ⊢
  exact Eval.read_global hroute (hbound _ hdefined)

/-- Whether a program declares one variable, with the value of a variable of this name. -/
def rereads : List Stmt → Bool
  | [.var x (some (.ref y _))] => y.lexeme = x.lexeme
  | _ => false

theorem of_rereads (h : rereads program = true) :
    ∃ x y serial, program = [.var x (some (.ref y serial))] ∧ y.lexeme = x.lexeme := by
  unfold rereads at h
  split at h
  · exact ⟨_, _, _, rfl, of_decide_eq_true h⟩
  · cases h

/-- The first line crashes before it comes to `b`, so the second is rejected; but `a` is bound. -/
def halfway : List String := ["var a = 1; a(); var b;", "var b = b;"]

/-- In the third line `a` may be declared again, with the value that it has. -/
theorem defined_bound_halfway : ∃ s x y serial v,
    Accepts (Host.telling fun _ => 0) (.fresh 10 false) (halfway ++ ["var a = a;"]) s
        [.var x (some (.ref y serial))] ∧
      s.machine.heap.local? Heap.root x.lexeme = some v ∧
      Eval.expr (.following s.depths (Host.telling fun _ => 0)) 1 0 (.ref y serial) s.machine =
        .ok v s.machine := by
  rcases hbefore : afterLines (Host.telling fun _ => 0) (.fresh 10 false) halfway with ⟨s₀, r₀⟩
  have hfinished : ((afterLines (Host.telling fun _ => 0) (.fresh 10 false) halfway).1.runLine
      (Host.telling fun _ => 0) (afterLines (Host.telling fun _ => 0) (.fresh 10 false)
        halfway).2 "var a = a;").1.finished = true := by decide +kernel
  have hrereads : rereads ((afterLines (Host.telling fun _ => 0) (.fresh 10 false)
      halfway).1.reading "var a = a;").statements = true := by decide +kernel
  rw [hbefore] at hfinished hrereads
  obtain ⟨program, s, r, m, hp, -⟩ := prepared_of_ran (ran_of_finished hfinished)
  rw [(ready_of_prepare hp).read] at hrereads
  obtain ⟨x, y, serial, rfl, hname⟩ := of_rereads hrereads
  have haccepts : Accepts (Host.telling fun _ => 0) (.fresh 10 false) (halfway ++ ["var a = a;"]) s
      ([] ++ .var x (some (.ref y serial)) :: []) :=
    ⟨halfway, _, [], r, rfl, by rw [hbefore]; exact hp⟩
  obtain ⟨v, hv, hread⟩ := (defined_bound haccepts rfl .refl).2 x _ y serial rfl
    (List.mem_singleton_self _) hname
  exact ⟨s, x, y, serial, v, haccepts, hv, hread 0 0⟩

end Session

end Scriptlet

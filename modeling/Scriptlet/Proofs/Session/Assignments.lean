import Scriptlet.Proofs.Binding.Pending
import Scriptlet.Proofs.Eval.Limits
import Scriptlet.Proofs.Session.Alike
import Scriptlet.Proofs.Session.References

/-!
# What assignments bind

An assignment with a depth goes to the frame so many links out without asking whether it holds the
name. The frame does hold it if the declaration of the name has been executed there, and so it has,
unless the assignment stands in the initialiser of the variable that it assigns to: this is not an
issue, as it would be for a reference that reads. There, and nowhere else, an assignment binds a new
name (`Session.assigned`). So names come from declarations and calls, and from such assignments
(`Session.names_bound`).
-/

namespace Scriptlet

namespace Eval

variable {m m' : Machine}

theorem assign_eq {s : Setting} {fuel room : Nat} {value : Expr} {v : Value} (name : Token)
    (serial : Nat) (hv : expr s fuel room value m = .ok v m') :
    expr s (fuel + 1) room (.assign name value serial) m = (do
      writeVariable s name serial v
      return v) m' := by
  rw [expr]
  exact bind_ok hv

theorem writeVariable_following (depths : Binding.Depths) (host : Host) (name : Token)
    (serial : Nat) (v : Value) : writeVariable (.following depths host) name serial v =
      match Binding.depthOf depths serial with
      | none => writeNearest Heap.root name v
      | some depth => writeOutward depth name v := by
  unfold writeVariable Setting.following
  dsimp only
  cases Binding.depthOf depths serial <;> rfl

theorem writeNearest_root (name : Token) (v : Value) (m : Machine) :
    writeNearest Heap.root name v m = if m.heap.holds Heap.root name.lexeme then
      .ok () { m with heap := m.heap.define Heap.root name.lexeme v }
    else .error (.crash ⟨name, .undefined name.lexeme⟩) m := by
  unfold writeNearest Heap.assign?
  rw [Heap.holder?_root]
  cases m.heap.holds Heap.root name.lexeme <;> rfl

end Eval

/-- The frame that an assignment with this depth goes to. -/
def Machine.target (m : Machine) : Option Nat → Option Nat
  | none => some Heap.root
  | some depth => m.heap.outward? depth m.here

namespace Session

variable {host : Host} {r : Report} {lines : List String} {s : Session} {a : Moment}

/-- How an assignment ends when its value `v` is there, on a machine `m`. -/
inductive Assigned (host : Host) (r : Report) (lines : List String) (s : Session) (m : Machine)
    (name : Token) (serial : Nat) (v : Value) (frame : Nat) :
    EStateM.Result Stop Machine Value → Prop
  /-- The frame holds the name, which is bound to the value instead. -/
  | overwrites : m.heap.holds frame name.lexeme = true →
      Assigned host r lines s m name serial v frame
        (.ok v { m with heap := m.heap.define frame name.lexeme v })
  /-- The name is no global. -/
  | undefined : m.heap.holds frame name.lexeme = false →
      Binding.depthOf s.depths serial = none →
      Assigned host r lines s m name serial v frame
        (.error (.crash ⟨name, .undefined name.lexeme⟩) m)
  /-- The assignment stands in the initialiser of the variable, and binds it before its time. -/
  | initialises {site : Site} : m.heap.holds frame name.lexeme = false →
      Binding.depthOf s.depths serial = some 0 → IsSite host r lines site name serial true →
      site.InInitialiser →
      Assigned host r lines s m name serial v frame
        (.ok v { m with heap := m.heap.define frame name.lexeme v })

/-- A pending name that a site of a session refers to is that of the variable around. -/
theorem inInitialiser_of_pending {site : Site} (hsite : (chronicle host r lines).site site)
    {depth : Nat} (hd : site.scopes.depthOf site.name.lexeme = some depth)
    (hp : site.scopes.isPending site.name.lexeme = true) : depth = 0 ∧ site.InInitialiser := by
  obtain ⟨s', program, haccepts, hmem⟩ := hsite
  obtain ⟨before, line, after, -, hready, -⟩ := haccepts.ready
  exact Sites.pending_of_mem hready.derives.wellformed.shape hmem hd hp

variable {times : Nat → Float}

/-- The depth of an assignment leads to a frame that holds the name when the value is there, or else
the assignment stands in the initialiser of the variable. -/
theorem Comes.target (h : Comes (Host.telling times) r lines s a) {name : Token} {value : Expr}
    {serial depth fuel : Nat} {v : Value} {m : Machine}
    (htask : a.task = .expr (.assign name value serial)) (hfuel : a.fuel = fuel + 1)
    (hv : Eval.expr (.following s.depths (Host.telling times)) fuel a.room value a.machine =
      .ok v m)
    (hd : Binding.depthOf s.depths serial = some depth) :
    ∃ frame, m.heap.outward? depth m.here = some frame ∧
      (m.heap.holds frame name.lexeme = true ∨ depth = 0 ∧ ∃ site,
        IsSite (Host.telling times) r lines site name serial true ∧ site.InInitialiser) := by
  obtain ⟨front, st, rest, m₀, haccepts, hrun, hreach⟩ := h
  obtain ⟨early, late, rfl, haccepts', hknown⟩ := haccepts.known
  have hupto : (chronicle (Host.telling times) r early).Upto _ := chronicle_upto early late
  have hsound : ∀ b, Reaches (.following s.depths (Host.telling times))
      ⟨enoughFuel, maxCalls, .stmt st, m₀⟩ b → b.Sound (chronicle _ r early) := fun b hb =>
    sound_of_comes ⟨front, st, rest, m₀, haccepts', hrun, hb⟩
  obtain ⟨_, room, _, machine⟩ := a
  obtain rfl : _ = Task.expr (.assign name value serial) := htask
  obtain rfl : _ = fuel + 1 := hfuel
  have hvalue := hreach.tail .assign
  obtain ⟨rs, layers, g, hp, hsite⟩ := (hsound _ hreach).assignment
    (Setting.plain_telling s.depths times) (fun b hb => haccepts'.moment rfl hrun (hvalue.trans hb))
    hv
  have hfound := (hknown _ hsite).found
  obtain ⟨frame, hout, hholds⟩ := hfound.holds hp hd
  refine ⟨frame, hout, ?_⟩
  cases hpending : (⟨layers, .globals g⟩ : Scopes).isPending name.lexeme with
  | false => exact .inl (hholds hpending)
  | true =>
    obtain ⟨rfl, hin⟩ :=
      inInitialiser_of_pending hsite (hfound.depth.symm.trans hd) hpending
    exact .inr ⟨rfl, _, isSite (hupto.site _ hsite), hin⟩

/-- An assignment whose value is there overwrites what its target holds under the name. If its
target does not hold the name, it crashes, and leaves the machine as it is, or it stands in the
initialiser of the local variable that it assigns to. -/
theorem Comes.assigned (h : Comes (Host.telling times) r lines s a) {name : Token} {value : Expr}
    {serial fuel : Nat} {v : Value} {m : Machine}
    (htask : a.task = .expr (.assign name value serial)) (hfuel : a.fuel = fuel + 1)
    (hv : Eval.expr (.following s.depths (Host.telling times)) fuel a.room value a.machine =
      .ok v m) :
    ∃ frame, m.target (Binding.depthOf s.depths serial) = some frame ∧
      Assigned (Host.telling times) r lines s m name serial v frame
        (Eval.expr (.following s.depths (Host.telling times)) a.fuel a.room
          (.assign name value serial) a.machine) := by
  have hrun : Eval.expr (.following s.depths (Host.telling times)) a.fuel a.room
      (.assign name value serial) a.machine = (do
        Eval.writeVariable (.following s.depths (Host.telling times)) name serial v
        return v) m := by
    rw [hfuel]
    exact Eval.assign_eq _ _ hv
  rw [hrun, Eval.writeVariable_following]
  cases hd : Binding.depthOf s.depths serial with
  | none =>
    refine ⟨Heap.root, rfl, ?_⟩
    have hwrite := Eval.writeNearest_root name v m
    cases hholds : m.heap.holds Heap.root name.lexeme with
    | true =>
      rw [if_pos hholds] at hwrite
      rw [Eval.bind_ok hwrite]
      exact .overwrites hholds
    | false =>
      rw [if_neg (Bool.eq_false_iff.1 hholds)] at hwrite
      rw [Eval.bind_error hwrite]
      exact .undefined hholds hd
  | some depth =>
    obtain ⟨frame, hout, hcases⟩ := h.target htask hfuel hv hd
    refine ⟨frame, hout, ?_⟩
    rw [Eval.bind_ok (Eval.writeOutward_eq name v hout)]
    cases hholds : m.heap.holds frame name.lexeme with
    | true => exact .overwrites hholds
    | false =>
      rcases hcases with hholds' | ⟨rfl, site, hsite, hin⟩
      · rw [hholds] at hholds'
        cases hholds'
      · exact .initialises hholds hd hsite hin

/-- Below a moment of a session are moments of the session. -/
theorem Comes.below {b : Moment} (h : Comes host r lines s a)
    (hb : Reaches (.following s.depths host) a b) : Comes host r lines s b := by
  obtain ⟨front, st, rest, m, haccepts, hrun, hreach⟩ := h
  exact ⟨front, st, rest, m, haccepts, hrun, hreach.trans hb⟩

/-- A moment assigns to a name in the initialiser of the variable with this name, and the frame that
it is in is the one given. -/
def Initialises (host : Host) (r : Report) (lines : List String) (b : Moment) (frame : Nat)
    (name : String) : Prop :=
  ∃ n value serial site, b.task = .expr (.assign n value serial) ∧ n.lexeme = name ∧
    frame = b.machine.here ∧ IsSite host r lines site n serial true ∧ site.InInitialiser

/-- Names that frames hold on a later machine, and did not hold at a moment, were bound below it. -/
def BoundBelow (host : Host) (r : Report) (lines : List String) (s : Session) (a : Moment)
    (m : Machine) : Prop :=
  ∀ frame name, m.heap.holds frame name = true → a.machine.heap.holds frame name = true ∨
    ∃ b, Reaches (.following s.depths host) a b ∧
      (b.Declares frame name ∨ Initialises host r lines b frame name)

/-- An assignment that binds a name stands in the initialiser of the variable. -/
theorem Comes.initialises (h : Comes (Host.telling times) r lines s a) {e : Nat} {name : String}
    (hcreates : a.Creates (.following s.depths (Host.telling times)) e name) :
    Initialises (Host.telling times) r lines a e name := by
  cases hcreates with
  | @intro fuel room serial depth _ n value v m m' hroute hv hout hholds =>
    obtain ⟨frame, hout', hcases⟩ := h.target rfl rfl hv (Route.depth_of_outward hroute)
    obtain rfl := Option.some.inj (hout.symm.trans hout')
    rcases hcases with hholds' | ⟨rfl, site, hsite, hin⟩
    · rw [hholds] at hholds'
      cases hholds'
    · have hleft := (Moment.left (.following s.depths (Host.telling times))
        ⟨fuel, room, .expr value, m⟩).ok hv
      obtain rfl : m'.here = e := Option.some.inj hout
      exact ⟨n, value, serial, site, rfl, rfl, hleft.here, hsite, hin⟩

/-- However a moment of a session ends, a name that a frame holds then and did not hold before was
bound by a declaration in this frame, by the call that made the frame, or by an assignment in the
initialiser of the variable with this name. -/
theorem Comes.binds (h : Comes (Host.telling times) r lines s a) :
    (a.task.run (.following s.depths (Host.telling times)) a.fuel a.room).Ends a.machine
      (fun _ m' => BoundBelow (Host.telling times) r lines s a m')
      fun _ m' => BoundBelow (Host.telling times) r lines s a m' := by
  have hgrown : ∀ m', Left (.naming (a.Binds (.following s.depths (Host.telling times))))
      a.machine m' → BoundBelow (Host.telling times) r lines s a m' := by
    intro m' hleft e name hname
    rcases hleft.names e name hname with hold | ⟨b, hb, hdeclares | hcreates⟩
    · exact .inl hold
    · exact .inr ⟨b, hb, .inl hdeclares⟩
    · exact .inr ⟨b, hb, .inr ((h.below hb).initialises hcreates)⟩
  exact Eval.Ends.mono (Moment.left _ a) (fun _ m' => hgrown m') fun _ m' => hgrown m'

/-- **What assignments bind.** At every moment of a session, an assignment whose value is there
overwrites a binding of its target, or crashes, or stands in the initialiser of the local variable
that it assigns to. And however the moment ends, new names were bound by declarations, by calls, or
by such assignments in initialisers. -/
theorem assignments_bind (h : Comes (Host.telling times) r lines s a) :
    (∀ (name : Token) (value : Expr) (serial fuel : Nat) (v : Value) (m : Machine),
      a.task = .expr (.assign name value serial) → a.fuel = fuel + 1 →
      Eval.expr (.following s.depths (Host.telling times)) fuel a.room value a.machine = .ok v m →
      ∃ frame, m.target (Binding.depthOf s.depths serial) = some frame ∧
        Assigned (Host.telling times) r lines s m name serial v frame
          (Eval.expr (.following s.depths (Host.telling times)) a.fuel a.room
            (.assign name value serial) a.machine)) ∧
    (a.task.run (.following s.depths (Host.telling times)) a.fuel a.room).Ends a.machine
      (fun _ m' => BoundBelow (Host.telling times) r lines s a m')
      fun _ m' => BoundBelow (Host.telling times) r lines s a m' :=
  ⟨fun _ _ _ _ _ _ htask hfuel hv => h.assigned htask hfuel hv, h.binds⟩

/-! ## An initialiser that assigns to its variable -/

theorem of_sameAll_initialised {program : List Stmt} {t t' : Token} {k : Nat}
    (h : Stmt.sameAll program
      [.block [.var t (some (.assign t' (.literal .nil) k))]] = true) :
    ∃ name name' k, program = [.block [.var name (some (.assign name' (.literal .nil) k))]] ∧
      name'.lexeme = t'.lexeme := by
  obtain ⟨st, rfl, houter⟩ := Stmt.of_sameAll_one h
  obtain ⟨body, rfl, hbody⟩ := Stmt.of_same_block houter
  obtain ⟨st, rfl, hvar⟩ := Stmt.of_sameAll_one hbody
  cases st <;> try simp [Stmt.same] at hvar
  next name init =>
    rcases init with _ | e
    · simp [Expr.sameOption] at hvar
    · cases e <;> try simp [Expr.sameOption, Expr.same] at hvar
      next name' value k =>
        obtain ⟨-, hname, hvalue⟩ := hvar
        cases value <;> try simp [Expr.same] at hvalue
        next l =>
          cases l <;> try simp [Literal.same] at hvalue
          refine ⟨_, _, _, rfl, ?_⟩
          simp only [Token.same, Bool.and_eq_true, beq_iff_eq] at hname
          exact hname.1.1.1.2

theorem eval_nil (setting : Setting) (fuel room : Nat) (m : Machine) :
    Eval.expr setting (fuel + 1) room (.literal .nil) m = .ok .nil m := by
  rw [Eval.expr]
  rfl

/-- A session comes to an assignment in the initialiser of its variable. -/
theorem comes_initialiser : ∃ s name serial fuel m,
    Comes (Host.telling fun _ => 0) (.fresh 10 false) ["{ var a = a = nil; }"] s
      ⟨fuel + 2, maxCalls, .expr (.assign name (.literal .nil) serial), m⟩ ∧
    Binding.depthOf s.depths serial = some 0 ∧ m.heap.holds m.here name.lexeme = false ∧
    m.here < m.heap.size := by
  have hfinished : (fresh.runLine (Host.telling fun _ => 0) (.fresh 10 false)
      "{ var a = a = nil; }").1.finished = true := by decide +kernel
  have hdepth : Binding.depthOf (fresh.prepare (Report.fresh 10 false).reset
      "{ var a = a = nil; }").2.1.depths 1 = some 0 := by decide +kernel
  have hsame : Stmt.sameAll (fresh.reading "{ var a = a = nil; }").statements
      [.block [.var ⟨.name, "a", .nil, 1, 6⟩ (some (.assign ⟨.name, "a", .nil, 1, 10⟩
        (.literal .nil) 1))]] = true := by decide +kernel
  have hserials : Serials.stmts (fresh.reading "{ var a = a = nil; }").statements = [1] := by
    decide +kernel
  obtain ⟨program, s, r, m, hp, -⟩ := prepared_of_ran (ran_of_finished hfinished)
  rw [hp] at hdepth
  obtain ⟨declared, name, k, hprogram, hname⟩ := of_sameAll_initialised hsame
  rw [hprogram] at hserials
  obtain rfl : k = 1 := List.singleton_injective hserials
  rw [(ready_of_prepare hp).read] at hprogram
  obtain rfl := hprogram
  have haccepts : Accepts (Host.telling fun _ => 0) (.fresh 10 false) _ s _ :=
    ⟨[], _, [], r, rfl, hp⟩
  obtain ⟨fuel, hfuel⟩ : ∃ fuel, enoughFuel = fuel + 5 := ⟨1152921504606846971, by decide +kernel⟩
  refine ⟨s, name, 1, fuel, s.machine.framed s.machine.here, haccepts.comes ?_, hdepth, ?_, ?_⟩
  · rw [hfuel]
    exact .head .block (.head .front (.single .initialiser))
  · rw [hname, prepare_machine hp]
    rfl
  · rw [prepare_machine hp]
    decide

/-- At such an assignment the new name is bound by it. -/
theorem assignments_bind_initialiser : ∃ s name serial fuel m m',
    Comes (Host.telling fun _ => 0) (.fresh 10 false) ["{ var a = a = nil; }"] s
      ⟨fuel, maxCalls, .expr (.assign name (.literal .nil) serial), m⟩ ∧
    Eval.expr (.following s.depths (Host.telling fun _ => 0)) fuel maxCalls
      (.assign name (.literal .nil) serial) m = .ok .nil m' ∧
    ∃ site, IsSite (Host.telling fun _ => 0) (.fresh 10 false) ["{ var a = a = nil; }"] site name
      serial true ∧ site.InInitialiser := by
  obtain ⟨s, name, serial, fuel, m, hcomes, hdepth, hnew, -⟩ := comes_initialiser
  obtain ⟨frame, hframe, hassigned⟩ := (assignments_bind hcomes).1 name (.literal .nil) serial
    (fuel + 1) .nil m rfl rfl (eval_nil _ _ _ _)
  rw [hdepth] at hframe
  obtain rfl : m.here = frame := Option.some.inj hframe
  generalize hrun : Eval.expr (.following s.depths (Host.telling fun _ => 0)) (fuel + 2) maxCalls
    (.assign name (.literal .nil) serial) m = result at hassigned
  cases hassigned with
  | overwrites hheld =>
    rw [hnew] at hheld
    cases hheld
  | undefined _ hglobal =>
    rw [hdepth] at hglobal
    cases hglobal
  | initialises _ _ hsite hin =>
    exact ⟨s, name, serial, fuel + 2, m, _, hcomes, hrun, _, hsite, hin⟩

/-- The assignment in `{ var a = a = nil; }` neither overwrites nor crashes: the frame that it goes
to does not hold the name before, and holds it behind the assignment. -/
theorem assignment_creates : ∃ s name serial fuel m m',
    Comes (Host.telling fun _ => 0) (.fresh 10 false) ["{ var a = a = nil; }"] s
      ⟨fuel, maxCalls, .expr (.assign name (.literal .nil) serial), m⟩ ∧
    m.target (Binding.depthOf s.depths serial) = some m.here ∧
    m.heap.holds m.here name.lexeme = false ∧
    Eval.expr (.following s.depths (Host.telling fun _ => 0)) fuel maxCalls
      (.assign name (.literal .nil) serial) m = .ok .nil m' ∧
    m'.heap.holds m.here name.lexeme = true := by
  obtain ⟨s, name, serial, fuel, m, hcomes, hdepth, hnew, hlt⟩ := comes_initialiser
  have hassign := Eval.assign_eq name serial
    (eval_nil (.following s.depths (Host.telling fun _ => 0)) fuel maxCalls m)
  rw [Eval.writeVariable_following, hdepth] at hassign
  have hout : m.heap.outward? 0 m.here = some m.here := rfl
  have hwrite := Eval.writeOutward_eq name .nil hout
  refine ⟨s, name, serial, fuel + 2, m, { m with heap := m.heap.define m.here name.lexeme .nil },
    hcomes, ?_, hnew, hassign.trans (Eval.bind_ok hwrite), ?_⟩
  · rw [hdepth]
    rfl
  · exact Heap.holds_define m.heap hlt name.lexeme .nil

end Session

end Scriptlet

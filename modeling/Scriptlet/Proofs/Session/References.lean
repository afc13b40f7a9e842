import Scriptlet.Proofs.Binding.Lands
import Scriptlet.Proofs.Session.Lines
import Scriptlet.Tree.Same

/-!
# References find their declarations

Whenever a session evaluates a reference with a depth, the frame so many links out is there and is
not that of the globals: it was made for the block or the call whose scope holds the declaration
that the reference means, and if the reference reads, the frame holds the name
(`Session.references_land`). This holds for every line and at every moment, whatever has become of
the lines before.

The reference itself is known by its serial: no two sites of a session have the same one
(`Session.site_unique`).
-/

namespace Scriptlet

/-- What is known of the site of a reference in a session. -/
structure Session.Known (s : Session) (site : Site) : Prop where
  serial : site.serial < s.serial
  found : site.Found (Binding.depthOf s.depths)

namespace Stmt

theorem of_sameAll_one {program : List Stmt} {st : Stmt} (h : sameAll program [st] = true) :
    ∃ st', program = [st'] ∧ st'.same st = true := by
  rcases program with _ | ⟨st', _ | _⟩ <;> simp_all [sameAll]

theorem of_same_block {st : Stmt} {body : List Stmt} (h : st.same (.block body) = true) :
    ∃ body', st = .block body' ∧ sameAll body' body = true := by
  cases st <;> simp_all [same]

/-- What is the same as a block around a block that reads a name, is one. -/
theorem of_sameAll_inner {program : List Stmt} {a a' : Token} {k : Nat} (h : sameAll program
    [.block [.var a none, .block [.expr (.ref a' k)]]] = true) :
    ∃ a a' k, program = [.block [.var a none, .block [.expr (.ref a' k)]]] := by
  obtain ⟨st, rfl, houter⟩ := of_sameAll_one h
  obtain ⟨body, rfl, hbody⟩ := of_same_block houter
  cases body with
  | nil => cases hbody
  | cons declaration rest =>
    obtain ⟨hvar, hrest⟩ := Bool.and_eq_true_iff.1 hbody
    obtain ⟨st, rfl, hinner⟩ := of_sameAll_one hrest
    obtain ⟨body, rfl, hlast⟩ := of_same_block hinner
    obtain ⟨st, rfl, hexpr⟩ := of_sameAll_one hlast
    cases declaration <;> try simp [same] at hvar
    cases st <;> try simp [same] at hexpr
    next name init e =>
      cases e <;> try simp [Expr.same] at hexpr
      cases init <;> try simp [Expr.sameOption] at hvar
      exact ⟨_, _, _, rfl⟩

end Stmt

namespace Session

variable {host : Host} {r : Report} {lines : List String} {s s' : Session} {program : List Stmt}
  {site site' : Site}

/-! ## What is on record -/

theorem known_of_ready {s₀ : Session} {text : String} (h : Ready s₀ text program s)
    (hsite : site ∈ s.sites program) : s.Known site :=
  ⟨h.between.high _ (List.mem_map_of_mem hsite), h.found site (h.sites_eq ▸ hsite)⟩

theorem known_of_prepare {p : Prepared} {r₀ r' : Report} {text : String} (h : s.Known site)
    (hp : s.prepare r₀ text = (p, s', r')) : s'.Known site := by
  obtain ⟨hle, hold⟩ := prepare_older hp
  refine ⟨Nat.lt_of_lt_of_le h.serial hle, ?_, h.found.settled, h.found.owned⟩
  rw [hold _ h.serial, h.found.depth]

theorem known_carriedOut {p : Prepared} (h : s.Known site) :
    (p.carriedOut host s).Known site := by
  cases p <;> exact ⟨h.serial, h.found⟩

/-- Behind all lines every site of the session is known. -/
theorem known_afterLines (lines : List String) :
    ∀ site, (chronicle host r lines).site site → (afterLines host r lines).1.Known site := by
  induction lines using List.reverseRecOn with
  | nil =>
    rintro site ⟨s, program, ⟨before, line, after, _, heq, -⟩, -⟩
    simp at heq
  | append_singleton lines line ih =>
    rintro site ⟨s, program, haccepts, hsite⟩
    rw [afterLines_append]
    rcases hp : (afterLines host r lines).1.prepare (afterLines host r lines).2.reset line
      with ⟨p, s', r'⟩
    rw [runLine_of_prepare hp]
    refine known_carriedOut ?_
    rcases haccepts.last hp with hold | ⟨rfl, rfl⟩
    · exact known_of_prepare (ih site ⟨s, program, hold, hsite⟩) hp
    · exact known_of_ready (ready_of_prepare hp) hsite

/-- When a line has been prepared, the sites of the session up to it are known. -/
theorem Accepts.known (h : Accepts host r lines s program) : ∃ front back, lines = front ++ back ∧
    Accepts host r front s program ∧ ∀ site, (chronicle host r front).site site → s.Known site := by
  obtain ⟨before, line, after, r', rfl, hp⟩ := h
  refine ⟨before ++ [line], after, by simp, ⟨before, line, [], r', rfl, hp⟩, ?_⟩
  rintro site ⟨s', program', haccepts, hsite⟩
  rcases haccepts.last hp with hold | ⟨hprogram, rfl⟩
  · exact known_of_prepare (known_afterLines before site ⟨s', program', hold, hsite⟩) hp
  · obtain rfl := Prepared.ready.inj hprogram
    exact known_of_ready (ready_of_prepare hp) hsite

/-- No two references of a session have the same serial. -/
theorem site_unique (lines : List String) : ∀ site site', (chronicle host r lines).site site →
    (chronicle host r lines).site site' → site.serial = site'.serial → site = site' := by
  induction lines using List.reverseRecOn with
  | nil =>
    rintro site site' ⟨s, program, ⟨before, line, after, _, heq, -⟩, -⟩
    simp at heq
  | append_singleton lines line ih =>
    rintro site site' ⟨s, program, ha, hsite⟩ ⟨s', program', ha', hsite'⟩ heq
    rcases hp : (afterLines host r lines).1.prepare (afterLines host r lines).2.reset line
      with ⟨p, s₁, r₁⟩
    rcases ha.last hp with hold | ⟨rfl, rfl⟩ <;> rcases ha'.last hp with hold' | ⟨hprogram, rfl⟩
    · exact ih site site' ⟨s, program, hold, hsite⟩ ⟨s', program', hold', hsite'⟩ heq
    · obtain rfl := hprogram
      have hlt := (known_afterLines lines site ⟨s, program, hold, hsite⟩).serial
      have hle := (ready_of_prepare hp).between.low _ (List.mem_map_of_mem hsite')
      omega
    · have hlt := (known_afterLines lines site' ⟨s', program', hold', hsite'⟩).serial
      have hle := (ready_of_prepare hp).between.low _ (List.mem_map_of_mem hsite)
      omega
    · obtain rfl := Prepared.ready.inj hprogram
      have hnodup := (ready_of_prepare hp).between.nodup
      exact List.inj_on_of_nodup_map hnodup hsite hsite' heq

/-! ## Where references land -/

/-- A site is that of a reference in a session, the only one with its serial. -/
structure IsSite (host : Host) (r : Report) (lines : List String) (site : Site) (name : Token)
    (serial : Nat) (writes : Bool) : Prop where
  known : (chronicle host r lines).site site
  unique : ∀ site', (chronicle host r lines).site site' → site'.serial = serial → site' = site
  name : site.name = name
  serial : site.serial = serial
  writes : site.writes = writes

theorem isSite (h : (chronicle host r lines).site site) :
    IsSite host r lines site site.name site.serial site.writes :=
  ⟨h, fun site' h' heq => site_unique lines site' site h' h heq, rfl, rfl, rfl⟩

/-- **References find their declarations.** At every moment of a session that evaluates a reference
with a depth, the frame so many links out was made for the region that declares its name. What is
read is there, and what is assigned is assigned to that frame, whatever the value has done. -/
theorem references_land (times : Nat → Float) (r : Report) (lines : List String) {s : Session}
    {a : Moment} (h : Comes (Host.telling times) r lines s a) {name : Token} {serial depth : Nat}
    (hd : Binding.depthOf s.depths serial = some depth) :
    (a.task = .expr (.ref name serial) → ∃ site,
      IsSite (Host.telling times) r lines site name serial false ∧
        site.scopes.depthOf name.lexeme = some depth ∧
        Lands (chronicle (Host.telling times) r lines) a.machine site depth ∧
        ∃ v, a.machine.heap.getAt depth a.machine.here name.lexeme = .ok v) ∧
    ∀ value, a.task = .expr (.assign name value serial) → ∃ site,
      IsSite (Host.telling times) r lines site name serial true ∧
        site.scopes.depthOf name.lexeme = some depth ∧
        Lands (chronicle (Host.telling times) r lines) a.machine site depth ∧
        ∀ v m' fuel, a.fuel = fuel + 1 →
          Eval.expr (.following s.depths (Host.telling times)) fuel a.room value a.machine =
            .ok v m' → Lands (chronicle (Host.telling times) r lines) m' site depth := by
  obtain ⟨front, st, rest, m, haccepts, hrun, hreach⟩ := h
  obtain ⟨early, late, rfl, haccepts', hknown⟩ := haccepts.known
  -- What is known of sites is known up to this line; what was made is made for all lines.
  have hupto : (chronicle (Host.telling times) r early).Upto _ := chronicle_upto early late
  have hsound : ∀ b, Reaches (.following s.depths (Host.telling times))
      ⟨enoughFuel, maxCalls, .stmt st, m⟩ b → b.Sound (chronicle _ r early) := fun b hb =>
    sound_of_comes ⟨front, st, rest, m, haccepts', hrun, hb⟩
  obtain ⟨fuel, room, task, machine⟩ := a
  refine ⟨fun htask => ?_, fun value htask => ?_⟩
  · obtain rfl : task = .expr (.ref name serial) := htask
    obtain ⟨rs, layers, g, hp, hsites⟩ := (hsound _ hreach).stands
    have hsite := hsites ⟨serial, name, false, ⟨layers, .globals g⟩, rs⟩
      (List.mem_singleton_self _)
    have hk := hknown _ hsite
    have hlands := hk.found.lands hp hd
    exact ⟨_, isSite (hupto.site _ hsite), hk.found.depth.symm.trans hd, hlands.mono hupto,
      hlands.reads rfl⟩
  · obtain rfl : task = .expr (.assign name value serial) := htask
    obtain ⟨rs, layers, g, hp, hsites⟩ := (hsound _ hreach).stands
    have hsite := hsites ⟨serial, name, true, ⟨layers, .globals g⟩, rs⟩
      (List.mem_append_right _ (List.mem_singleton_self _))
    have hk := hknown _ hsite
    refine ⟨_, isSite (hupto.site _ hsite), hk.found.depth.symm.trans hd,
      (hk.found.lands hp hd).mono hupto, ?_⟩
    rintro v m' fuel' ⟨⟩ hv
    have hvalue := hreach.tail .assign
    have hkeeps := (hsound _ hvalue).keeps (Setting.plain_telling s.depths times) _ _ _ _
      fun b hb => haccepts'.moment rfl hrun (hvalue.trans hb)
    have hl := (hkeeps.ok hv).1
    have hp' : Placed (chronicle (Host.telling times) r early) m'.heap m'.here layers rs := by
      rw [hl.here]
      exact hp.mono (.refl _) hl.extended
    exact (hk.found.lands hp' hd).mono hupto

/-- Behind a line that crashes, a name is read from the block around. -/
theorem references_land_behind_crash : ∃ s a name,
    Comes (Host.telling fun _ => 0) (.fresh 10 false) ["missing;", "{ var a; { a; } }"] s a ∧
      a.task = .expr (.ref name 1) ∧ Binding.depthOf s.depths 1 = some 1 ∧
      ∃ v, a.machine.heap.getAt 1 a.machine.here name.lexeme = .ok v := by
  rcases hbefore : afterLines (Host.telling fun _ => 0) (.fresh 10 false) ["missing;"]
    with ⟨s₀, r₀⟩
  have hfinished : ((afterLines (Host.telling fun _ => 0) (.fresh 10 false) ["missing;"]).1.runLine
      (Host.telling fun _ => 0) (afterLines (Host.telling fun _ => 0) (.fresh 10 false)
        ["missing;"]).2 "{ var a; { a; } }").1.finished = true := by decide +kernel
  have hdepth : Binding.depthOf ((afterLines (Host.telling fun _ => 0) (.fresh 10 false)
      ["missing;"]).1.prepare (afterLines (Host.telling fun _ => 0) (.fresh 10 false)
        ["missing;"]).2.reset "{ var a; { a; } }").2.1.depths 1 = some 1 := by decide +kernel
  have hsame : Stmt.sameAll ((afterLines (Host.telling fun _ => 0) (.fresh 10 false)
      ["missing;"]).1.reading "{ var a; { a; } }").statements
      [.block [.var ⟨.name, "a", .nil, 1, 6⟩ none,
        .block [.expr (.ref ⟨.name, "a", .nil, 1, 11⟩ 1)]]] = true := by decide +kernel
  have hserials : Serials.stmts ((afterLines (Host.telling fun _ => 0) (.fresh 10 false)
      ["missing;"]).1.reading "{ var a; { a; } }").statements = [1] := by decide +kernel
  rw [hbefore] at hfinished hdepth hsame hserials
  obtain ⟨program, s, r, m, hp, -⟩ := prepared_of_ran (ran_of_finished hfinished)
  rw [hp] at hdepth
  obtain ⟨a, name, k, hprogram⟩ := Stmt.of_sameAll_inner hsame
  rw [hprogram] at hserials
  obtain rfl : k = 1 := List.singleton_injective hserials
  rw [(ready_of_prepare hp).read] at hprogram
  obtain rfl := hprogram
  have haccepts : Accepts (Host.telling fun _ => 0) (.fresh 10 false) _ s _ :=
    ⟨["missing;"], _, [], r, rfl, by rw [hbefore]; exact hp⟩
  -- The block is begun, its variable is declared, and the block within is begun.
  obtain ⟨fuel, hfuel⟩ : ∃ fuel, enoughFuel = fuel + 6 := ⟨1152921504606846970, by decide +kernel⟩
  have hreach : ∃ m, Reaches (.following s.depths (Host.telling fun _ => 0))
      ⟨enoughFuel, maxCalls, .stmt (.block [.var a none, .block [.expr (.ref name 1)]]),
        s.machine⟩ ⟨fuel, maxCalls, .expr (.ref name 1), m⟩ := by
    rw [hfuel]
    have hvar : ∀ m : Machine, Eval.stmt (.following s.depths (Host.telling fun _ => 0))
        (fuel + 4) maxCalls (.var a none) m =
          .ok .goOn { m with heap := m.heap.define m.here a.lexeme .nil } := fun m => by
      simp only [Eval.stmt]
      rfl
    exact ⟨_, .head .block (.head (.next (hvar _)) (.head .front (.head .block
      (.head .front (.single .statement)))))⟩
  obtain ⟨m, hreach⟩ := hreach
  have hcomes := haccepts.comes hreach
  obtain ⟨_, _, _, _, hread⟩ := (references_land _ _ _ hcomes hdepth).1 rfl
  exact ⟨s, _, name, hcomes, rfl, hdepth, hread⟩

end Session

end Scriptlet

import Scriptlet.Proofs.Session.Abreast
import Scriptlet.Proofs.Token.Placing

/-!
# Lines joined are one program

A session that runs line behind line does what the lines do when they are joined by line breaks and
run as one text (`Session.joined_runs`). All lines but the last have to run to their end; the last
may also crash.

What holds of the texts joined so far is kept as one invariant (`Session.Joined`), for all phases
at once. No line reaches into the next: the tokens, the declarations, the findings about names and
the run of the whole are those of the lines, one behind the other. What makes the whole differ is
where its tokens stand, which globals are known when a name is bound, and the table in which the
depths of references are on record.

**Known globals.** A line is bound with the globals that are there when it comes. In the whole, what
was declared above is taken to be defined instead. That is enough, since a program defines no other
globals than it declares (`Machine.run_grown`).

**Places.** Lines may repeat, so the tokens of a line do not tell which line it is. But the lines
may be fed to a session each in its place, below blanks instead of the lines above
(`Text.placed`). Then every token is where it is in the whole: this session stays abreast of the
first (`Session.abreast_placed`), and its crash is that of the whole, blamed on the very same
token.
-/

namespace Scriptlet

open Binding (findings Reference)

/-- A token of one of these lines, and the same token below the lines above. -/
def Likeness.joining (lines : List String) (depth : Nat → Option Nat) : Likeness where
  occurs _ := True
  name _ n := n
  token _ t t' := ∃ above line after, lines = above ++ line :: after ∧
    t ∈ (Scan.ofText line).tokens.toList ∧ t' = t.below above
  depth := depth
  name_false _ := rfl
  injective _ := Function.injective_id
  apart _ _ h := h
  kind := by
    rintro _ t _ ⟨above, line, after, -, -, rfl⟩
    exact Token.kind_below above t
  lexeme := by
    rintro _ t _ ⟨above, line, after, -, -, rfl⟩
    exact Token.lexeme_below above t

theorem Likeness.plain_joining (lines : List String) (depth : Nat → Option Nat) :
    (joining lines depth).Plain := by
  refine ⟨fun h => ⟨h, trivial⟩, ?_⟩
  rintro t _ ⟨above, line, after, -, -, rfl⟩
  exact Token.literal_below above t

/-- The same tokens. -/
def Likeness.exact (depth : Nat → Option Nat) : Likeness where
  occurs _ := True
  name _ n := n
  token _ t t' := t' = t
  depth := depth
  name_false _ := rfl
  injective _ := Function.injective_id
  apart _ _ h := h
  kind h := congrArg Token.kind h
  lexeme h := congrArg Token.lexeme h

theorem Likeness.plain_exact (depth : Nat → Option Nat) : (exact depth).Plain :=
  ⟨fun h => ⟨h, trivial⟩, fun h => congrArg Token.literal h⟩

theorem Binding.findings_append (log log' : List Event) :
    findings (log ++ log') = findings log ++ findings log' := by
  unfold findings
  rw [List.filterMap_append, List.map_append]

namespace Session

variable {K : Likeness} {times : Nat → Float} {r : Report} {lines texts : List String}
  {line text : String} {program more : List Stmt} {s s' : Session} {ending : Ending} {m : Machine}
  {f : Token → Token}

/-- The walk over a program that is run by itself. -/
def walk (program : List Stmt) : Binding.Walk :=
  Binding.stmts program ⟨.outermost (.globals (.knowing fresh.globals.keys)), 0, #[]⟩

/-- Lines joined by line breaks. -/
abbrev joined (lines : List String) : String := "\n".intercalate lines

/-- The texts so far, joined, are a program that does what the lines of a session have done, up to
how the last of them has ended. -/
structure Joined (K : Likeness) (times : Nat → Float) (r : Report) (lines texts : List String)
    (program : List Stmt) (ending : Ending) : Prop where
  scanned : (Scan.ofText (joined texts)).issues = #[]
  derives : Grammar.Declarations Grammar.maxDepth 0 (Scan.ofText (joined texts)).tokens.toList
    program (afterLines (Host.telling times) r lines).1.serial
  clean : ∀ e ∈ (walk program).log.toList, e.isTrouble = false
  globals : ∃ g, (walk program).scopes = ⟨[], .globals g⟩ ∧ g.pending = [] ∧
    (afterLines (Host.telling times) r lines).1.globals.keys ⊆ g.defined
  recorded : ∀ site, (chronicle (Host.telling times) r lines).site site →
    (site.serial, site.writes, K.depth site.serial) ∈ findings (walk program).log.toList
  runs : ∀ depths, (∀ site, (chronicle (Host.telling times) r lines).site site →
      Binding.depthOf depths site.serial = K.depth site.serial) →
    ∃ ending' m' marks, fresh.machine.run (.following depths (Host.telling times)) enoughFuel
        maxCalls program = (ending', m') ∧ ending.Alike K ending' ∧
      (afterLines (Host.telling times) r lines).1.machine.Alike K marks m'

theorem joined_nil : Joined K times r [] [] [] .finished := by
  have hsites : ∀ site, ¬(chronicle (Host.telling times) r []).site site := by
    rintro site ⟨s, program, ⟨before, line, after, r', heq, -⟩, -⟩
    exact absurd heq (by simp)
  refine ⟨by rw [Scan.ofText_nil]; rfl, ?_, fun e he => absurd he List.not_mem_nil,
    ⟨_, rfl, rfl, fun _ h => h⟩,
    fun site hsite => absurd hsite (hsites site),
    fun depths _ => ⟨.finished, _, _, rfl, .finished, alike_fresh⟩⟩
  rw [Scan.ofText_nil]
  exact .nil

/-! ## One more line -/

section Step

variable (hK : Fits K times r lines line f) (h : Ran times r lines line more s' ending m)

include hK h

/-- The globals behind the line were there before, or are declared by it. -/
theorem Ran.keys : (afterLines (Host.telling times) r (lines ++ [line])).1.globals.keys ⊆
    ((Globals.knowing (afterLines (Host.telling times) r lines).1.globals.keys).behind
      more).defined := by
  have hdefined : ∀ name, _ → name ∈ ((Globals.knowing
      (afterLines (Host.telling times) r lines).1.globals.keys).behind more).defined :=
    fun name => Globals.defined_behind _ more
  generalize (Globals.knowing _).behind more = g at hdefined ⊢
  have hgrown : Grown (· ∈ g.defined) s'.machine (s'.machine.run
      (.following s'.depths (Host.telling times)) enoughFuel maxCalls more).2 := by
    refine Machine.run_grown h.outside.heap.size h.outside.here (fun st hst => ?_) ?_
    · exact ⟨Shape.stmt_of_mem h.ready.derives.wellformed.shape hst,
        fun n hn => hdefined _ (.inr ⟨st, hst, n, hn, rfl⟩)⟩
    · intro front st rest m₁ heq hrun b hb
      exact (h.moments front st rest m₁ heq hrun b hb).aside
        (h.routed hK fun site hsite => h.depths hK hsite)
  intro name hname
  rw [mem_keys, h.after] at hname
  rw [h.run] at hgrown
  rcases hgrown.names name hname with hold | hnew
  · rw [h.ready.machine] at hold
    exact hdefined name (.inl (mem_keys.2 hold))
  · exact hnew

/-- In the whole the line is bound as by itself. -/
theorem Joined.bound (hj : Joined K times r lines texts program .finished) {more' : List Stmt}
    (halike : Stmts.Alike K [] more more') :
    (∃ g, (walk (program ++ more')).scopes = ⟨[], .globals g⟩ ∧ g.pending = [] ∧
      (afterLines (Host.telling times) r (lines ++ [line])).1.globals.keys ⊆ g.defined) ∧
    ∃ new, (walk (program ++ more')).log.toList = (walk program).log.toList ++ new ∧
      (∀ e ∈ new, e.isTrouble = false) ∧
      ∀ site ∈ (afterLines (Host.telling times) r lines).1.sites more,
        (site.serial, site.writes, K.depth site.serial) ∈ findings new := by
  obtain ⟨g, hscopes, hpending, hkeys⟩ := hj.globals
  have hbefore : Binding.Walk.Alike K [] ⟨.outermost (.globals (.knowing
      (afterLines (Host.telling times) r lines).1.globals.keys)), 0, #[]⟩ (walk program) := by
    refine ⟨?_, Nat.zero_le _⟩
    rw [hscopes]
    refine .intro .nil ⟨?_, hkeys⟩
    rw [hpending]
    exact List.nil_subset _
  have hwalk : walk (program ++ more') = Binding.stmts more' (walk program) :=
    Binding.stmts_append program more' _
  obtain ⟨hafter, hlog⟩ := h.bound hK halike hbefore
  rw [← hwalk] at hafter hlog
  refine ⟨?_, hlog⟩
  generalize (walk (program ++ more')).scopes = scopes at hafter ⊢
  cases hafter with
  | @intro _ _ _ g' hlayers hcovers =>
    cases hlayers
    have hnone := Globals.pending_behind (g := .knowing
      (afterLines (Host.telling times) r lines).1.globals.keys) rfl more
    refine ⟨g', rfl, List.subset_nil.1 ?_, List.Subset.trans (h.keys hK) hcovers.defined⟩
    rw [← hnone]
    exact hcovers.pending

/-- In the whole the line runs as by itself. -/
theorem Joined.run (hj : Joined K times r lines texts program .finished) {more' : List Stmt}
    (halike : Stmts.Alike K [] more more') {depths : Binding.Depths}
    (hdepths : ∀ site, (chronicle (Host.telling times) r (lines ++ [line])).site site →
      Binding.depthOf depths site.serial = K.depth site.serial) :
    ∃ ending' m' marks, fresh.machine.run (.following depths (Host.telling times)) enoughFuel
        maxCalls (program ++ more') = (ending', m') ∧ ending.Alike K ending' ∧
      (afterLines (Host.telling times) r (lines ++ [line])).1.machine.Alike K marks m' := by
  obtain ⟨_, m₁', marks, hfront, hfinished, hmachine⟩ := hj.runs depths fun site hsite =>
    hdepths site ((chronicle_upto lines [line]).site site hsite)
  cases hfinished
  rw [Machine.run_append, hfront]
  exact h.onward hK hmachine halike hdepths

/-- One more line, and one more text whose tokens are what those of the line are taken to. -/
theorem Joined.next (hj : Joined K times r lines texts program .finished)
    (hscan : (Scan.ofText text).issues = #[])
    (hbelow : (Scan.ofText text).tokens.toList.map (Token.below texts) =
      (Scan.ofText line).tokens.toList.map f) :
    ∃ program', Joined K times r (lines ++ [line]) (texts ++ [text]) program' ending := by
  obtain ⟨more', hderives, halike⟩ := h.carried hK
  obtain ⟨hglobals, new, hlog, hclean, hfindings⟩ := hj.bound hK h halike
  obtain ⟨hscanned, htokens⟩ := Scan.ofText_join hj.scanned hscan
  refine ⟨program ++ more', hscanned, ?_, ?_, hglobals, fun site hsite => ?_,
    fun depths hdepths => hj.run hK h halike hdepths⟩
  · rw [htokens, Array.toList_append, Array.toList_map, hbelow, h.after]
    exact hj.derives.append hderives
  · rw [hlog]
    exact List.forall_mem_append.2 ⟨hj.clean, hclean⟩
  · rw [hlog, Binding.findings_append]
    rcases h.site_cases hsite with hold | hnew
    · exact List.mem_append_left _ (hj.recorded site hold)
    · exact List.mem_append_right _ (hfindings site hnew)

end Step

/-! ## All lines -/

/-- All lines run to their end. -/
def Finishes (host : Host) (r : Report) (lines : List String) : Prop :=
  ∀ above line after, lines = above ++ line :: after →
    ((afterLines host r above).1.runLine host (afterLines host r above).2 line).1.finished = true

theorem finishes_append {host : Host} : Finishes host r (lines ++ [line]) ↔
    Finishes host r lines ∧ ((afterLines host r lines).1.runLine host (afterLines host r lines).2
      line).1.finished = true := by
  constructor
  · refine fun h => ⟨?_, h lines line [] rfl⟩
    rintro above line' below rfl
    exact h above line' (below ++ [line]) (by simp)
  · rintro ⟨hlines, hline⟩ above line' below heq
    rcases List.eq_nil_or_concat below with rfl | ⟨below, last, rfl⟩
    · obtain ⟨rfl, hlast⟩ := List.append_inj' heq rfl
      obtain rfl := List.singleton_inj.1 hlast
      exact hline
    · have hfront : lines = above ++ line' :: below := by
        have hconcat : lines ++ [line] = (above ++ line' :: below) ++ [last] := by simpa using heq
        exact (List.append_inj' hconcat rfl).1
      exact hlines above line' below hfront

theorem ran_last (h : Finishes (Host.telling times) r (lines ++ [line])) :
    ∃ more s' m, Ran times r lines line more s' .finished m := by
  obtain ⟨more, s', r', m, hp, hrun⟩ := prepared_of_ran (ran_of_finished (finishes_append.1 h).2)
  exact ⟨more, s', m, ⟨r', hp⟩, hrun⟩

theorem Ran.outcome (h : Ran times r lines line more s' ending m) :
    ((afterLines (Host.telling times) r lines).1.runLine (Host.telling times)
      (afterLines (Host.telling times) r lines).2 line).1 = .ran ending := by
  obtain ⟨r', hp⟩ := h.prepared
  unfold runLine runText carryOut interpret
  rw [hp]
  dsimp only
  rw [h.run]

/-- What the tokens of the lines of a session become when the lines are joined. -/
def joining (times : Nat → Float) (r : Report) (lines : List String) : Likeness :=
  .joining lines (Binding.depthOf (afterLines (Host.telling times) r lines).1.depths)

theorem found_upto (lines after : List String) :
    ∀ site, (chronicle (Host.telling times) r lines).site site →
      site.Found (Binding.depthOf (afterLines (Host.telling times) r (lines ++ after)).1.depths) :=
  fun site hsite => (known_afterLines _ site ((chronicle_upto lines after).site site hsite)).found

theorem fits_joining (above after : List String) :
    Fits (joining times r (above ++ line :: after)) times r above line (Token.below above) := by
  refine ⟨Likeness.plain_joining _ _, fun t ht => ⟨above, line, after, rfl, ht, rfl⟩, ?_⟩
  have hfound := @found_upto times r (above ++ [line]) after
  rw [List.append_assoc] at hfound
  exact hfound

theorem joined_lines (hlines : Finishes (Host.telling times) r lines) (after : List String) :
    ∃ program, Joined (joining times r (lines ++ after)) times r lines lines program .finished := by
  induction lines using List.reverseRecOn generalizing after with
  | nil => exact ⟨[], joined_nil⟩
  | append_singleton lines line ih =>
    obtain ⟨more, s', m, hran⟩ := ran_last hlines
    obtain ⟨program, hj⟩ := ih (finishes_append.1 hlines).1 (line :: after)
    rw [List.append_assoc]
    exact hj.next (fits_joining lines after) hran hran.ready.scanned rfl

/-! ## Lines in their places -/

open Text (inPlace placed placed_append)

theorem tokens_inPlace (h : (Scan.ofText line).issues = #[]) :
    (Scan.ofText (inPlace lines line)).tokens.toList =
      (Scan.ofText line).tokens.toList.map (Token.below lines) := by
  rw [(Scan.ofText_inPlace lines h).2, Array.toList_map]

/-- The session whose lines are in their places runs one more line. -/
theorem Ran.placed (h : Ran times r lines line more s' ending m) {after : List String}
    (ha : Abreast (joining times r (lines ++ line :: after)) times r lines (placed [] lines)) :
    ∃ more' s'' ending' m',
      Ran times r (placed [] lines) (inPlace lines line) more' s'' ending' m' ∧
        ending.Alike (joining times r (lines ++ line :: after)) ending' ∧
        Abreast (joining times r (lines ++ line :: after)) times r (lines ++ [line])
          (placed [] (lines ++ [line])) := by
  rw [placed_append]
  exact ha.next (fits_joining lines after) h (Scan.ofText_inPlace lines h.ready.scanned).1
    (tokens_inPlace h.ready.scanned)

/-- A session whose lines are in their places stays abreast of the session of the lines. -/
theorem abreast_placed (hlines : Finishes (Host.telling times) r lines) (after : List String) :
    Abreast (joining times r (lines ++ after)) times r lines (placed [] lines) ∧
      Finishes (Host.telling times) r (placed [] lines) := by
  induction lines using List.reverseRecOn generalizing after with
  | nil => exact ⟨abreast_nil, hlines⟩
  | append_singleton lines line ih =>
    obtain ⟨more, s', m, hran⟩ := ran_last hlines
    obtain ⟨ha, hplaced⟩ := ih (finishes_append.1 hlines).1 (line :: after)
    obtain ⟨more', s'', ending', m', hran', hending, ha'⟩ := hran.placed ha
    cases hending
    rw [List.append_assoc]
    refine ⟨ha', ?_⟩
    rw [placed_append]
    exact finishes_append.2 ⟨hplaced, by rw [List.nil_append, hran'.outcome]; rfl⟩

/-- The tokens of lines in their places do not change when the lines are joined. -/
def standing (times : Nat → Float) (r : Report) (lines : List String) : Likeness :=
  .exact (Binding.depthOf (afterLines (Host.telling times) r (placed [] lines)).1.depths)

theorem fits_standing (above after : List String) :
    Fits (standing times r (above ++ line :: after)) times r (placed [] above)
      (inPlace above line) id := by
  refine ⟨Likeness.plain_exact _, fun _ _ => rfl, ?_⟩
  have hplaced : placed [] (above ++ line :: after) =
      (placed [] above ++ [inPlace above line]) ++ placed (above ++ [line]) after := by
    rw [placed_append, List.append_assoc]
    rfl
  unfold standing
  rw [hplaced]
  exact found_upto _ _

theorem joined_placed (hlines : Finishes (Host.telling times) r lines) (after : List String) :
    ∃ program, Joined (standing times r (lines ++ after)) times r (placed [] lines) lines program
      .finished := by
  induction lines using List.reverseRecOn generalizing after with
  | nil => exact ⟨[], joined_nil⟩
  | append_singleton lines line ih =>
    obtain ⟨more, s', m, hran⟩ := ran_last hlines
    obtain ⟨program, hj⟩ := ih (finishes_append.1 hlines).1 (line :: after)
    have hplaced := (abreast_placed hlines []).2
    rw [placed_append] at hplaced ⊢
    obtain ⟨more', s'', m', hran'⟩ := ran_last hplaced
    rw [List.append_assoc]
    refine hj.next (fits_standing lines after) hran' hran.ready.scanned ?_
    rw [List.map_id, List.nil_append, tokens_inPlace hran.ready.scanned]

end Session

/-! ## Reports -/

/-- Crashes are alike: the same cause, blamed on related tokens. -/
structure Crash.Alike (K : Likeness) (c c' : Crash) : Prop where
  cause : c'.cause = c.cause
  token : K.token false c.token c'.token

/-- The crash in a report is that of a run. -/
def Report.Tells (r : Report) (ending : Ending) : Prop :=
  ∀ c, r.crash = some c ↔ ending = .stopped (.crash c)

theorem Report.Tells.finished {r : Report} (h : r.Tells .finished) : r.crash = none := by
  cases hc : r.crash with
  | none => rfl
  | some c => cases (h c).1 hc

theorem Report.Tells.stopped {r : Report} {stop : Stop} (h : r.Tells (.stopped stop))
    (hstop : ∀ c, stop ≠ .crash c) : r.crash = none := by
  cases hc : r.crash with
  | none => rfl
  | some c => exact absurd (Ending.stopped.inj ((h c).1 hc)) (hstop c)

theorem Report.Tells.alike {K : Likeness} {r r' : Report} {ending ending' : Ending}
    (h : r.Tells ending) (h' : r'.Tells ending') (halike : ending.Alike K ending') :
    Option.Rel (Crash.Alike K) r.crash r'.crash := by
  cases halike with
  | finished =>
    rw [h.finished, h'.finished]
    exact .none
  | stopped hstop =>
    cases hstop with
    | crash ht =>
      rw [(h _).2 rfl, (h' _).2 rfl]
      exact .some ⟨rfl, ht⟩
    | fault =>
      rw [h.stopped fun _ => Stop.noConfusion, h'.stopped fun _ => Stop.noConfusion]
      exact .none
    | outOfFuel =>
      rw [h.stopped fun _ => Stop.noConfusion, h'.stopped fun _ => Stop.noConfusion]
      exact .none

namespace Session

variable {host : Host} {times : Nat → Float} {r r' : Report} {lines : List String}
  {program : List Stmt} {s s' : Session} {ending : Ending} {m : Machine} {text : String}

/-- How a text that is ready runs. -/
theorem runText_of_ready (hp : s.prepare r text = (.ready program, s', r'))
    (hcrash : r'.crash = none)
    (hrun : s'.machine.run (.following s'.depths host) enoughFuel maxCalls program = (ending, m)) :
    ∃ r'', s.runText host r text = (.ran ending, { s' with machine := m }, r'') ∧
      r''.sick = r'.sick ∧ r''.Tells ending := by
  unfold runText carryOut interpret
  rw [hp]
  simp only [hrun]
  cases ending with
  | finished => exact ⟨r', rfl, rfl, fun c => by simp [hcrash]⟩
  | stopped stop =>
    cases stop with
    | crash c => exact ⟨r'.enterCrash c, rfl, rfl, fun c' => by simp [Report.enterCrash]⟩
    | fault f => exact ⟨r', rfl, rfl, fun c => by simp [hcrash]⟩
    | outOfFuel => exact ⟨r', rfl, rfl, fun c => by simp [hcrash]⟩

/-- The texts joined are ready to run. -/
theorem Joined.prepare {K : Likeness} (hj : Joined K times r lines texts program ending)
    (hr : r'.sick = false) : ∃ s' r'', fresh.prepare r' (joined texts) = (.ready program, s', r'') ∧
      s'.machine = fresh.machine ∧ r''.sick = false ∧ r''.crash = r'.crash ∧
      ∀ site, (chronicle (Host.telling times) r lines).site site →
        Binding.depthOf s'.depths site.serial = K.depth site.serial := by
  have hread : fresh.reading (joined texts) =
      ⟨program, #[], (afterLines (Host.telling times) r lines).1.serial⟩ := by
    rcases Grammar.Program.read_complete Grammar.maxDepth (Scan.ofText (joined texts)).stop
      hj.derives with heq | ⟨hlt, -⟩
    · exact heq
    · exact absurd hlt (Nat.lt_irrefl _)
  obtain ⟨r'', hp, hsick, hcrash⟩ := prepare_of_clean hj.scanned hread hj.clean hr
  refine ⟨_, r'', hp, rfl, hsick, hcrash, fun site hsite => ?_⟩
  exact Binding.depthOf_of_finding hj.derives.wellformed _ (hj.recorded site hsite)

/-- The texts joined run to the same end as the lines of the session. -/
theorem Joined.whole {K : Likeness} (hj : Joined K times r lines texts program ending)
    (hr : r'.ok = true) :
    let whole := runAlone (Host.telling times) r' (joined texts)
    whole.2.2.sick = false ∧ ∃ ending', whole.1 = .ran ending' ∧ whole.2.2.Tells ending' ∧
      ending.Alike K ending' ∧
      ∃ marks, (afterLines (Host.telling times) r lines).1.machine.Alike K marks
        whole.2.1.machine := by
  intro whole
  obtain ⟨hsick', hcrash'⟩ : r'.sick = false ∧ r'.crash = none := by
    simpa [Report.ok, Report.crashed] using hr
  obtain ⟨s', r₁, hready, hmachine, hsick, hcrash, hdepths⟩ := hj.prepare hsick'
  obtain ⟨ending', m', marks, hrun, hending, halike⟩ := hj.runs s'.depths hdepths
  rw [← hmachine] at hrun
  obtain ⟨r₂, htext, hsick₂, htells⟩ := runText_of_ready hready (hcrash.trans hcrash') hrun
  have hwhole : whole = (.ran ending', { s' with machine := m' }, r₂) := by
    show runAlone _ r' (joined texts) = _
    unfold runAlone
    rw [htext]
  rw [hwhole]
  exact ⟨hsick₂.trans hsick, ending', rfl, htells, hending, marks, halike⟩

/-- Where a line is run, the report behind it tells how. -/
theorem Ran.tells {line : String} {more : List Stmt} (h : Ran times r lines line more s' ending m) :
    (afterLines (Host.telling times) r (lines ++ [line])).2.Tells ending := by
  obtain ⟨r', hp⟩ := h.prepared
  obtain ⟨r'', hline, -, htells⟩ := runText_of_ready hp (crash_of_ready hp rfl).2 h.run
  rw [afterLines_append]
  show ((afterLines _ r lines).1.runText _ _ line).2.2.Tells ending
  rw [hline]
  exact htells

/-- **A session does what its lines do as one program.** All lines but the last run to their end,
and the last one runs. Then the lines joined by line breaks are a program without issues. It crashes
just if the last line does, with the same message, blamed on what the token has become. It prints
the same, and leaves the same globals in the same order, with values that are alike.

What a token has become is told by a session in which every line is in its place. It stays abreast
of the first: its lines run to their end too. Its last line ends in exactly the same way as the
program, with the same crash, blamed on the very same token, and the values that it leaves are alike
with the same tokens in their functions. -/
theorem joined_runs (times : Nat → Float) (r r' : Report) {lines : List String} {last : String}
    {ending : Ending} (hlines : Finishes (Host.telling times) r lines)
    (hlast : ((afterLines (Host.telling times) r lines).1.runLine (Host.telling times)
      (afterLines (Host.telling times) r lines).2 last).1 = .ran ending) (hr' : r'.ok = true) :
    let K := joining times r (lines ++ [last])
    let after := afterLines (Host.telling times) r (lines ++ [last])
    let whole := runAlone (Host.telling times) r' ("\n".intercalate (lines ++ [last]))
    let above := afterLines (Host.telling times) r (Text.placed [] lines)
    let below := above.1.runLine (Host.telling times) above.2 (Text.inPlace lines last)
    whole.2.2.sick = false ∧
      (∃ ending', whole.1 = .ran ending' ∧ ending.Alike K ending') ∧
      Option.Rel (Crash.Alike K) after.2.crash whole.2.2.crash ∧
      whole.2.1.machine.printed = after.1.machine.printed ∧
      whole.2.1.globals.keys = after.1.globals.keys ∧
      (∃ marks, after.1.machine.Alike K marks whole.2.1.machine ∧
        after.1.globals.Like id (Value.Alike K marks) whole.2.1.globals) ∧
      Finishes (Host.telling times) r (Text.placed [] lines) ∧
      Abreast K times r (lines ++ [last]) (Text.placed [] (lines ++ [last])) ∧
      below.1 = whole.1 ∧ below.2.2.crash = whole.2.2.crash ∧
      ∃ marks, below.2.1.machine.Alike (standing times r (lines ++ [last])) marks
        whole.2.1.machine := by
  intro K after whole above below
  obtain ⟨more, s', r₁, m, hp, hrun⟩ := prepared_of_ran hlast
  have hran : Ran times r lines last more s' ending m := ⟨⟨r₁, hp⟩, hrun⟩
  have hscan := hran.ready.scanned
  -- The last line, in its place.
  obtain ⟨ha, hplaced⟩ := abreast_placed hlines [last]
  obtain ⟨more', s'', ending₁, m₁, hran', -, ha'⟩ := hran.placed ha
  have hbelow : below.2 = afterLines _ r (Text.placed [] lines ++ [Text.inPlace lines last]) :=
    (afterLines_append _).symm
  -- The lines as one text, seen from the one session and from the other.
  obtain ⟨program, hj⟩ := joined_lines hlines [last]
  obtain ⟨all, hall⟩ := hj.next (fits_joining lines []) hran hscan rfl
  obtain ⟨hsick, ending', hwhole, htells, hending, marks, hm⟩ := hall.whole hr'
  obtain ⟨program', hj'⟩ := joined_placed hlines [last]
  obtain ⟨all', hall'⟩ := hj'.next (fits_standing lines []) hran' hscan
    (by rw [List.map_id, tokens_inPlace hscan])
  obtain ⟨-, ending₂, hwhole', htells', hending', hm'⟩ := hall'.whole hr'
  obtain rfl : ending₂ = ending₁ := hending'.eq fun _ _ h => h
  refine ⟨hsick, ⟨ending', hwhole, hending⟩, hran.tells.alike htells hending, hm.printed,
    keys_alike hm, ⟨marks, hm, globals_alike hm⟩, hplaced, ha', hran'.outcome.trans hwhole'.symm,
    ?_, ?_⟩
  · rw [hbelow]
    exact Option.ext fun c => (hran'.tells c).trans (htells' c).symm
  · rw [hbelow]
    exact hm'

/-- A line runs and then crashes when it comes again. When the lines are joined, the crash is blamed
on its second place. -/
theorem joined_runs_again :
    let whole := runAlone (Host.telling fun _ => 0) (.fresh 10 false)
      ("\n".intercalate (["fun f() {}", "f();", "f = nil;"] ++ ["f();"]))
    whole.2.2.sick = false ∧
      whole.2.2.crash = some ⟨⟨.mark .rightParen, ")", .nil, 4, 27⟩, .notCallable⟩ := by
  let host := Host.telling fun _ => 0
  have hfirst : Finishes host (.fresh 10 false) ([] ++ ["fun f() {}"]) :=
    finishes_append.2 ⟨fun _ _ _ heq => by simp at heq, by decide +kernel⟩
  have hsecond : Finishes host (.fresh 10 false) (["fun f() {}"] ++ ["f();"]) :=
    finishes_append.2 ⟨hfirst, by decide +kernel⟩
  have hlines : Finishes host (.fresh 10 false) (["fun f() {}", "f();"] ++ ["f = nil;"]) :=
    finishes_append.2 ⟨hsecond, by decide +kernel⟩
  let before := afterLines host (.fresh 10 false) ["fun f() {}", "f();", "f = nil;"]
  have hran : (before.1.runLine host before.2 "f();").1.hasRun = true := by decide +kernel
  obtain ⟨ending, hlast⟩ := exists_ran hran
  obtain ⟨hsick, -, -, -, -, -, -, -, -, hcrash, -⟩ := joined_runs (fun _ => 0) (.fresh 10 false)
    (.fresh 10 false) hlines hlast rfl
  exact ⟨hsick, hcrash.symm.trans (by decide +kernel)⟩

end Session

end Scriptlet

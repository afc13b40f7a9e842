import Mathlib.Data.List.Induction
import Scriptlet.Proofs.Binding.Globals
import Scriptlet.Proofs.Binding.Soundness
import Scriptlet.Proofs.Session.Preparing

/-!
# The lines of a session

A session runs line behind line, and a line may be rejected or crash. What the session has come to
is its chronicle (`Session.chronicle`): the sites of the programs that were accepted, and the
moments of their runs. Behind every line the heap is sound for it, and the depths of all sites are
on record (`Session.sound_afterLines`). So every moment of every line is in its place
(`Session.sound_of_comes`).
-/

namespace Scriptlet

/-- A host with a clock that tells these times, one with every answer. -/
def Host.telling (times : Nat → Float) : Host := fun answers n args =>
  if n = clock ∧ args.isEmpty then some (.number (times answers)) else none

theorem Setting.plain_telling (depths : Binding.Depths) (times : Nat → Float) :
    (Setting.following depths (Host.telling times)).Plain := by
  intro answers n args v hv c h
  change (if _ then _ else _) = some v at hv
  split at hv
  · obtain rfl := Option.some.inj hv
    exact trivial
  · cases hv

namespace Session

section Lines

variable (host : Host) (r : Report)

/-- The session and the report behind these lines. -/
def afterLines (lines : List String) : Session × Report :=
  lines.foldl (fun s line => (s.1.runLine host s.2 line).2) (fresh, r)

/-- One of the lines was accepted, and its preparation ended with this session and program. -/
def Accepts (lines : List String) (s : Session) (program : List Stmt) : Prop :=
  ∃ before line after r', lines = before ++ line :: after ∧
    (afterLines host r before).1.prepare (afterLines host r before).2.reset line =
      (.ready program, s, r')

/-- A moment in the run of a line that was accepted, with the session that it was prepared in. -/
def Comes (lines : List String) (s : Session) (a : Moment) : Prop :=
  ∃ front st rest m, Accepts host r lines s (front ++ st :: rest) ∧
    s.machine.run (.following s.depths host) enoughFuel maxCalls front = (.finished, m) ∧
    Reaches (.following s.depths host) ⟨enoughFuel, maxCalls, .stmt st, m⟩ a

/-- What a session comes to in these lines. -/
def chronicle (lines : List String) : Chronicle where
  site site := ∃ s program, Accepts host r lines s program ∧ site ∈ s.sites program
  moment a := ∃ s, Comes host r lines s a

end Lines

variable {host : Host} {r : Report} {lines : List String} {s : Session} {program : List Stmt}

theorem afterLines_append (line : String) : afterLines host r (lines ++ [line]) =
    ((afterLines host r lines).1.runLine host (afterLines host r lines).2 line).2 := by
  unfold afterLines
  rw [List.foldl_append]
  rfl

theorem Accepts.more (more : List String) (h : Accepts host r lines s program) :
    Accepts host r (lines ++ more) s program := by
  obtain ⟨before, line, after, r', rfl, hp⟩ := h
  exact ⟨before, line, after ++ more, r', by simp, hp⟩

theorem chronicle_upto (lines more : List String) :
    (chronicle host r lines).Upto (chronicle host r (lines ++ more)) := by
  refine ⟨?_, ?_⟩
  · rintro site ⟨s, program, ha, hsite⟩
    exact ⟨s, program, ha.more more, hsite⟩
  · rintro a ⟨s, front, st, rest, m, ha, hrun, hreach⟩
    exact ⟨s, front, st, rest, m, ha.more more, hrun, hreach⟩

/-- An accepted line is one of those before the last one, or else what that is prepared to be. -/
theorem Accepts.last {line : String} {p : Prepared} {s' : Session} {r' : Report}
    (h : Accepts host r (lines ++ [line]) s program)
    (hp : (afterLines host r lines).1.prepare (afterLines host r lines).2.reset line =
      (p, s', r')) : Accepts host r lines s program ∨ p = .ready program ∧ s' = s := by
  obtain ⟨before, line', after, r', heq, hp'⟩ := h
  rcases List.eq_nil_or_concat after with rfl | ⟨after, last, rfl⟩
  · obtain ⟨rfl, hline⟩ := List.append_inj' heq rfl
    obtain rfl : line = line' := (List.cons.inj hline).1
    obtain ⟨rfl, rfl, -⟩ : p = .ready program ∧ s' = s ∧ _ := by
      rw [hp'] at hp
      simpa [eq_comm] using hp
    exact .inr ⟨rfl, rfl⟩
  · rw [List.concat_eq_append, ← List.cons_append, ← List.append_assoc] at heq
    exact .inl ⟨before, line', after, r', (List.append_inj' heq rfl).1, hp'⟩

end Session

/-! ## The run of a program -/

namespace Machine

theorem run_append (setting : Setting) (fuel room : Nat) (front rest : List Stmt) (m : Machine) :
    m.run setting fuel room (front ++ rest) =
      match m.run setting fuel room front with
      | (.finished, m') => m'.run setting fuel room rest
      | stopped => stopped := by
  induction front generalizing m with
  | nil => rfl
  | cons st front ih =>
    simp only [List.cons_append, run]
    cases Eval.stmt setting fuel room st m with
    | ok _ m₁ => exact ih m₁
    | error _ _ => rfl

/-- Outside of all blocks and functions, on a sound heap. -/
structure Outside (c : Chronicle) (m : Machine) : Prop where
  heap : m.heap.Sound c
  here : m.here = Heap.root

end Machine

/-! ## The statements of a program, one by one -/

theorem Sites.stmts_append (rs : List Region) (s : Scopes) (front rest : List Stmt) :
    stmts rs s (front ++ rest) =
      stmts rs s front ++ stmts rs (front.foldl Scopes.behind s) rest := by
  induction front generalizing s with
  | nil => rfl
  | cons st front ih =>
    simp only [List.cons_append, stmts, ih, List.append_assoc, List.foldl_cons]

section Program

variable {c : Chronicle} {setting : Setting} {fuel room : Nat} {g : Globals} {m m' : Machine}
  {front rest : List Stmt} {st : Stmt}

/-- The next statement of a program is in its place. -/
theorem Machine.Outside.sound (hm : m.Outside c) (hshape : Shape.stmts (front ++ st :: rest))
    (hsites : ∀ site ∈ Sites.stmts [] (.outermost (.globals g)) (front ++ st :: rest),
      c.site site) : Moment.Sound c ⟨fuel, room, .stmt st, m⟩ := by
  refine ⟨hm.heap, ?_, ⟨[], [], g.behind front, ?_, fun site hsite => hsites site ?_⟩,
    List.forall_mem_nil _⟩
  · exact (Shape.stmts_of_append hshape).1
  · rw [hm.here]
    exact .root
  · rw [Sites.stmts_append]
    refine List.mem_append_right _ (List.mem_append_left _ ?_)
    show site ∈ Sites.stmt [] (front.foldl Scopes.behind ⟨[], .globals g⟩) st
    rw [Scopes.foldl_behind_globals]
    exact hsite

/-- What a program leaves when it has run up to some place. -/
theorem Machine.Outside.run (fuel room : Nat) (g : Globals) (hplain : setting.Plain)
    (hm : m.Outside c) (front rest : List Stmt) (hshape : Shape.stmts (front ++ rest))
    (hsites : ∀ site ∈ Sites.stmts [] (.outermost (.globals g)) (front ++ rest), c.site site)
    (hmoment : ∀ front' st rest' m', front ++ rest = front' ++ st :: rest' →
      m.run setting fuel room front' = (.finished, m') →
      ∀ b, Reaches setting ⟨fuel, room, .stmt st, m'⟩ b → c.moment b) :
    (m.run setting fuel room front).2.Outside c := by
  induction front using List.reverseRecOn generalizing rest with
  | nil => exact hm
  | append_singleton front st ih =>
    rw [List.append_assoc, List.singleton_append] at hshape hsites hmoment
    have hfront := ih (st :: rest) hshape hsites hmoment
    rw [Machine.run_append]
    rcases hrun : m.run setting fuel room front with ⟨ending, m'⟩
    rw [hrun] at hfront
    cases ending with
    | stopped stop => exact hfront
    | finished =>
      have hkeeps := (hfront.sound hshape hsites).keeps hplain fuel room (.stmt st) m'
        (hmoment front st rest m' rfl hrun)
      show (m'.run setting fuel room [st]).2.Outside c
      unfold Machine.run
      cases hr : Eval.stmt setting fuel room st m' with
      | error stop m₁ =>
        have hl := hkeeps.error hr
        exact ⟨hl.sound, hl.here.trans hfront.here⟩
      | ok flow m₁ =>
        have hl := (hkeeps.ok hr).1
        exact ⟨hl.sound, hl.here.trans hfront.here⟩

/-- Every moment that a program comes to is in its place. -/
theorem Machine.Outside.moments {program : List Stmt} (fuel room : Nat) (g : Globals)
    (hplain : setting.Plain) (hm : m.Outside c) (hshape : Shape.stmts program)
    (hsites : ∀ site ∈ Sites.stmts [] (.outermost (.globals g)) program, c.site site)
    (hmoment : ∀ front st rest m₁, program = front ++ st :: rest →
      m.run setting fuel room front = (.finished, m₁) →
      ∀ b, Reaches setting ⟨fuel, room, .stmt st, m₁⟩ b → c.moment b) :
    ∀ front st rest m₁, program = front ++ st :: rest →
      m.run setting fuel room front = (.finished, m₁) →
      ∀ b, Reaches setting ⟨fuel, room, .stmt st, m₁⟩ b → b.Sound c := by
  rintro front st rest m₁ rfl hrun b hb
  have hfront := hm.run fuel room g hplain front (st :: rest) hshape hsites hmoment
  rw [hrun] at hfront
  have hfirst : Moment.Sound c ⟨fuel, room, .stmt st, m₁⟩ := hfront.sound hshape hsites
  exact hfirst.reaches hplain (hmoment front st rest m₁ rfl hrun) hb

end Program

/-- The session when what was prepared has been run, if it is ready. -/
def Prepared.carriedOut (host : Host) (s : Session) : Prepared → Session
  | .ready program =>
    { s with machine := (s.machine.run (.following s.depths host) enoughFuel maxCalls program).2 }
  | _ => s

namespace Session

variable {host : Host} {r : Report} {lines : List String} {s : Session} {program : List Stmt}

/-! ## Sessions are sound -/

theorem outside_fresh (c : Chronicle) : fresh.machine.Outside c := by
  refine ⟨⟨Nat.succ_pos _, fun e name v hv => ?_⟩, rfl⟩
  change (((Heap.empty : Heap Value).add none).define Heap.root "clock"
    (.native Host.clock)).local? e name = some v at hv
  rw [Heap.local?_define, Heap.local?_add] at hv
  split at hv
  · obtain rfl := Option.some.inj hv
    exact trivial
  · cases hv

theorem runLine_of_prepare {line : String} {p : Prepared} {s' : Session} {r₀ r' : Report}
    (h : s.prepare r₀.reset line = (p, s', r')) :
    (s.runLine host r₀ line).2.1 = p.carriedOut host s' := by
  unfold runLine runText carryOut interpret
  rw [h]
  cases p <;> rfl

/-- Whether a text is ready. -/
def isReady : Prepared → Bool
  | .ready _ => true
  | _ => false

/-- If a text is ready in a fresh session, what was read of it is what runs. -/
theorem exists_ready (host : Host) (r : Report) (text : String)
    (h : isReady (fresh.prepare r text).1 = true) :
    ∃ s r', fresh.prepare r text = (.ready (fresh.reading text).statements, s, r') ∧
      (s.interpret host r' (fresh.reading text).statements).2 = (fresh.runText host r text).2 := by
  rcases hp : fresh.prepare r text with ⟨p, s, r'⟩
  rw [hp] at h
  cases p with
  | ready program =>
    have hread : (fresh.reading text).statements = program :=
      congrArg Grammar.Program.statements (ready_of_prepare hp).read
    refine ⟨s, r', by rw [hread], ?_⟩
    unfold runText carryOut
    rw [hp, hread]
  | trouble _ => cases h
  | halted _ => cases h

/-- A line that has run was ready. -/
theorem prepared_of_ran {line : String} {r₀ : Report} {ending : Ending}
    (h : (s.runLine host r₀ line).1 = .ran ending) :
    ∃ program s' r' m, s.prepare r₀.reset line = (.ready program, s', r') ∧
      s'.machine.run (.following s'.depths host) enoughFuel maxCalls program = (ending, m) := by
  rcases hp : s.prepare r₀.reset line with ⟨p, s', r'⟩
  unfold runLine runText carryOut interpret at h
  rw [hp] at h
  cases p with
  | trouble _ => cases h
  | halted _ => cases h
  | ready program =>
    rcases hrun : s'.machine.run (.following s'.depths host) enoughFuel maxCalls program
      with ⟨ending', m⟩
    dsimp only at h
    rw [hrun] at h
    obtain rfl := Outcome.ran.inj h
    exact ⟨program, s', r', m, rfl, hrun⟩

theorem ran_of_finished {outcome : Outcome} (h : outcome.finished = true) :
    outcome = .ran .finished := by
  cases outcome with
  | ran ending =>
    cases ending with
    | finished => rfl
    | stopped _ => cases h
  | rejected _ => cases h
  | halted _ => cases h

/-- Whether a text has run, to its end or not. -/
def Outcome.hasRun : Outcome → Bool
  | ran _ => true
  | _ => false

theorem exists_ran {outcome : Outcome} (h : outcome.hasRun = true) :
    ∃ ending, outcome = .ran ending := by
  cases outcome with
  | ran ending => exact ⟨ending, rfl⟩
  | rejected _ => cases h
  | halted _ => cases h

variable {times : Nat → Float}

/-- What an accepted program knows of the session that it runs in. -/
theorem Accepts.ready (h : Accepts host r lines s program) : ∃ before line after,
    lines = before ++ line :: after ∧ Ready (afterLines host r before).1 line program s ∧
      Accepts host r (before ++ [line]) s program := by
  obtain ⟨before, line, after, r', rfl, hp⟩ := h
  exact ⟨before, line, after, rfl, ready_of_prepare hp, before, line, [], r', rfl, hp⟩

/-- An accepted program comes to moments of the session only. -/
theorem Accepts.moment (h : Accepts host r lines s program) {front rest : List Stmt} {st : Stmt}
    {m : Machine} (heq : program = front ++ st :: rest)
    (hrun : s.machine.run (.following s.depths host) enoughFuel maxCalls front = (.finished, m))
    {b : Moment} (hb : Reaches (.following s.depths host) ⟨enoughFuel, maxCalls, .stmt st, m⟩ b) :
    (chronicle host r lines).moment b := by
  subst heq
  exact ⟨s, front, st, rest, m, h, hrun, hb⟩

/-- The first statement of an accepted program finds the machine that the lines before have left. -/
theorem Accepts.comes {st : Stmt} {rest : List Stmt} {a : Moment}
    (h : Accepts host r lines s (st :: rest))
    (ha : Reaches (.following s.depths host) ⟨enoughFuel, maxCalls, .stmt st, s.machine⟩ a) :
    Comes host r lines s a := ⟨[], st, rest, s.machine, h, rfl, ha⟩

theorem Accepts.site (h : Accepts host r lines s program) :
    ∀ site ∈ s.sites program, (chronicle host r lines).site site :=
  fun _ hsite => ⟨s, program, h, hsite⟩

/-- Behind all lines the session is outside of all blocks and functions, on a sound heap. -/
theorem outside_afterLines (lines : List String) :
    (afterLines (Host.telling times) r lines).1.machine.Outside
      (chronicle (Host.telling times) r lines) := by
  induction lines using List.reverseRecOn with
  | nil => exact outside_fresh _
  | append_singleton lines line ih =>
    rw [afterLines_append]
    rcases hp : (afterLines (Host.telling times) r lines).1.prepare
      (afterLines (Host.telling times) r lines).2.reset line with ⟨p, s', r'⟩
    have hold : s'.machine.Outside (chronicle (Host.telling times) r (lines ++ [line])) := by
      rw [prepare_machine hp]
      exact ⟨ih.heap.mono (chronicle_upto lines [line]), ih.here⟩
    rw [runLine_of_prepare hp]
    cases p with
    | trouble _ => exact hold
    | halted _ => exact hold
    | ready program =>
      have haccepts : Accepts (Host.telling times) r (lines ++ [line]) s' program :=
        ⟨lines, line, [], r', rfl, hp⟩
      have hshape := (ready_of_prepare hp).derives.wellformed.shape
      rw [← List.append_nil program] at hshape
      refine hold.run enoughFuel maxCalls (.knowing s'.globals.keys)
        (Setting.plain_telling _ _) program [] hshape ?_ ?_
      · rw [List.append_nil]
        exact haccepts.site
      · intro front st rest m' heq hrun b hb
        rw [List.append_nil] at heq
        exact haccepts.moment heq hrun hb

/-- **Every moment is in its place.** -/
theorem sound_of_comes {a : Moment} (h : Comes (Host.telling times) r lines s a) :
    a.Sound (chronicle (Host.telling times) r lines) := by
  obtain ⟨front, st, rest, m, haccepts, hrun, hreach⟩ := h
  obtain ⟨before, line, after, hlines, hready, -⟩ := haccepts.ready
  have hold : s.machine.Outside (chronicle (Host.telling times) r lines) := by
    have hbefore : (afterLines (Host.telling times) r before).1.machine.Outside _ :=
      outside_afterLines before
    rw [hready.machine, hlines]
    exact ⟨hbefore.heap.mono (chronicle_upto before (line :: after)), hbefore.here⟩
  exact hold.moments enoughFuel maxCalls (.knowing s.globals.keys)
    (Setting.plain_telling s.depths times) hready.derives.wellformed.shape haccepts.site
    (fun front st rest m' heq hrun b hb => haccepts.moment heq hrun hb) front st rest m rfl hrun a
    hreach

end Session

end Scriptlet

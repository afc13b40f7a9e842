import Scriptlet.Proofs.Binding.Alike
import Scriptlet.Proofs.Grammar.Moving
import Scriptlet.Proofs.Session.Alike
import Scriptlet.Proofs.Session.References

/-!
# Sessions side by side

Two sessions are fed line by line. The tokens of every line of the second are those of the first, or
others of the same kinds and texts in their places. Then the sessions stay abreast
(`Session.Abreast.next`): a line that runs in the first is ready in the second and ends alike, the
references have the same serials and depths, and the machines stay alike.

What a line does is told for anything that has come as far as the session: it is bound alike behind
any walk that knows the globals (`Session.Ran.bound`), and it runs alike on any machine that is
alike (`Session.Ran.onward`).
-/

namespace Scriptlet

open Binding (findings Reference)

namespace Binding

/-- What is found out about the references of a program is put on record. -/
theorem depthOf_of_finding {known : List String} {program : List Stmt} (hw : Wellformed program)
    (depths : Depths) {serial : Nat} {writes : Bool} {depth : Option Nat}
    (h : (serial, writes, depth) ∈ findings (log known program).toList) :
    depthOf (((log known program).toList.filterMap Event.reference?).foldl record depths) serial =
      depth := by
  obtain ⟨r, hr, hfinding⟩ := List.mem_map.1 h
  obtain ⟨rfl, -, rfl⟩ : r.serial = serial ∧ r.writes = writes ∧ r.depth = depth := by
    simpa [Reference.finding] using hfinding
  refine depthOf_foldl_of_mem _ _ ?_ hr
  exact map_serial_log known hw.shape ▸ hw.serials

end Binding

namespace Session

variable {K : Likeness} {times : Nat → Float} {r : Report} {lines : List String} {line : String}
  {more more' : List Stmt} {s' : Session} {ending : Ending} {m : Machine} {f : Token → Token}

/-! ## A line that has run -/

/-- What is known of a line that has run: how it was prepared, and how it ended. -/
structure Ran (times : Nat → Float) (r : Report) (lines : List String) (line : String)
    (more : List Stmt) (s' : Session) (ending : Ending) (m : Machine) : Prop where
  prepared : ∃ r', (afterLines (Host.telling times) r lines).1.prepare
    (afterLines (Host.telling times) r lines).2.reset line = (.ready more, s', r')
  run : s'.machine.run (.following s'.depths (Host.telling times)) enoughFuel maxCalls more =
    (ending, m)

namespace Ran

variable (h : Ran times r lines line more s' ending m)

include h

theorem ready : Ready (afterLines (Host.telling times) r lines).1 line more s' := by
  obtain ⟨r', hp⟩ := h.prepared
  exact ready_of_prepare hp

theorem accepts : Accepts (Host.telling times) r (lines ++ [line]) s' more := by
  obtain ⟨r', hp⟩ := h.prepared
  exact ⟨lines, line, [], r', rfl, hp⟩

theorem after :
    (afterLines (Host.telling times) r (lines ++ [line])).1 = { s' with machine := m } := by
  obtain ⟨r', hp⟩ := h.prepared
  rw [afterLines_append, runLine_of_prepare hp]
  show ({ s' with machine := (s'.machine.run _ _ _ more).2 } : Session) = _
  rw [h.run]

/-- The sites of a session are those of the lines before and those of the last line. -/
theorem site_cases {site : Site} (hsite : (chronicle (Host.telling times) r (lines ++ [line])).site
    site) : (chronicle (Host.telling times) r lines).site site ∨
      site ∈ (afterLines (Host.telling times) r lines).1.sites more := by
  obtain ⟨s, program, haccepts, hsite⟩ := hsite
  obtain ⟨r', hp⟩ := h.prepared
  rcases haccepts.last hp with hold | ⟨hmore, rfl⟩
  · exact .inl ⟨s, program, hold, hsite⟩
  · obtain rfl := Prepared.ready.inj hmore
    exact .inr (h.ready.sites_eq ▸ hsite)

/-- The machine that the line finds. -/
theorem outside : s'.machine.Outside (chronicle (Host.telling times) r (lines ++ [line])) := by
  have hbefore : (afterLines (Host.telling times) r lines).1.machine.Outside _ :=
    outside_afterLines lines
  rw [h.ready.machine]
  exact ⟨hbefore.heap.mono (chronicle_upto lines [line]), hbefore.here⟩

/-- Every moment of the line is in its place. -/
theorem moments : ∀ front st rest m₁, more = front ++ st :: rest →
    s'.machine.run (.following s'.depths (Host.telling times)) enoughFuel maxCalls front =
      (.finished, m₁) →
    ∀ b, Reaches (.following s'.depths (Host.telling times))
        ⟨enoughFuel, maxCalls, .stmt st, m₁⟩ b →
      b.Sound (chronicle (Host.telling times) r (lines ++ [line])) :=
  h.outside.moments enoughFuel maxCalls (.knowing s'.globals.keys) (Setting.plain_telling _ _)
    h.ready.derives.wellformed.shape h.accepts.site
    fun _ _ _ _ heq hrun _ hb => h.accepts.moment heq hrun hb

end Ran

/-- How a likeness takes the tokens of a line to others, and what it says of the session so far. -/
structure Fits (K : Likeness) (times : Nat → Float) (r : Report) (lines : List String)
    (line : String) (f : Token → Token) : Prop where
  plain : K.Plain
  token : ∀ t ∈ (Scan.ofText line).tokens.toList, K.token false t (f t)
  found : ∀ site, (chronicle (Host.telling times) r (lines ++ [line])).site site →
    site.Found K.depth

section Step

variable (hK : Fits K times r lines line f) (h : Ran times r lines line more s' ending m)

include hK h

theorem Ran.informed :
    Binding.Informed K ((afterLines (Host.telling times) r lines).1.sites more) := by
  intro site hsite
  exact (hK.found site ⟨s', more, h.accepts, h.ready.sites_eq ▸ hsite⟩).depth

/-- The other tokens are a program that is alike. -/
theorem Ran.carried : ∃ more', Grammar.Declarations Grammar.maxDepth
    (afterLines (Host.telling times) r lines).1.serial
      ((Scan.ofText line).tokens.toList.map f) more' s'.serial ∧
    Stmts.Alike K [] more more' := h.ready.derives.carried hK.plain [] hK.token

theorem Ran.depths {site : Site}
    (hsite : (chronicle (Host.telling times) r (lines ++ [line])).site site) :
    Binding.depthOf s'.depths site.serial = K.depth site.serial := by
  have hknown := (known_afterLines (lines ++ [line]) site hsite).found.depth
  rw [h.after] at hknown
  exact hknown.trans (hK.found site hsite).depth.symm

/-- References are found alike in the line and in the whole. -/
theorem Ran.routed {depths : Binding.Depths}
    (hdepths : ∀ site, (chronicle (Host.telling times) r (lines ++ [line])).site site →
      Binding.depthOf depths site.serial = K.depth site.serial) :
    ∀ site, (chronicle (Host.telling times) r (lines ++ [line])).site site →
      site.Routed K (.following s'.depths (Host.telling times))
        (.following depths (Host.telling times)) := fun site hsite =>
  ⟨hK.found site hsite, congrArg Route.ofDepth (h.depths hK hsite),
    congrArg Route.ofDepth (hdepths site hsite)⟩

/-- Behind a walk that has come as far, the other program is bound as the line by itself. -/
theorem Ran.bound {w : Binding.Walk} (halike : Stmts.Alike K [] more more')
    (hw : Binding.Walk.Alike K [] ⟨.outermost (.globals (.knowing
      (afterLines (Host.telling times) r lines).1.globals.keys)), 0, #[]⟩ w) :
    Scopes.Alike K [] ⟨[], .globals ((Globals.knowing
        (afterLines (Host.telling times) r lines).1.globals.keys).behind more)⟩
      (Binding.stmts more' w).scopes ∧
    ∃ new, (Binding.stmts more' w).log.toList = w.log.toList ++ new ∧
      (∀ e ∈ new, e.isTrouble = false) ∧
      ∀ site ∈ (afterLines (Host.telling times) r lines).1.sites more,
        (site.serial, site.writes, K.depth site.serial) ∈ findings new := by
  have hshape := h.ready.derives.wellformed.shape
  obtain ⟨⟨hafter, -⟩, new, new', hnew, hnew', hfound, hclean⟩ :=
    Binding.stmts_alike [] [] more more' _ _ halike hw hshape (h.informed hK)
  have hlog : (Binding.log (afterLines (Host.telling times) r lines).1.globals.keys more).toList =
      new := hnew
  rw [(Binding.stmts_walked [] more _ hshape).scopes] at hafter
  change Scopes.Alike K [] (more.foldl Scopes.behind ⟨[], .globals _⟩) _ at hafter
  rw [Scopes.foldl_behind_globals] at hafter
  refine ⟨hafter, new', hnew', hclean (hlog ▸ h.ready.clean), fun site hsite => ?_⟩
  rw [hfound, ← hlog]
  unfold findings
  rw [(Binding.log_walked _ hshape).1, List.map_map, h.informed hK site hsite]
  exact List.mem_map_of_mem hsite

/-- On a machine that is alike, the other program runs as the line by itself. -/
theorem Ran.onward {marks : List (List Bool)} {m₀ : Machine}
    (hm : (afterLines (Host.telling times) r lines).1.machine.Alike K marks m₀)
    (halike : Stmts.Alike K [] more more') {depths : Binding.Depths}
    (hdepths : ∀ site, (chronicle (Host.telling times) r (lines ++ [line])).site site →
      Binding.depthOf depths site.serial = K.depth site.serial) :
    ∃ ending' m' marks', m₀.run (.following depths (Host.telling times)) enoughFuel maxCalls more' =
        (ending', m') ∧ ending.Alike K ending' ∧
      (afterLines (Host.telling times) r (lines ++ [line])).1.machine.Alike K marks' m' := by
  rw [← h.ready.machine] at hm
  have hagree := Setting.agree_telling s'.depths depths times
  obtain ⟨hending, marks', honward⟩ := Machine.run_alike hagree hm h.outside.here halike
    fun front st rest m₁ heq hrun b hb =>
      (h.moments front st rest m₁ heq hrun b hb).sure (h.routed hK hdepths)
  rcases hrest : m₀.run (.following depths (Host.telling times)) enoughFuel maxCalls more'
    with ⟨ending', m'⟩
  rw [h.run, hrest] at hending honward
  refine ⟨ending', m', marks', rfl, hending, ?_⟩
  rw [h.after]
  exact honward.alike

end Step

/-! ## Sessions abreast -/

/-- Two sessions have come as far as each other. -/
structure Abreast (K : Likeness) (times : Nat → Float) (r : Report) (lines lines' : List String) :
    Prop where
  serial : (afterLines (Host.telling times) r lines').1.serial =
    (afterLines (Host.telling times) r lines).1.serial
  depths : ∀ site, (chronicle (Host.telling times) r lines).site site →
    Binding.depthOf (afterLines (Host.telling times) r lines').1.depths site.serial =
      K.depth site.serial
  machine : ∃ marks, (afterLines (Host.telling times) r lines).1.machine.Alike K marks
    (afterLines (Host.telling times) r lines').1.machine

theorem abreast_nil : Abreast K times r [] [] := by
  refine ⟨rfl, ?_, [[]], alike_fresh⟩
  rintro site ⟨s, program, ⟨before, line, after, _, heq, -⟩, -⟩
  simp at heq

/-- **Sessions stay abreast.** If a line runs in the first session, a line of the other tokens runs
in the second and ends alike. -/
theorem Abreast.next {lines' : List String} {line' : String}
    (ha : Abreast K times r lines lines') (hK : Fits K times r lines line f)
    (h : Ran times r lines line more s' ending m) (hscan : (Scan.ofText line').issues = #[])
    (htokens : (Scan.ofText line').tokens.toList = (Scan.ofText line).tokens.toList.map f) :
    ∃ more' s'' ending' m', Ran times r lines' line' more' s'' ending' m' ∧
      ending.Alike K ending' ∧ Abreast K times r (lines ++ [line]) (lines' ++ [line']) := by
  obtain ⟨more', hderives, halike⟩ := h.carried hK
  obtain ⟨marks, hm⟩ := ha.machine
  rw [← htokens, ← ha.serial] at hderives
  have hread : (afterLines (Host.telling times) r lines').1.reading line' =
      ⟨more', #[], s'.serial⟩ := by
    rcases Grammar.Program.read_complete Grammar.maxDepth (Scan.ofText line').stop hderives with
      heq | ⟨hlt, -⟩
    · exact heq
    · exact absurd hlt (Nat.lt_irrefl _)
  -- The globals are the same, so the other program is bound as the line is.
  have hkeys := keys_alike hm
  obtain ⟨-, new, hlog, hclean, hfindings⟩ := h.bound hK halike
    (w := ⟨.outermost (.globals (.knowing _)), 0, #[]⟩) ⟨.intro .nil (.refl _), Nat.le_refl 0⟩
  change (Binding.log _ more').toList = new at hlog
  rw [← hkeys] at hlog
  rw [← hlog] at hclean hfindings
  obtain ⟨r', hp, -, -⟩ := prepare_of_clean hscan hread hclean
    (r := (afterLines (Host.telling times) r lines').2.reset) rfl
  have hdepths : ∀ site, (chronicle (Host.telling times) r (lines ++ [line])).site site →
      Binding.depthOf (((afterLines (Host.telling times) r lines').1.references more').foldl
        Binding.record (afterLines (Host.telling times) r lines').1.depths) site.serial =
          K.depth site.serial := by
    intro site hsite
    rcases h.site_cases hsite with hold | hnew
    · have hserial := (known_afterLines lines site hold).serial
      rw [← ha.serial] at hserial
      exact ((prepare_older hp).2 _ hserial).trans (ha.depths site hold)
    · exact Binding.depthOf_of_finding hderives.wellformed _ (hfindings site hnew)
  obtain ⟨ending', m', marks', hrun, hending, halike'⟩ := h.onward hK hm halike hdepths
  have hran : Ran times r lines' line' more' _ ending' m' := ⟨⟨r', hp⟩, hrun⟩
  refine ⟨more', _, ending', m', hran, hending, ?_, fun site hsite => ?_, marks', ?_⟩
  · rw [hran.after, h.after]
  · rw [hran.after]
    exact hdepths site hsite
  · rw [hran.after]
    exact halike'

end Session

end Scriptlet

import Scriptlet.Proofs.Eval.Searching
import Scriptlet.Proofs.Session.Lines

/-!
# The jump agrees with the search

The depths of references stand for a search: a reference with a depth finds its variable so many
frames out, where a search from the inside out would find it too. This holds of programs in which
no name is shadowed, no global is meant where a scope declares its name later, and no variable is
assigned to in its own initialiser (`Session.Searchable`). Such a program does the same in both
ways (`Session.run_searching`): it prints the same, leaves the same globals, and if it stops, stops
for the same reason.
-/

namespace Scriptlet

open Binding (depthOf)

variable {depths : Binding.Depths} {host : Host} {c : Chronicle} {m : Machine}

/-! ## References that are served -/

/-- In a place where every reference is found, and no local name is assigned to while it is pending,
references are served. -/
theorem Moment.Sound.serves {b : Moment} (hplain : (Setting.following depths host).Plain)
    (hb : b.Sound c) (hmoment : ∀ b, c.moment b)
    (hfound : ∀ site, c.site site → site.Found (depthOf depths))
    (hwrites : ∀ site, c.site site → site.writes = true → ∀ depth,
      depthOf depths site.serial = some depth → site.scopes.isPending site.name.lexeme = false) :
    b.Serves depths host := by
  obtain ⟨fuel, room, t, m⟩ := b
  refine ⟨hb.shape, ?_, ?_⟩
  · intro name serial htask depth hd
    obtain rfl : t = .expr (.ref name serial) := htask
    obtain ⟨rs, layers, g, hp, hsites⟩ := hb.stands
    have hsite := hsites ⟨serial, name, false, ⟨layers, .globals g⟩, rs⟩ List.mem_cons_self
    obtain ⟨frame, hout, hholds⟩ := (hfound _ hsite).holds hp hd
    exact ⟨frame, hout, hholds ((hfound _ hsite).settled rfl)⟩
  · intro name value serial fuel' v m' htask hfuel hr depth hd
    obtain rfl : t = .expr (.assign name value serial) := htask
    obtain rfl : fuel = fuel' + 1 := hfuel
    obtain ⟨rs, layers, g, hp, hsite⟩ := hb.assignment hplain (fun b _ => hmoment b) hr
    obtain ⟨frame, hout, hholds⟩ := (hfound _ hsite).holds hp hd
    exact ⟨frame, hout, hholds (hwrites _ hsite rfl depth hd)⟩

/-! ## Programs without shadowing -/

/-- In a region that does not declare the name, nothing is initialised that has it. -/
theorem Site.not_inInitialiser {site : Site}
    (h : ∀ r ∈ site.regions.head?, r.declares site.name.lexeme = false) :
    ¬site.InInitialiser := by
  intro hin
  obtain ⟨r, rs, t, init, hregions, hvar, hname, -⟩ := hin
  have hnot := h r (by rw [hregions]; rfl)
  have hbelongs : Sites.Belongs (r :: rs) (.var t (some init)) := Sites.belongs_of_mem hvar
  have hdeclared : t ∈ r.declarations := hbelongs.declares t rfl r rfl
  rw [Region.declares_iff.2 ⟨t, hdeclared, hname⟩] at hnot
  cases hnot

namespace Session

variable {s : Session} {program : List Stmt}

/-- What makes a search find the variables of a program that a session has prepared. -/
structure Searchable (s : Session) (program : List Stmt) : Prop where
  /-- No local scope declares a name that is declared around it, locally, globally or from
  outside. -/
  unshadowed : Stmt.unshadowedAll
    (s.globals.keys ++ (program.filterMap Stmt.declares?).map Token.lexeme) program = true
  /-- No reference to a global stands inside of a scope that declares its name. -/
  outside : ∀ site ∈ s.sites program, depthOf s.depths site.serial = none →
    ∀ r ∈ site.regions, r.declares site.name.lexeme = false
  /-- No variable is assigned to in its own initialiser. -/
  uninitialised : ∀ site ∈ s.sites program, site.writes = true → ¬site.InInitialiser

/-- The heap of a fresh session has one frame, that of the globals. -/
theorem lodged_fresh (depths : Nat → Option Nat) : fresh.machine.heap.Lodged depths [[]] := by
  have hroot : ∀ e rs, ([[]] : Lodging)[e]? = some rs → e = Heap.root ∧ rs = [] := by
    intro e rs he
    cases e with
    | zero => exact ⟨rfl, (Option.some.inj he).symm⟩
    | succ e => cases he
  refine ⟨rfl, rfl, fun e he => (hroot e _ he).1, fun e r rs he => ?_, fun e r rs name he _ => ?_,
    fun e name v hv => ?_⟩
  · cases (hroot e _ he).2
  · cases (hroot e _ he).2
  · exact Value.lodged_of_sound ((outside_fresh .blank).heap.values e name v hv)

variable {text : String} {r r' : Report}

/-- The depths of a program without shadowing lead to the first regions that declare the names. -/
theorem Searchable.straight (hs : s.Searchable program)
    (hfound : ∀ site ∈ s.sites program, site.Found (depthOf s.depths)) :
    ∀ site ∈ s.sites program, site.Straight (depthOf s.depths) := by
  intro site hsite
  obtain ⟨around, hparted⟩ := Sites.stmts_parted program Parted.nil hs.unshadowed site hsite
  exact (hfound site hsite).straight hparted (hs.outside site hsite)

/-- No local name of the program is pending where it is assigned to. -/
theorem Searchable.settled (hs : s.Searchable program) (hshape : Shape.stmts program)
    (hfound : ∀ site ∈ s.sites program, site.Found (depthOf s.depths)) :
    ∀ site ∈ s.sites program, site.writes = true → ∀ depth,
      depthOf s.depths site.serial = some depth →
      site.scopes.isPending site.name.lexeme = false := by
  intro site hsite hwrites depth hd
  rw [(hfound site hsite).depth] at hd
  by_contra hpending
  rw [Bool.not_eq_false] at hpending
  exact hs.uninitialised site hsite hwrites (Sites.pending_of_mem hshape hsite hd hpending).2

/-- **The jump agrees with the search.** A program without shadowing that a fresh session has
prepared does the same if every reference is searched for from the inside out: it ends in the same
way, and leaves the same machine. -/
theorem run_searching (times : Nat → Float) (hp : fresh.prepare r text = (.ready program, s, r'))
    (hs : s.Searchable program) (fuel room : Nat) :
    s.machine.run (.searching (Host.telling times)) fuel room program =
      s.machine.run (.following s.depths (Host.telling times)) fuel room program := by
  have hready := ready_of_prepare hp
  have hshape := hready.derives.wellformed.shape
  have hplain := Setting.plain_telling s.depths times
  have hfound : ∀ site ∈ s.sites program, site.Found (depthOf s.depths) := fun site hsite =>
    hready.found site (hready.sites_eq ▸ hsite)
  let c : Chronicle := ⟨fun site => site ∈ s.sites program, fun _ => True⟩
  have houtside : s.machine.Outside c := hready.machine ▸ outside_fresh c
  have hsound := houtside.moments fuel room (.knowing s.globals.keys) hplain hshape
    (fun _ hsite => hsite) fun _ _ _ _ _ _ _ _ => trivial
  have hlodged : s.machine.heap.Lodged (depthOf s.depths) [[]] :=
    hready.machine ▸ lodged_fresh (depthOf s.depths)
  refine Machine.run_agrees hplain fuel room hlodged ?_ (hs.straight hfound) ?_
  · rw [houtside.here]
    exact hlodged.root
  · intro front st rest m heq hrun b hb
    exact (hsound front st rest m heq hrun b hb).serves hplain (fun _ => trivial) hfound
      (hs.settled hshape hfound)

/-- A function adds to a variable around it, and is called from the block of a loop. -/
def countingText : String :=
  "\x7b var n = 0; fun up(k) \x7b n = n + k; \x7d while (n < 3) \x7b up(1); \x7d print n; \x7d"

/-- The variable is found from the calls, whose frames do not hang off the loop. -/
theorem run_searching_counting : ∃ program s r,
    fresh.prepare (.fresh 10 false) countingText = (.ready program, s, r) ∧
      s.Searchable program ∧
      s.machine.run (.searching (Host.telling fun _ => 0)) enoughFuel maxCalls program =
        s.machine.run (.following s.depths (Host.telling fun _ => 0)) enoughFuel maxCalls program ∧
      (s.machine.run (.searching (Host.telling fun _ => 0)) enoughFuel maxCalls
        program).2.printed = #["3"] := by
  -- All in one, because the text is read only once then.
  have hfacts : isReady (fresh.prepare (.fresh 10 false) countingText).1 = true ∧
      Stmt.unshadowedAll (fresh.globals.keys ++
        ((fresh.reading countingText).statements.filterMap Stmt.declares?).map Token.lexeme)
        (fresh.reading countingText).statements = true ∧
      (∀ site ∈ fresh.sites (fresh.reading countingText).statements,
        depthOf (fresh.prepare (.fresh 10 false) countingText).2.1.depths site.serial = none →
        ∀ r ∈ site.regions, r.declares site.name.lexeme = false) ∧
      (∀ site ∈ fresh.sites (fresh.reading countingText).statements,
        site.writes = true → ∀ r ∈ site.regions.head?, r.declares site.name.lexeme = false) ∧
      (fresh.runText (Host.telling fun _ => 0) (.fresh 10 false)
        countingText).2.1.machine.printed = #["3"] := by decide +kernel
  obtain ⟨hready, hunshadowed, houtside, hheads, hprinted⟩ := hfacts
  obtain ⟨s, r, hp, hrun⟩ := exists_ready (Host.telling fun _ => 0) _ _ hready
  rw [hp] at houtside
  rw [← hrun] at hprinted
  have hglobals : s.globals = fresh.globals := by
    unfold globals
    rw [prepare_machine hp]
  have hsites := (ready_of_prepare hp).sites_eq
  have hs : s.Searchable (fresh.reading countingText).statements := by
    refine ⟨?_, ?_, fun site hsite hwrites => ?_⟩
    · rw [hglobals]
      exact hunshadowed
    · rw [hsites]
      exact houtside
    · rw [hsites] at hsite
      exact Site.not_inInitialiser (hheads site hsite hwrites)
  have hsame := run_searching (fun _ => 0) hp hs enoughFuel maxCalls
  refine ⟨_, s, r, hp, hs, hsame, ?_⟩
  rw [hsame]
  exact hprinted

/-- Without the second condition a search finds a variable that the reference does not mean: the
name is a global for the function, and is declared around it only behind it. -/
example :
    let text := "\x7b fun f() \x7b print a; \x7d var a = true; f(); \x7d"
    let s := (fresh.prepare (.fresh 10 false) text).2.1
    let run := fun setting =>
      (s.machine.run setting enoughFuel maxCalls (fresh.reading text).statements).2.printed
    Stmt.unshadowedAll s.globals.keys (fresh.reading text).statements = true ∧
      run (.following s.depths (Host.telling fun _ => 0)) = #[] ∧
      run (.searching (Host.telling fun _ => 0)) = #["true"] := by decide +kernel

end Session

end Scriptlet

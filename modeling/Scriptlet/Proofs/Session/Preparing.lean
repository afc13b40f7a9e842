import Scriptlet.Proofs.Binding.Lands
import Scriptlet.Proofs.Grammar.Completeness
import Scriptlet.Proofs.Grammar.Trees
import Scriptlet.Session

/-!
# What preparing a text finds out

There are few ways for the preparation of a text to end (`Session.prepare_cases`). If it ends with
a program that is ready to run, the tokens of the text derive from the program, nothing in its
log is trouble, and the depths of all its references are on record (`Session.Ready`). However it
ends, serials are only used up, and what is on record of older references stays
(`Session.prepare_serial`, `Session.depthOf_prepare`).
-/

namespace Scriptlet

namespace Binding

/-! ## Recording depths -/

theorem getElem?_record (depths : Depths) (r : Reference) (k : Nat) :
    (record depths r)[k]? = if k = r.serial then some r.depth else depths[k]? := by
  unfold record
  rw [Std.TreeMap.getElem?_insert]
  by_cases h : k = r.serial
  · rw [if_pos h, if_pos (by rw [h]; exact Std.compare_self)]
  · rw [if_neg h, if_neg fun heq => h (Std.LawfulEqCmp.eq_of_compare heq).symm]

theorem getElem?_foldl_of_not_mem (rs : List Reference) (depths : Depths) (k : Nat)
    (h : k ∉ rs.map Reference.serial) : (rs.foldl record depths)[k]? = depths[k]? := by
  induction rs generalizing depths with
  | nil => rfl
  | cons r rest ih =>
    rw [List.map_cons, List.mem_cons, not_or] at h
    rw [List.foldl_cons, ih _ h.2, getElem?_record, if_neg h.1]

/-- Of references with different serials every one is on record. -/
theorem getElem?_foldl_of_mem (rs : List Reference) (depths : Depths)
    (hnodup : (rs.map Reference.serial).Nodup) {r : Reference} (h : r ∈ rs) :
    (rs.foldl record depths)[r.serial]? = some r.depth := by
  induction rs generalizing depths with
  | nil => cases h
  | cons r' rest ih =>
    rw [List.map_cons, List.nodup_cons] at hnodup
    rw [List.foldl_cons]
    rcases List.mem_cons.1 h with rfl | h
    · rw [getElem?_foldl_of_not_mem rest _ _ hnodup.1, getElem?_record, if_pos rfl]
    · exact ih _ hnodup.2 h

theorem depthOf_foldl_of_not_mem (rs : List Reference) (depths : Depths) (k : Nat)
    (h : k ∉ rs.map Reference.serial) : depthOf (rs.foldl record depths) k = depthOf depths k :=
  congrArg Option.join (getElem?_foldl_of_not_mem rs depths k h)

theorem depthOf_foldl_of_mem (rs : List Reference) (depths : Depths)
    (hnodup : (rs.map Reference.serial).Nodup) {r : Reference} (h : r ∈ rs) :
    depthOf (rs.foldl record depths) r.serial = r.depth :=
  congrArg Option.join (getElem?_foldl_of_mem rs depths hnodup h)

end Binding

open Binding (Event Reference)

/-! ## Taking a log -/

theorem Report.sick_note (r : Report) (line : String) : (r.note line).sick = r.sick := by
  unfold note
  split <;> rfl

theorem Report.crash_note (r : Report) (line : String) : (r.note line).crash = r.crash := by
  unfold note
  split <;> rfl

theorem Report.sick_enter (r : Report) (i : Issue) : (r.enter i).sick = true := by
  simp [sick, enter]

namespace Intake

/-- References are taken in order, maybe not to the end. -/
theorem take_references (i : Intake) (es : List Event) : ∃ es', es' <+: es ∧
    (i.take es).references.toList = i.references.toList ++ es'.filterMap Event.reference? := by
  induction es generalizing i with
  | nil => exact ⟨[], List.prefix_rfl, (List.append_nil _).symm⟩
  | cons e rest ih =>
    cases e with
    | reference r =>
      obtain ⟨es', hes', href⟩ := ih { i with references := i.references.push r }
      refine ⟨.reference r :: es', List.cons_prefix_cons.2 ⟨rfl, hes'⟩, ?_⟩
      rw [Intake.take, href, Array.toList_push, List.append_assoc]
      rfl
    | declaredBefore first =>
      obtain ⟨es', hes', href⟩ := ih { i with report := i.report.note _ }
      exact ⟨.declaredBefore first :: es', List.cons_prefix_cons.2 ⟨rfl, hes'⟩, href⟩
    | unbalanced => exact ⟨[], List.nil_prefix, (List.append_nil _).symm⟩
    | issue issue =>
      simp only [Intake.take]
      split
      · exact ⟨[], List.nil_prefix, (List.append_nil _).symm⟩
      · obtain ⟨es', hes', href⟩ := ih { i with report := i.report.enter issue }
        exact ⟨.issue issue :: es', List.cons_prefix_cons.2 ⟨rfl, hes'⟩, href⟩

/-- A report that is sick stays sick. -/
theorem take_sick {i : Intake} (es : List Event) (h : i.report.sick = true) :
    (i.take es).report.sick = true := by
  induction es generalizing i with
  | nil => exact h
  | cons e rest ih =>
    cases e with
    | reference r => exact ih h
    | declaredBefore first => exact ih (by rw [Report.sick_note]; exact h)
    | unbalanced => exact h
    | issue issue =>
      simp only [Intake.take]
      split
      · exact Report.sick_enter ..
      · exact ih (Report.sick_enter ..)

/-- If nothing has ended the taking and nothing was found, there was no trouble, and all references
were taken. -/
theorem take_clean {i : Intake} {es : List Event} (hhalt : (i.take es).halt = none)
    (hsick : (i.take es).report.sick = false) :
    (∀ e ∈ es, e.isTrouble = false) ∧
      (i.take es).references.toList = i.references.toList ++ es.filterMap Event.reference? := by
  induction es generalizing i with
  | nil => exact ⟨List.forall_mem_nil _, (List.append_nil _).symm⟩
  | cons e rest ih =>
    cases e with
    | reference r =>
      obtain ⟨htrouble, href⟩ := ih hhalt hsick
      refine ⟨List.forall_mem_cons.2 ⟨rfl, htrouble⟩, ?_⟩
      rw [Intake.take, href, Array.toList_push, List.append_assoc]
      rfl
    | declaredBefore first =>
      obtain ⟨htrouble, href⟩ := ih hhalt hsick
      exact ⟨List.forall_mem_cons.2 ⟨rfl, htrouble⟩, href⟩
    | unbalanced => cases hhalt
    | issue issue =>
      simp only [Intake.take] at hhalt hsick
      split at hhalt
      · cases hhalt
      · next hfull =>
        rw [if_neg hfull, take_sick rest (Report.sick_enter ..)] at hsick
        cases hsick

end Intake

/-- The log of a program is about its sites. -/
theorem Binding.log_walked (known : List String) {program : List Stmt}
    (h : Shape.stmts program) :
    let sites := Sites.stmts [] (.outermost (.globals (.knowing known))) program
    (log known program).toList.filterMap Event.reference? = sites.map Site.reference ∧
      ((∀ e ∈ (log known program).toList, e.isTrouble = false) → ∀ site ∈ sites, site.Settled) := by
  obtain ⟨new, hlog, href, hsettled⟩ :=
    (stmts_walked [] program ⟨.outermost (.globals (.knowing known)), 0, #[]⟩ h).log
  have heq : (log known program).toList = new := hlog
  rw [heq]
  exact ⟨href, hsettled⟩

/-- The log of a program has its references in the order of their serials in the tree. -/
theorem Binding.map_serial_log (known : List String) {program : List Stmt}
    (h : Shape.stmts program) :
    ((log known program).toList.filterMap Event.reference?).map Reference.serial =
      Serials.stmts program := by
  rw [(log_walked known h).1, List.map_map]
  exact Sites.map_serial_stmts ..

/-- Nothing has come of taking a log but its references. -/
structure Intake.Passes (i i' : Intake) (es : List Event) : Prop where
  halt : i'.halt = i.halt
  sick : i'.report.sick = i.report.sick
  crash : i'.report.crash = i.report.crash
  references : i'.references.toList = i.references.toList ++ es.filterMap Event.reference?

/-- Without trouble in the log nothing ends the binding, and nothing is entered. -/
theorem Intake.take_of_clean (i : Intake) {es : List Event} (h : ∀ e ∈ es, e.isTrouble = false) :
    i.Passes (i.take es) es := by
  induction es generalizing i with
  | nil => exact ⟨rfl, rfl, rfl, (List.append_nil _).symm⟩
  | cons e rest ih =>
    obtain ⟨he, hrest⟩ := List.forall_mem_cons.1 h
    cases e with
    | reference r =>
      obtain ⟨hhalt, hsick, hcrash, href⟩ := ih { i with references := i.references.push r } hrest
      refine ⟨hhalt, hsick, hcrash, ?_⟩
      rw [Intake.take, href, Array.toList_push, List.append_assoc]
      rfl
    | declaredBefore first =>
      obtain ⟨hhalt, hsick, hcrash, href⟩ := ih { i with report := i.report.note _ } hrest
      rw [Report.sick_note] at hsick
      rw [Report.crash_note] at hcrash
      exact ⟨hhalt, hsick, hcrash, href⟩
    | unbalanced => cases he
    | issue issue => cases he

/-- When nothing is wrong with the names of a program, there is no trouble in the log, and all its
references are taken. -/
theorem Report.bind_clean {r : Report} {known : List String} {program : List Stmt}
    (hhalt : (r.bind known program).halt = none)
    (hsick : (r.bind known program).report.sick = false) :
    (∀ e ∈ (Binding.log known program).toList, e.isTrouble = false) ∧
      (r.bind known program).references.toList =
        (Binding.log known program).toList.filterMap Event.reference? :=
  Intake.take_clean hhalt hsick

/-- When nothing is wrong with the names of a program, all its sites are found. -/
theorem Report.found_of_bind {r : Report} {known : List String} {program : List Stmt}
    (depths : Binding.Depths) (h : Wellformed program)
    (hhalt : (r.bind known program).halt = none)
    (hsick : (r.bind known program).report.sick = false) :
    ∀ site ∈ Sites.stmts [] (.outermost (.globals (.knowing known))) program,
      site.Found (Binding.depthOf
        ((r.bind known program).references.foldl Binding.record depths)) := by
  obtain ⟨href, hsettled⟩ := Binding.log_walked known h.shape
  obtain ⟨htrouble, htaken⟩ := Report.bind_clean hhalt hsick
  intro site hsite
  refine ⟨?_, hsettled htrouble site hsite, ?_⟩
  · rw [← Array.foldl_toList]
    refine Binding.depthOf_foldl_of_mem _ _ ?_ (r := site.reference) ?_
    · rw [htaken]
      exact Binding.map_serial_log known h.shape ▸ h.serials
    · rw [htaken, href]
      exact List.mem_map_of_mem hsite
  · -- No region is around the program itself.
    refine Sites.stmts_owned program [] _ h.shape ⟨⟨_, rfl⟩, .nil⟩ ?_ site hsite
    exact fun _ _ _ _ _ h => absurd h (Option.not_mem_none _)

/-! ## The phases -/

namespace Session

/-- The sites of a program that is to run in a session. -/
def sites (s : Session) (program : List Stmt) : List Site :=
  Sites.stmts [] (.outermost (.globals (.knowing s.globals.keys))) program

/-- The program that is read of a text. -/
abbrev reading (s : Session) (text : String) : Grammar.Program := s.readProgram (Scan.ofText text)

/-- How a preparation ends. -/
inductive Prepares (s : Session) (text : String) : Prepared × Session × Report → Prop
  /-- The tokens are not read as a program. -/
  | early {p : Prepared} {r' : Report} : (∀ program, p ≠ .ready program) →
      Prepares s text (p, s, r')
  /-- The names are not bound. -/
  | unbound {p : Prepared} {r' : Report} : (∀ program, p ≠ .ready program) →
      Prepares s text (p, { s with serial := (s.reading text).serial }, r')
  /-- The names are bound. -/
  | bound {p : Prepared} {r r' : Report} {intake : Intake} : (Scan.ofText text).issues = #[] →
      (s.reading text).issues = #[] →
      intake = r.bind s.globals.keys (s.reading text).statements →
      (∀ program, p = .ready program → program = (s.reading text).statements ∧
        intake.halt = none ∧ intake.report.sick = false) →
      Prepares s text (p,
        { s with serial := (s.reading text).serial,
                 depths := intake.references.foldl Binding.record s.depths }, r')

/-- If the report is not sick behind entries, none was made. -/
theorem nil_of_enterAll {r r' : Report} {is : Array Issue} (h : r.enterAll is.toList = .ok r')
    (hclean : r'.sick = false) : r.sick = false ∧ is = #[] := by
  rw [Report.enterAll_eq_ok h] at hclean
  have hempty : r.issues ++ is.toList.toArray = #[] := by
    simpa [Report.sick] using hclean
  rw [Array.append_eq_empty_iff] at hempty
  exact ⟨by simp [Report.sick, hempty.1], by simpa using hempty.2⟩

theorem prepare_cases (s : Session) (r : Report) (text : String) :
    Prepares s text (s.prepare r text) := by
  unfold prepare prepareBy
  dsimp only
  split
  · exact .early nofun
  · next r₁ hscan =>
    split
    · exact .unbound nofun
    · next r₂ hparse =>
      split
      · exact .unbound nofun
      · next hclean =>
        obtain ⟨hr₁, hissues⟩ := nil_of_enterAll hparse (Bool.eq_false_iff.2 hclean)
        rw [Report.sick_note] at hr₁
        have hscanned := (nil_of_enterAll hscan hr₁).2
        split
        · exact .bound hscanned hissues rfl nofun
        · next hhalt =>
          split
          · exact .bound hscanned hissues rfl nofun
          · next hsick =>
            refine .bound hscanned hissues rfl fun program hp => ?_
            exact ⟨(Prepared.ready.inj hp).symm, hhalt, Bool.eq_false_iff.2 hsick⟩

/-- What has been found out about a program that is ready. -/
structure Ready (s : Session) (text : String) (program : List Stmt) (s' : Session) : Prop where
  machine : s'.machine = s.machine
  scanned : (Scan.ofText text).issues = #[]
  read : s.reading text = ⟨program, #[], s'.serial⟩
  clean : ∀ e ∈ (Binding.log s.globals.keys program).toList, e.isTrouble = false
  derives : Grammar.Declarations Grammar.maxDepth s.serial (Scan.ofText text).tokens.toList program
    s'.serial
  found : ∀ site ∈ s.sites program, site.Found (Binding.depthOf s'.depths)

variable {s s' : Session} {r r' : Report} {text : String}

/-- Preparing a program leaves the globals, so its sites are what they were before. -/
theorem Ready.sites_eq {program : List Stmt} (h : Ready s text program s') :
    s'.sites program = s.sites program := by
  unfold sites globals
  rw [h.machine]

/-- The sites of a program that is ready have new serials, all different. -/
theorem Ready.between {program : List Stmt} (h : Ready s text program s') :
    Serials.Between s.serial s'.serial ((s'.sites program).map Site.serial) := by
  unfold sites
  rw [Sites.map_serial_stmts]
  exact h.derives.between

theorem prepare_machine {p : Prepared} (h : s.prepare r text = (p, s', r')) :
    s'.machine = s.machine := by
  have hcases := prepare_cases s r text
  rw [h] at hcases
  cases hcases <;> rfl

theorem reading_sound (h : (s.reading text).issues = #[]) :
    Grammar.Declarations Grammar.maxDepth s.serial (Scan.ofText text).tokens.toList
      (s.reading text).statements (s.reading text).serial := Grammar.Program.read_sound _ _ _ _ h

/-- The references of a program that has been read have new serials, all different. -/
theorem serials_reading {program : List Stmt} {k : Nat} {ts : List Token} {n : Nat}
    (h : Grammar.Declarations n s.serial ts program k) :
    Serials.Between s.serial k
      (((Binding.log s.globals.keys program).toList.filterMap Event.reference?).map
        Reference.serial) := by
  rw [Binding.map_serial_log _ h.wellformed.shape]
  exact h.between

/-- What a preparation does to serials and to older depths. -/
theorem prepare_older {p : Prepared} (h : s.prepare r text = (p, s', r')) :
    s.serial ≤ s'.serial ∧ ∀ k, k < s.serial →
      Binding.depthOf s'.depths k = Binding.depthOf s.depths k := by
  have hserial : s.serial ≤ (s.reading text).serial := Grammar.Program.read_serial _ _ _ _
  have hcases := prepare_cases s r text
  rw [h] at hcases
  cases hcases with
  | early _ => exact ⟨Nat.le_refl _, fun _ _ => rfl⟩
  | unbound _ => exact ⟨hserial, fun _ _ => rfl⟩
  | @bound _ r₁ _ intake _ hissues hintake _ =>
    refine ⟨hserial, fun k hk => ?_⟩
    obtain ⟨es, hes, href⟩ := Intake.take_references ⟨r₁, #[], none⟩
      (Binding.log s.globals.keys (s.reading text).statements).toList
    have htaken : intake.references.toList = es.filterMap Event.reference? := by
      rw [hintake]
      exact href
    rw [← Array.foldl_toList, htaken]
    refine Binding.depthOf_foldl_of_not_mem _ _ _ fun hmem => ?_
    have hall := ((hes.sublist.filterMap Event.reference?).map Reference.serial).subset hmem
    have hlow := (serials_reading (reading_sound hissues)).low k hall
    omega

theorem ready_of_prepare {program : List Stmt}
    (h : s.prepare r text = (.ready program, s', r')) : Ready s text program s' := by
  have hcases := prepare_cases s r text
  rw [h] at hcases
  cases hcases with
  | early hp => exact absurd rfl (hp program)
  | unbound hp => exact absurd rfl (hp program)
  | @bound _ r₁ _ intake hscanned hissues hintake hp =>
    obtain ⟨rfl, hhalt, hsick⟩ := hp program rfl
    have hd := reading_sound hissues
    rw [hintake] at hhalt hsick
    refine ⟨rfl, hscanned, ?_, (Report.bind_clean hhalt hsick).1, hd, ?_⟩
    · show s.reading text = ⟨_, #[], (s.reading text).serial⟩
      rw [← hissues]
    rw [hintake]
    exact Report.found_of_bind _ hd.wellformed hhalt hsick

/-! ## Texts without trouble -/

/-- The references in the log of a program that is to run in a session. -/
def references (s : Session) (program : List Stmt) : List Reference :=
  (Binding.log s.globals.keys program).toList.filterMap Event.reference?

/-- A text is ready to run if nothing is wrong with its tokens, its grammar and its names. -/
theorem prepare_of_clean {program : List Stmt} {k : Nat} (hscan : (Scan.ofText text).issues = #[])
    (hread : s.reading text = ⟨program, #[], k⟩)
    (hclean : ∀ e ∈ (Binding.log s.globals.keys program).toList, e.isTrouble = false)
    (hr : r.sick = false) :
    ∃ r', s.prepare r text = (.ready program, { s with
        serial := k, depths := (s.references program).foldl Binding.record s.depths }, r') ∧
      r'.sick = false ∧ r'.crash = r.crash := by
  let scanned := toString (Scan.ofText text).listing.size
  let r₁ := (r.attach text).note ("Scanned " ++ scanned ++ " tokens.")
  let r₂ := r₁.note ("Parsed " ++ toString program.length ++ " statements.")
  obtain ⟨hhalt, hsick, hcrash, href⟩ := Intake.take_of_clean ⟨r₂, #[], none⟩ hclean
  have hr₁ : r₁.sick = false := (Report.sick_note ..).trans hr
  have hr₂ : r₂.sick = false := (Report.sick_note ..).trans hr₁
  have hcrash₂ : r₂.crash = r.crash := (Report.crash_note ..).trans (Report.crash_note ..)
  let intake := r₂.bind s.globals.keys program
  change intake.halt = none at hhalt
  have hsick' : intake.report.sick = false := hsick.trans hr₂
  have hrefs : intake.references.foldl Binding.record s.depths =
      (s.references program).foldl Binding.record s.depths := by
    rw [← Array.foldl_toList]
    exact congrArg (List.foldl Binding.record s.depths) href
  have hprogram : s.readProgram (Scan.ofText text) = ⟨program, #[], k⟩ := hread
  have hnone : ∀ r : Report, r.enterAll (#[] : Array Issue).toList = .ok r := fun _ => rfl
  refine ⟨intake.report.note ("Resolved " ++ toString intake.references.size ++ " references."),
    ?_, (Report.sick_note ..).trans hsick', (Report.crash_note ..).trans (hcrash.trans hcrash₂)⟩
  unfold prepare prepareBy
  simp only [hscan, hprogram, hnone]
  rw [if_neg (Bool.eq_false_iff.1 hr₁)]
  split
  · next halt heq => cases heq.symm.trans hhalt
  · rw [← hrefs]
    exact if_neg (Bool.eq_false_iff.1 hsick')

/-- The report on a text that is ready has no other crash than before. -/
theorem crash_of_ready {program : List Stmt} (h : s.prepare r text = (.ready program, s', r'))
    (hr : r.sick = false) : r'.sick = false ∧ r'.crash = r.crash := by
  have hready := ready_of_prepare h
  obtain ⟨r'', hp, hsick, hcrash⟩ := prepare_of_clean hready.scanned hready.read hready.clean hr
  obtain rfl : r'' = r' := by
    rw [h] at hp
    exact (congrArg (fun p => p.2.2) hp).symm
  exact ⟨hsick, hcrash⟩

end Session

end Scriptlet

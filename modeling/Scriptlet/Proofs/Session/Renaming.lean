import Scriptlet.Proofs.Binding.Alike
import Scriptlet.Proofs.Session.Alike
import Scriptlet.Proofs.Tree.Renaming

/-!
# Local names do not matter

A parameter or local variable of a program may get another name that occurs nowhere in the program,
together with the references that mean it. The program resolves as before, and when it runs it does
the same (`Session.rename_local`).
-/

namespace Scriptlet

open Binding (findings)

/-- What is on record of references does not depend on their names. -/
theorem Binding.foldl_record_congr {rs rs' : List Reference}
    (h : rs'.map Reference.finding = rs.map Reference.finding) (depths : Depths) :
    rs'.foldl record depths = rs.foldl record depths := by
  have hrecord : ∀ (rs : List Reference) (depths : Depths), rs.foldl record depths =
      (rs.map Reference.finding).foldl (fun ds f => ds.insert f.1 f.2.2) depths := by
    intro rs
    induction rs with
    | nil => exact fun _ => rfl
    | cons r rest ih => exact fun depths => ih (record depths r)
  rw [hrecord, hrecord, h]

namespace Session

/-- A fresh session that knows the depths of a program. -/
def resolving (r : Report) (program : List Stmt) : Session :=
  { fresh with depths :=
      (r.bind fresh.globals.keys program).references.foldl Binding.record fresh.depths }

/-- Nothing is wrong with the names of a program. -/
structure Resolves (r : Report) (program : List Stmt) : Prop where
  halt : (r.bind fresh.globals.keys program).halt = none
  sick : (r.bind fresh.globals.keys program).report.sick = false

/-- The sites of a program, and the moments that it comes to when it runs in a session. -/
def ownChronicle (host : Host) (s : Session) (program : List Stmt) : Chronicle where
  site site := site ∈ s.sites program
  moment b := ∃ front st rest m, program = front ++ st :: rest ∧
    s.machine.run (.following s.depths host) enoughFuel maxCalls front = (.finished, m) ∧
    Reaches (.following s.depths host) ⟨enoughFuel, maxCalls, .stmt st, m⟩ b

variable {K : Likeness} {r : Report} {program program' : List Stmt}

/-- Programs that are alike resolve alike. -/
theorem resolves_alike (hw : Wellformed program) (hr : Resolves r program)
    (hdepth : K.depth = Binding.depthOf (resolving r program).depths)
    (h : Stmts.Alike K [] program program') : Resolves r program' ∧
      findings (Binding.log fresh.globals.keys program').toList =
        findings (Binding.log fresh.globals.keys program).toList := by
  obtain ⟨htrouble, -⟩ := Report.bind_clean hr.halt hr.sick
  have hsites : Binding.Informed K
      (Sites.stmts [] (.outermost (.globals (.knowing fresh.globals.keys))) program) := by
    intro site hsite
    rw [hdepth]
    exact (Report.found_of_bind _ hw hr.halt hr.sick site hsite).depth
  obtain ⟨-, new, new', hnew, hnew', hfound, hclean⟩ := Binding.stmts_alike [] [] program program'
    ⟨.outermost (.globals (.knowing fresh.globals.keys)), 0, #[]⟩
    ⟨.outermost (.globals (.knowing fresh.globals.keys)), 0, #[]⟩ h
    ⟨.intro .nil (.refl _), Nat.le_refl 0⟩ hw.shape hsites
  have hlog : (Binding.log fresh.globals.keys program).toList = new := hnew
  have hlog' : (Binding.log fresh.globals.keys program').toList = new' := hnew'
  rw [hlog] at htrouble
  have hi : (Intake.mk r #[] none).report.sick = false := by
    have hsick := (Intake.take_of_clean ⟨r, #[], none⟩ htrouble).sick
    rw [← hsick, ← hlog]
    exact hr.sick
  obtain ⟨hhalt', hsick', -, -⟩ := Intake.take_of_clean ⟨r, #[], none⟩ (hclean htrouble)
  rw [← hlog'] at hhalt' hsick'
  refine ⟨⟨hhalt', hsick'.trans hi⟩, ?_⟩
  rw [hlog, hlog']
  exact hfound

theorem depths_congr (hr : Resolves r program) (hr' : Resolves r program')
    (h : findings (Binding.log fresh.globals.keys program').toList =
      findings (Binding.log fresh.globals.keys program).toList) :
    (resolving r program').depths = (resolving r program).depths := by
  show Array.foldl _ _ _ = Array.foldl _ _ _
  rw [← Array.foldl_toList, ← Array.foldl_toList, (Report.bind_clean hr.halt hr.sick).2,
    (Report.bind_clean hr'.halt hr'.sick).2]
  exact Binding.foldl_record_congr h _

/-- Programs that are alike, and resolve, run alike. -/
theorem interpret_alike (times : Nat → Float) (hw : Wellformed program) (hr : Resolves r program)
    (hdepth : K.depth = Binding.depthOf (resolving r program).depths)
    (h : Stmts.Alike K [] program program') (r' : Report) :
    ((resolving r program).interpret (Host.telling times) r' program).1.Alike K
        ((resolving r program').interpret (Host.telling times) r' program').1 ∧
      ∃ marks, ((resolving r program).interpret (Host.telling times) r' program).2.1.machine.Alike K
        marks ((resolving r program').interpret (Host.telling times) r' program').2.1.machine := by
  have hfound := Report.found_of_bind fresh.depths hw hr.halt hr.sick
  obtain ⟨hr', hfindings⟩ := resolves_alike hw hr hdepth h
  have hdepths := depths_congr hr hr' hfindings
  let c := ownChronicle (Host.telling times) (resolving r program) program
  have hrouted : ∀ site, c.site site → site.Routed K
      (.following (resolving r program).depths (Host.telling times))
      (.following (resolving r program').depths (Host.telling times)) := by
    intro site hsite
    refine ⟨hdepth ▸ hfound site hsite, ?_, ?_⟩
    · rw [hdepth]
      rfl
    · rw [hdepth, ← hdepths]
      rfl
  have hsound := (outside_fresh c).moments enoughFuel maxCalls _
    (Setting.plain_telling (resolving r program).depths times) hw.shape (fun _ hsite => hsite)
    fun front st rest m heq hrun b hb => ⟨front, st, rest, m, heq, hrun, hb⟩
  obtain ⟨hending, marks, ho⟩ := Machine.run_alike (Setting.agree_telling _ _ times)
    alike_fresh rfl h fun front st rest m heq hrun b hb =>
      (hsound front st rest m heq hrun b hb).sure hrouted
  exact ⟨hending, marks, ho.alike⟩

/-- What is entered in the report depends on the ending alone. -/
theorem report_congr {host : Host} {s s' : Session}
    (h : (s'.interpret host r program').1 = (s.interpret host r program).1) :
    (s'.interpret host r program').2.2 = (s.interpret host r program).2.2 := by
  unfold interpret at h ⊢
  dsimp only at h ⊢
  rw [h]

/-- **Local names do not matter.** A parameter or local variable gets a name that occurs nowhere,
and so do the references that mean it. The program still resolves, with the same depths. It ends in
the same way, a crash being the same crash, prints the same, and leaves the same globals in the same
order, with values that are alike. -/
theorem rename_local (times : Nat → Float) (r : Report) {program : List Stmt}
    (hw : Wellformed program) (hr : Resolves r program) {number : Nat} {region : Region}
    (hregion : (Regions.stmts program)[number]? = some region) {x : Token} (hx : x ∈ region.locals)
    {y : String} (hy : ∀ n ∈ Names.stmts program, n.lexeme ≠ y) (r' : Report) :
    let names : Renaming := ⟨x.lexeme, y, Binding.depthOf (resolving r program).depths⟩
    let renamed := names.program number program
    let after := (resolving r program).interpret (Host.telling times) r' program
    let after' := (resolving r renamed).interpret (Host.telling times) r' renamed
    Resolves r renamed ∧
      findings (Binding.log fresh.globals.keys renamed).toList =
        findings (Binding.log fresh.globals.keys program).toList ∧
      (resolving r renamed).depths = (resolving r program).depths ∧
      after'.1 = after.1 ∧ after'.2.2 = after.2.2 ∧
      after'.2.1.machine.printed = after.2.1.machine.printed ∧
      after'.2.1.globals.keys = after.2.1.globals.keys ∧
      ∃ marks, after.2.1.machine.Alike names.likeness marks after'.2.1.machine ∧
        after.2.1.globals.Like id (Value.Alike names.likeness marks) after'.2.1.globals := by
  intro names renamed after after'
  have hclean : (Binding.stmts program
      ⟨.outermost (.globals (.knowing fresh.globals.keys)), 0, #[]⟩).Clean :=
    (Report.bind_clean hr.halt hr.sick).1
  have hspares : names.Spares (· == number) (Regions.stmts program) := by
    intro i region' hi htarget f hf
    obtain rfl : i = number := by simpa using htarget
    obtain rfl := Option.some.inj (hi.symm.trans hregion)
    have hdistinct := Binding.regions_distinct program _ hw.shape hclean _
      (List.mem_of_getElem? hregion)
    exact hdistinct.functions_ne hx hf
  have halike : Stmts.Alike names.likeness [] program renamed :=
    Renaming.stmts_alike program [] _ hw.shape hy hspares nofun
  obtain ⟨hr', hfindings⟩ := resolves_alike hw hr rfl halike
  obtain ⟨hending, marks, hmachine⟩ := interpret_alike times hw hr rfl halike r'
  have hsame : after'.1 = after.1 := hending.eq fun _ _ h => h
  exact ⟨hr', hfindings, depths_congr hr hr' hfindings, hsame, report_congr hsame,
    hmachine.printed, keys_alike hmachine, marks, hmachine, globals_alike hmachine⟩

/-- A variable that a function has captured is renamed from `x` to `y`, and the function still
prints it. -/
theorem rename_local_captured :
    let name : String → Token := fun lexeme => ⟨.name, lexeme, .nil, 1, 0⟩
    let program : List Stmt := [.block [.var (name "x") none,
      .function (name "f") [] [.print (name "print") (.ref (name "x") 0)],
      .expr (.call (.ref (name "f") 1) (name ")") [])]]
    let names : Renaming := ⟨"x", "y", Binding.depthOf (resolving (.fresh 10 false) program).depths⟩
    let renamed := names.program 0 program
    let after' := (resolving (.fresh 10 false) renamed).interpret (Host.telling fun _ => 0)
      (.fresh 10 false) renamed
    Wellformed program ∧ Resolves (.fresh 10 false) program ∧
      Resolves (.fresh 10 false) renamed ∧ after'.2.1.machine.printed = #["nil"] ∧
      after'.2.1.globals.keys = ["clock"] := by
  intro name program names renamed after'
  have hw : Wellformed program := ⟨by simp [program, Shape.stmts, Shape.stmt], by decide⟩
  have hr : Resolves (.fresh 10 false) program := ⟨by decide +kernel, by decide +kernel⟩
  have hregion : (Regions.stmts program)[0]? = some (.block [.var (name "x") none,
    .function (name "f") [] [.print (name "print") (.ref (name "x") 0)],
    .expr (.call (.ref (name "f") 1) (name ")") [])]) := rfl
  have hx : name "x" ∈ Region.locals (.block [.var (name "x") none,
    .function (name "f") [] [.print (name "print") (.ref (name "x") 0)],
    .expr (.call (.ref (name "f") 1) (name ")") [])]) := List.mem_cons_self
  have hnames : ∀ n ∈ Names.stmts program, n.lexeme ≠ "y" := by decide
  obtain ⟨hresolves, -, -, -, -, hprinted, hglobals, -⟩ :=
    rename_local (fun _ => 0) (.fresh 10 false) hw hr hregion hx hnames (.fresh 10 false)
  exact ⟨hw, hr, hresolves, hprinted.trans (by decide +kernel), hglobals.trans (by decide +kernel)⟩

end Session

end Scriptlet

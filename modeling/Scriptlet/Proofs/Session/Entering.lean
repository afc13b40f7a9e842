import Scriptlet.Proofs.Session.Limit

/-!
# What a preparation enters in a report

Preparing a text changes what a report says of it in one way only: issues are entered. Each of them
is found by the scan, by the grammar, or by the binding of names, which finds none unless the other
two have not found any (`Session.Finds`, `Session.prepare_enters`).
-/

namespace Scriptlet

/-! ## Entries -/

namespace Report

/-- From one report to another: issues that satisfy a condition were entered, and nothing else has
changed but what is told and the text that is known. -/
structure Enters (Q : Issue → Prop) (r r' : Report) : Prop where
  issues : ∀ i ∈ r'.issues, i ∈ r.issues ∨ Q i
  crash : r'.crash = r.crash
  limit : r'.limit = r.limit
  verbose : r'.verbose = r.verbose

variable {Q : Issue → Prop} {r r' r'' : Report}

theorem Enters.refl (r : Report) : r.Enters Q r := ⟨fun _ => .inl, rfl, rfl, rfl⟩

theorem Enters.trans (h : r.Enters Q r') (h' : r'.Enters Q r'') : r.Enters Q r'' := by
  refine ⟨fun i hi => ?_, h'.crash.trans h.crash, h'.limit.trans h.limit,
    h'.verbose.trans h.verbose⟩
  rcases h'.issues i hi with hi | hi
  · exact h.issues i hi
  · exact .inr hi

theorem enters_enter (r : Report) {i : Issue} (hi : Q i) : r.Enters Q (r.enter i) := by
  refine ⟨fun j hj => ?_, rfl, rfl, rfl⟩
  rcases Array.mem_push.1 hj with hj | rfl
  · exact .inl hj
  · exact .inr hi

theorem enters_attach (r : Report) (text : String) : r.Enters Q (r.attach text) :=
  ⟨fun _ => .inl, rfl, rfl, rfl⟩

theorem enters_note (r : Report) (line : String) : r.Enters Q (r.note line) := by
  unfold note
  split
  · exact ⟨fun _ => .inl, rfl, rfl, rfl⟩
  · exact .refl r

theorem enters_append (r : Report) {is : List Issue} (his : ∀ i ∈ is, Q i) :
    r.Enters Q { r with issues := r.issues ++ is.toArray } := by
  refine ⟨fun i hi => (Array.mem_append.1 hi).imp_right fun hi => ?_, rfl, rfl, rfl⟩
  exact his i (List.mem_toArray.1 hi)

/-- Entries are made up to the limit, or all of them. -/
theorem enters_enterAll {is : List Issue} (his : ∀ i ∈ is, Q i)
    (h : r.enterAll is = .ok r' ∨ r.enterAll is = .error r') : r.Enters Q r' := by
  rcases h with h | h
  · rw [enterAll_eq_ok h]
    exact enters_append r his
  · obtain ⟨-, n, hr'⟩ := enterAll_eq_error h
    rw [hr']
    exact enters_append r fun i hi => his i (List.mem_of_mem_take hi)

end Report

theorem Intake.take_enters {Q : Issue → Prop} {es : List Binding.Event}
    (hes : ∀ i, .issue i ∈ es → Q i) (intake : Intake) :
    intake.report.Enters Q (intake.take es).report := by
  induction es generalizing intake with
  | nil => exact .refl _
  | cons e rest ih =>
    have hrest := ih fun i hi => hes i (List.mem_cons_of_mem _ hi)
    cases e with
    | reference r => exact hrest { intake with references := intake.references.push r }
    | declaredBefore first =>
      exact (Report.enters_note ..).trans (hrest { intake with report := intake.report.note _ })
    | unbalanced => exact .refl _
    | issue i =>
      have hentered := intake.report.enters_enter (hes i List.mem_cons_self)
      simp only [take]
      split
      · exact hentered
      · exact hentered.trans (hrest { intake with report := intake.report.enter i })

/-! ## Phases -/

namespace Session

/-- What may be found to be wrong with a text. Its names are not bound if there is something wrong
with it before. -/
inductive Finds (s : Session) (text : String) : Issue → Prop
  | scan {i : Issue} : i ∈ (Scan.ofText text).issues → Finds s text i
  | parse {i : Issue} : i ∈ (s.reading text).issues → Finds s text i
  | bind {i : Issue} : (Scan.ofText text).issues = #[] → (s.reading text).issues = #[] →
      .issue i ∈ Binding.log s.globals.keys (s.reading text).statements → Finds s text i

theorem bound_enters {Q : Issue → Prop} (s : Session) (program : List Stmt) (intake : Intake) :
    intake.report.Enters Q (s.bound program intake).report := by
  unfold bound
  dsimp only
  split
  · exact .refl _
  · split
    · exact .refl _
    · exact Report.enters_note ..

theorem parsed_enters {Q : Issue → Prop} (s : Session) (lexical : Bool) (program : List Stmt)
    (r : Report) (hQ : r.sick = false → ∀ i, .issue i ∈ Binding.log s.globals.keys program → Q i) :
    r.Enters Q (s.parsed lexical program r).report := by
  unfold parsed
  split
  · exact .refl r
  · next hclean =>
    refine (r.enters_note _).trans (.trans (Intake.take_enters (fun i hi => ?_) ⟨_, #[], none⟩)
      (s.bound_enters program _))
    exact hQ (Bool.eq_false_iff.2 hclean) i (Array.mem_toList_iff.1 hi)

theorem scanned_enters (s : Session) (text : String) (r : Report)
    (hr : r.sick = false → (Scan.ofText text).issues = #[]) :
    r.Enters (s.Finds text) (s.scanned (Scan.ofText text) r).report := by
  have hread : ∀ i ∈ (s.reading text).issues.toList, s.Finds text i :=
    fun i hi => .parse (Array.mem_toList_iff.1 hi)
  unfold scanned
  dsimp only
  split
  · next r' heq => exact (r.enters_note _).trans (Report.enters_enterAll hread (.inr heq))
  · next r' heq =>
    refine ((r.enters_note _).trans (Report.enters_enterAll hread (.inl heq))).trans ?_
    refine parsed_enters _ _ _ _ fun hclean i hi => ?_
    obtain ⟨hr', hissues⟩ := nil_of_enterAll heq hclean
    exact .bind (hr ((Report.sick_note ..).symm.trans hr')) hissues hi

/-- What a preparation enters in a report. -/
theorem prepare_enters (s : Session) (r : Report) (text : String) :
    r.Enters (s.Finds text) (s.prepare r text).2.2 := by
  have hscan : ∀ i ∈ (Scan.ofText text).issues.toList, s.Finds text i :=
    fun i hi => .scan (Array.mem_toList_iff.1 hi)
  rw [prepare_eq_recording]
  unfold recording
  dsimp only
  split
  · next r' heq => exact (r.enters_attach text).trans (Report.enters_enterAll hscan (.inr heq))
  · next r' heq =>
    refine ((r.enters_attach text).trans (Report.enters_enterAll hscan (.inl heq))).trans ?_
    exact s.scanned_enters text r' fun hclean => (nil_of_enterAll heq hclean).2

end Session

end Scriptlet

import Scriptlet.Proofs.Binding.Distinct
import Scriptlet.Proofs.Tree.Tokens

/-!
# What the walk blames

The walk over a tree comes out of as many functions as it went into, keeps its log and adds to it,
and whatever issue it adds is blamed on a token of the tree (`Course`, `stmts_course`). So a return
outside of all functions is found: without trouble in the log, returns stand in functions only
(`Housed`, `housed_of_log`).
-/

namespace Scriptlet

/-! ## Returns in functions -/

mutual

/-- No return, but in functions. -/
def Housed.stmt : Stmt → Prop
  | .expr _ | .print _ _ | .var _ _ | .function _ _ _ => True
  | .block body => Housed.stmts body
  | .branch _ yes none => Housed.stmt yes
  | .branch _ yes (some no) => Housed.stmt yes ∧ Housed.stmt no
  | .loop _ body => Housed.stmt body
  | .ret _ _ => False

/-- The same of all statements of a list. -/
def Housed.stmts : List Stmt → Prop
  | [] => True
  | st :: rest => Housed.stmt st ∧ Housed.stmts rest

end

namespace Binding

/-- From the first state the walk went to the second, inside of as many functions, and it has
blamed these tokens alone. -/
structure Course (w w' : Walk) (blamed : List Token) : Prop where
  functions : w'.functions = w.functions
  log : ∃ new : List Event, w'.log.toList = w.log.toList ++ new ∧
    ∀ i, .issue i ∈ new → ∃ t ∈ blamed, ∃ cause, i = .blame t cause

variable {w w' w'' : Walk} {ts ts' : List Token}

theorem Course.refl (w : Walk) : Course w w [] := ⟨rfl, [], (List.append_nil _).symm, nofun⟩

theorem Course.mono (h : Course w w' ts) (hts : ts ⊆ ts') : Course w w' ts' := by
  obtain ⟨new, hlog, hissues⟩ := h.log
  refine ⟨h.functions, new, hlog, fun i hi => ?_⟩
  obtain ⟨t, ht, hblame⟩ := hissues i hi
  exact ⟨t, hts ht, hblame⟩

theorem Course.trans (h : Course w w' ts) (h' : Course w' w'' ts') :
    Course w w'' (ts ++ ts') := by
  obtain ⟨new, hlog, hissues⟩ := (h.mono (List.subset_append_left ts ts')).log
  obtain ⟨new', hlog', hissues'⟩ := (h'.mono (List.subset_append_right ts ts')).log
  refine ⟨h'.functions.trans h.functions, new ++ new', ?_, fun i hi => ?_⟩
  · rw [hlog', hlog, List.append_assoc]
  · exact (List.mem_append.1 hi).elim (hissues i) (hissues' i)

/-- What was found before is still in the log. -/
theorem Course.clean (h : Course w w' ts) (hclean : w'.Clean) : w.Clean := by
  obtain ⟨new, hlog, -⟩ := h.log
  exact fun e he => hclean e (by rw [hlog]; exact List.mem_append_left _ he)

/-! ## Steps -/

/-- A step that leaves the log alone. -/
theorem Course.step (hfunctions : w'.functions = w.functions) (hlog : w'.log = w.log) :
    Course w w' [] := ⟨hfunctions, [], by rw [hlog, List.append_nil], nofun⟩

/-- An entry that is no issue. -/
theorem course_add (w : Walk) {e : Event} (he : ∀ i, e ≠ .issue i) : Course w (w.add e) [] := by
  refine ⟨rfl, [e], by simp [Walk.add], fun i hi => ?_⟩
  exact absurd (List.mem_singleton.1 hi).symm (he i)

/-- An issue with a token. -/
theorem course_blame (w : Walk) (t : Token) (cause : Issue.Cause) :
    Course w (w.add (.issue (.blame t cause))) [t] := by
  refine ⟨rfl, [.issue (.blame t cause)], by simp [Walk.add], fun i hi => ?_⟩
  obtain rfl := Event.issue.inj (List.mem_singleton.1 hi)
  exact ⟨t, List.mem_singleton_self t, cause, rfl⟩

/-- An issue with a token that depends on where the walk is. -/
theorem course_unless (w : Walk) (p : Prop) [Decidable p] (t : Token) (cause : Issue.Cause) :
    Course w (if p then w.add (.issue (.blame t cause)) else w) [t] := by
  split
  · exact course_blame w t cause
  · exact (Course.refl w).mono (List.nil_subset _)

theorem course_declare (w : Walk) (name : Token) : Course w (w.declare name) [name] := by
  unfold Walk.declare
  cases w.scopes.declare name with
  | ok scopes =>
    have hstep : Course w { w with scopes } [] := .step rfl rfl
    exact hstep.mono (List.nil_subset _)
  | error first =>
    have hnote : Course w (w.add (.declaredBefore first)) [] := course_add w fun _ => nofun
    exact hnote.trans (course_blame _ name .redeclared)

theorem course_define (w : Walk) (name : Token) : Course w (w.define name) [] := .step rfl rfl

theorem course_refer (w : Walk) (serial : Nat) (name : Token) (writes : Bool) :
    Course w (w.refer serial name writes) [] := course_add w fun _ => nofun

theorem course_leave (w : Walk) : Course w w.leave [] := by
  unfold Walk.leave
  cases w.scopes.leave? with
  | some scopes => exact .step rfl rfl
  | none => exact course_add w fun _ => nofun

/-! ## Expressions -/

mutual

theorem expr_course : ∀ (e : Expr) (w : Walk), Course w (expr e w) (Tokens.expr e)
  | .literal _, w => .refl w
  | .ref name serial, w =>
    (course_unless w _ name .selfReference).trans (course_refer _ serial name false)
  | .assign name value serial, w =>
    ((expr_course value w).trans (course_refer _ serial name true)).mono (by simp [Tokens.expr])
  | .binary lhs op rhs, w | .logical lhs op rhs, w =>
    ((expr_course lhs w).trans (expr_course rhs _)).mono (List.subset_cons_self op _)
  | .unary op arg, w => (expr_course arg w).mono (List.subset_cons_self op _)
  | .grouping inner, w => expr_course inner w
  | .call callee paren args, w =>
    ((expr_course callee w).trans (exprs_course args _)).mono (List.subset_cons_self paren _)

theorem exprs_course : ∀ (es : List Expr) (w : Walk), Course w (exprs es w) (Tokens.exprs es)
  | [], w => .refl w
  | e :: rest, w => (expr_course e w).trans (exprs_course rest _)

end

theorem optional_course (e : Option Expr) (w : Walk) :
    Course w (optional e w) (Tokens.optional e) := by
  cases e with
  | none => exact .refl w
  | some e => exact expr_course e w

theorem params_course (params : List Token) (w : Walk) :
    Course w (params.foldl (fun w p => (w.declare p).define p) w) params := by
  induction params generalizing w with
  | nil => exact .refl w
  | cons p rest ih => exact ((course_declare w p).trans (course_define _ p)).trans (ih _)

/-! ## Statements -/

mutual

theorem stmt_course : ∀ (st : Stmt) (w : Walk), Course w (stmt st w) (Tokens.stmt st)
  | .expr e, w => expr_course e w
  | .print keyword e, w => (expr_course e w).mono (List.subset_cons_self keyword _)
  | .var name init, w =>
    (((course_declare w name).trans (optional_course init _)).trans (course_define _ name)).mono
      (by simp [Tokens.stmt])
  | .block body, w => by
    have henter : Course w w.enter [] := .step rfl rfl
    exact ((henter.trans (stmts_course body _)).trans (course_leave _)).mono
      (by simp [Tokens.stmt])
  | .branch condition yes none, w => (expr_course condition w).trans (stmt_course yes _)
  | .branch condition yes (some no), w =>
    (expr_course condition w).trans ((stmt_course yes _).trans (stmt_course no _))
  | .loop condition body, w => (expr_course condition w).trans (stmt_course body _)
  | .function name params body, w => by
    let declared := (w.declare name).define name
    have hdeclared : Course w declared [name] :=
      (course_declare w name).trans (course_define _ name)
    have hbody := (params_course params declared.enterFunction).trans (stmts_course body _)
    obtain ⟨new, hlog, hissues⟩ := (hbody.trans (course_leave _)).log
    -- What has been entered is left again, so the count of functions is what it was.
    have hleft : Course declared (stmt (.function name params body) w)
        (params ++ Tokens.stmts body) :=
      ⟨congrArg (· - 1) hbody.functions, new, hlog, by simpa using hissues⟩
    exact hdeclared.trans hleft
  | .ret keyword value, w =>
    (course_unless w _ keyword .strayReturn).trans (optional_course value _)

theorem stmts_course : ∀ (sts : List Stmt) (w : Walk), Course w (stmts sts w) (Tokens.stmts sts)
  | [], w => .refl w
  | st :: rest, w => (stmt_course st w).trans (stmts_course rest _)

end

/-- **Issues with a tree** are blamed on its tokens. -/
theorem blamed_of_log {known : List String} {program : List Stmt} {i : Issue}
    (h : .issue i ∈ log known program) :
    ∃ t ∈ Tokens.stmts program, ∃ cause, i = .blame t cause := by
  obtain ⟨new, hlog, hissues⟩ :=
    (stmts_course program ⟨.outermost (.globals (.knowing known)), 0, #[]⟩).log
  refine hissues i ?_
  have heq : (log known program).toList = new := hlog
  rw [← heq]
  exact Array.mem_toList_iff.2 h

/-! ## Stray returns -/

mutual

theorem housed_of_clean : ∀ (st : Stmt) (w : Walk), w.functions = 0 → (stmt st w).Clean →
    Housed.stmt st
  | .expr _, _, _, _ | .print _ _, _, _, _ | .var _ _, _, _, _ | .function _ _ _, _, _, _ => trivial
  | .block body, w, h, hclean => housed_of_stmts body w.enter h (clean_of_leave hclean)
  | .branch condition yes none, w, h, hclean =>
    housed_of_clean yes _ ((expr_course condition w).functions.trans h) hclean
  | .branch condition yes (some no), w, h, hclean => by
    have hcondition := (expr_course condition w).functions.trans h
    exact ⟨housed_of_clean yes _ hcondition ((stmt_course no _).clean hclean),
      housed_of_clean no _ ((stmt_course yes _).functions.trans hcondition) hclean⟩
  | .loop condition body, w, h, hclean =>
    housed_of_clean body _ ((expr_course condition w).functions.trans h) hclean
  | .ret keyword value, w, h, hclean => by
    have hstray : (w.add (.issue (.blame keyword .strayReturn))).Clean := by
      refine (optional_course value _).clean ?_
      change (optional value (if w.functions = 0 then _ else _)).Clean at hclean
      rwa [if_pos h] at hclean
    have htrouble := hstray (.issue (.blame keyword .strayReturn)) (by simp [Walk.add])
    cases htrouble

theorem housed_of_stmts : ∀ (sts : List Stmt) (w : Walk), w.functions = 0 → (stmts sts w).Clean →
    Housed.stmts sts
  | [], _, _, _ => trivial
  | st :: rest, w, h, hclean =>
    ⟨housed_of_clean st w h ((stmts_course rest _).clean hclean),
      housed_of_stmts rest _ ((stmt_course st w).functions.trans h) hclean⟩

end

/-- **No stray return** is in a program without trouble in its log. -/
theorem housed_of_log {known : List String} {program : List Stmt}
    (h : ∀ e ∈ (log known program).toList, e.isTrouble = false) : Housed.stmts program :=
  housed_of_stmts program _ rfl h

end Binding

end Scriptlet

import Scriptlet.Proofs.Session.Journal

/-!
# The issues of the binding

**Without a limit the binding of a program reports exactly the mistakes that are made in it**
(`Session.mistakes_reported`): a variable that is read in its own initialiser, a name that is
declared twice in a block or a function, and a return outside of all functions. The log of the walk
has the issues of those spots that break a rule (`Binding.issues_log`), and a report without a limit
takes all of it.
-/

namespace Scriptlet

/-- Without a limit the issues are reported of all spots in which a rule is broken. -/
theorem Report.bind_issues {r : Report} (hr : r.limit = 0) (known : List String)
    {program : List Stmt} (h : Shape.stmts program) :
    (r.bind known program).halt = none ∧ (r.bind known program).report.issues.toList =
      r.issues.toList ++
        ((Spots.stmts (.outside known) program).filter Spot.breaks).map Spot.issue := by
  obtain ⟨hhalt, -, hissues⟩ := Report.bind_all hr known program
  exact ⟨hhalt, hissues.trans (congrArg (_ ++ ·) (Binding.issues_log known h))⟩

namespace Session

/-- **The binding of a program reports exactly its mistakes**, whatever tokens the program was read
of and whatever globals are known. Its issues are, in the order of the walk, those of the spots in
which a rule is broken: a variable is read in its own initialiser that was not declared before in
the same scope; or a name is declared that was declared before in the same block or function, where
the parameters of a function belong to its body; or a return stands outside of all functions. Behind
some statements of a scope those names were declared before that were so in front of them, and those
that the statements declare. -/
theorem mistakes_reported (depth k : Nat) (tokens : List Token) (stop : Token)
    (known : List String) {r : Report} (hr : r.limit = 0) :
    let program := (Grammar.Program.read depth k tokens stop).statements
    let spots := Spots.stmts (.outside known) program
    let intake := r.bind known program
    (intake.halt = none ∧ intake.report.issues.toList =
        r.issues.toList ++ (spots.filter Spot.breaks).map Spot.issue) ∧
      ∀ (p : Standing) (front rest : List Stmt), Spots.stmts p (front ++ rest) =
        Spots.stmts p front ++ Spots.stmts
          { p with earlier := p.earlier ++ (front.filterMap Stmt.declares?).map Token.lexeme }
          rest :=
  ⟨Report.bind_issues hr known (Grammar.Program.shape_read depth k tokens stop),
    Spots.stmts_append⟩

/-- A parameter is declared again, and so is a variable whose first initialiser reads it twice. A
global may be declared again, and its second initialiser may read it. The last return is a stray
one. -/
theorem mistakes_reported_mixed :
    let scan := Scan.ofText
      "fun f(a) \x7b var a; return a; \x7d \x7b var b = b + b; var b = b; \x7d
      var c = c; var c = c; return;"
    let program := (Grammar.Program.read Grammar.maxDepth 0 scan.tokens.toList scan.stop).statements
    (Report.fresh 0 false).limit = 0 ∧
      ((Report.fresh 0 false).bind ["clock"] program).report.issues.toList.map
          (fun i => (i.offset, i.cause)) =
        [(15, .redeclared), (40, .selfReference), (44, .selfReference), (51, .redeclared),
          (74, .selfReference), (88, .strayReturn)] := by
  intro scan program
  have hissues := (mistakes_reported Grammar.maxDepth 0 scan.tokens.toList scan.stop ["clock"]
    (r := .fresh 0 false) rfl).1.2
  refine ⟨rfl, ?_⟩
  rw [hissues]
  decide +kernel

end Session

end Scriptlet

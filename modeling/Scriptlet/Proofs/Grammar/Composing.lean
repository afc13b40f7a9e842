import Scriptlet.Proofs.Grammar.Recognition
import Scriptlet.Proofs.Grammar.Shifting
import Scriptlet.Proofs.Grammar.Turns
import Scriptlet.Token.Scan

/-!
# Programs one behind the other

What has been read without an issue is not changed by what comes behind it, also if that does not
fit the grammar: the statements of the second text come behind those of the first, and the issues
are those of the second (`Program.read_append`). Only an `else` could reach over the seam, to a
branch at the end of the first text.

The first text derives, so each of its declarations is read whatever is behind it
(`Program.declarations_through`). Of the second nothing is known. It is read with the same tokens
ahead as it is by itself, but with more turns, which makes no difference
(`Program.declarations_steady`).

The two parts are compared up to serials, because those of the second text by itself need not go on
where those of the first end (`Program.ofTokens?_append`).
-/

namespace Scriptlet

/-- The relabeling that leaves references without their own serials. -/
def Relabeling.unnumbered : Relabeling := .keeping fun _ => 0

theorem Relabeling.stmts_append (g : Relabeling) (sts sts' : List Stmt) :
    g.stmts (sts ++ sts') = g.stmts sts ++ g.stmts sts' := by
  induction sts with
  | nil => rfl
  | cons st sts ih => exact congrArg (g.stmt st :: ·) ih

namespace Grammar

variable {m n k k' : Nat} {nested : Nested} {ts rest : List Token} {sts : List Stmt}

/-- Every declaration has a token. -/
theorem Declarations.length_le : ∀ {m k k' : Nat} {ts : List Token} {sts : List Stmt},
    Declarations m k ts sts k' → sts.length ≤ ts.length
  | _, _, _, _, _, .nil => Nat.le_refl 0
  | _, _, _, _, _, .cons hd hmore => by
    obtain ⟨t, ts₀, rfl, -⟩ := hd.begins
    have hle := hmore.length_le
    simp only [List.length_cons, List.length_append]
    omega

namespace Program

/-- Declarations that derive are read whatever is behind them, but for an `else`. -/
theorem declarations_through (h : Complete n nested) (c : Cursor) (hn : m ≤ n)
    (hd : Declarations m k ts sts k') (helse : NoElse rest)
    (hroom : (ts ++ rest).length < c.turns) (fuel : Nat) (done : List Stmt) :
    declarations nested (sts.length + fuel) done (c.ahead (ts ++ rest) k) =
      declarations nested fuel (sts.reverse ++ done) (c.ahead rest k') := by
  induction sts generalizing m k ts done with
  | nil =>
    cases hd with
    | nil => rw [List.length_nil, Nat.zero_add]; rfl
  | cons st sts ih =>
    cases hd with
    | @cons m _ k₁ _ ts ts' _ _ hd hmore =>
      rw [List.append_assoc] at hroom ⊢
      obtain ⟨t, ts₀, hts, -⟩ := hd.begins
      have hread := h.declaration c hd (hmore.noElse helse) hroom
      -- The nesting is not too deep, so the declaration itself is what is read.
      rcases hread with hread | ⟨hlt, -⟩
      · have hturn :
            declarations nested (sts.length + fuel + 1) done (c.ahead (ts ++ (ts' ++ rest)) k) =
              declarations nested (sts.length + fuel) (st :: done) (c.ahead (ts' ++ rest) k₁) := by
          rw [declarations, if_neg (by simp [hts]), hread]
          rfl
        rw [List.length_append] at hroom
        rw [List.length_cons, Nat.add_right_comm, hturn, ih hn hmore (by omega) (st :: done),
          List.reverse_cons, List.append_assoc]
        rfl
      · omega

/-- **What was read without an issue is not changed by what comes behind it.** -/
theorem read_append {n k : Nat} {xs ys : List Token} {last : Token} (stop : Token)
    (hclean : (read n k xs last).issues = #[]) (helse : NoElse ys) :
    read n k (xs ++ ys) stop =
      { read n (read n k xs last).serial ys stop with
        statements := (read n k xs last).statements ++
          (read n (read n k xs last).serial ys stop).statements } := by
  have hd := read_sound n k xs last hclean
  generalize (read n k xs last).statements = sts at hd ⊢
  generalize (read n k xs last).serial = k' at hd ⊢
  have hlen := hd.length_le
  obtain ⟨fuel, hfuel⟩ : ∃ fuel, (xs ++ ys).length + 1 = sts.length + (fuel + 1) :=
    ⟨(xs ++ ys).length - sts.length, by rw [List.length_append]; omega⟩
  rw [List.length_append] at hfuel
  let c := Cursor.front k (xs ++ ys) stop
  have hroom : (xs ++ ys).length < c.turns := Nat.lt_succ_self _
  have halike : (c.ahead ys k').Alike (Cursor.front k' ys stop) := by
    refine ⟨rfl, rfl, rfl, rfl, ?_, Nat.lt_succ_self _⟩
    rw [List.length_append] at hroom
    exact Nat.lt_of_le_of_lt (Nat.le_add_left ys.length xs.length) hroom
  calc read n k (xs ++ ys) stop
    _ = declarations (readers n) (sts.length + (fuel + 1)) [] (c.ahead (xs ++ ys) k) := by
      rw [← hfuel, ← List.length_append]
      rfl
    _ = declarations (readers n) (fuel + 1) sts.reverse (c.ahead ys k') := by
      rw [declarations_through (complete_readers n) c (Nat.le_refl n) hd helse hroom,
        List.append_nil]
    _ = declarations (readers n) (ys.length + 1) sts.reverse (Cursor.front k' ys stop) :=
      declarations_steady (steady_readers n) _ _ _ _ _ halike
        (Nat.lt_succ_of_le (show ys.length ≤ fuel by omega)) (Nat.lt_succ_self _)
    _ = _ := by
      rw [declarations_done, List.reverse_reverse]
      rfl

/-- Whatever the serial of the first reference, the issues are the same, and up to serials the
statements are. -/
theorem read_unnumbered (n k k' : Nat) (ts : List Token) (stop : Token) :
    Relabeling.unnumbered.stmts (read n k ts stop).statements =
        Relabeling.unnumbered.stmts (read n k' ts stop).statements ∧
      (read n k ts stop).issues = (read n k' ts stop).issues := by
  have hzero : ∀ d, Relabeling.unnumbered.stmts (read n d ts stop).statements =
        Relabeling.unnumbered.stmts (read n 0 ts stop).statements ∧
      (read n d ts stop).issues = (read n 0 ts stop).issues := by
    intro d
    have hshifted := read_shifted n 0 d ts stop
    rw [Nat.zero_add] at hshifted
    rw [hshifted]
    exact ⟨Relabeling.stmts_keeping _ _ _, rfl⟩
  exact ⟨(hzero k).1.trans (hzero k').1.symm, (hzero k).2.trans (hzero k').2.symm⟩

/-- Tokens of which none marks the end stand in front of where the others are cut. -/
theorem split?_behind {xs ys : List Token} (hxs : ∀ t ∈ xs, t.kind ≠ .endOfText)
    (hys : ys.getLast?.any fun t => t.kind == .endOfText) :
    ∃ front stop, split? ys = some (front, stop) ∧ front <+: ys ∧
      split? (xs ++ ys) = some (xs ++ front, stop) := by
  have hnone : ∀ t ∈ xs, (t.kind == .endOfText) = false := fun t ht => by simp [hxs t ht]
  obtain ⟨last, hlast, hend⟩ := (Option.any_eq_true _ _).1 hys
  obtain ⟨stop, hstop⟩ : ∃ stop, ys.find? (fun t => t.kind == .endOfText) = some stop :=
    Option.isSome_iff_exists.1
      (List.find?_isSome.2 ⟨last, List.mem_of_getLast? hlast, hend⟩)
  have hfind : xs.find? (fun t => t.kind == .endOfText) = none :=
    List.find?_eq_none.2 fun t ht => by simp [hxs t ht]
  refine ⟨ys.takeWhile fun t => !(t.kind == .endOfText), stop, ?_, List.takeWhile_prefix _, ?_⟩
  · simp only [split?, hys, hstop, if_true, Option.map_some]
  · have hys' : (xs ++ ys).getLast?.any fun t => t.kind == .endOfText := by
      rw [List.getLast?_append, hlast]
      exact hend
    simp only [split?, hys', if_true, List.find?_append, hfind, hstop, Option.none_or,
      Option.map_some]
    rw [List.takeWhile_append_of_pos fun t ht => by simp [hnone t ht]]

/-- **What was read without an issue is immune to what comes behind it.** The first text is read up
to its end without an issue; the second does not begin with an `else`, and may have any number of
issues. Read as one, they have the statements of both, up to serials, and the issues of the second.
-/
theorem ofTokens?_append (n k k₁ k₂ : Nat) (xs ys : List Token) (last : Token)
    (hxs : ∀ t ∈ xs, t.kind ≠ .endOfText) (hlast : last.kind = .endOfText)
    (hys : ys.getLast?.any fun t => t.kind == .endOfText) (helse : NoElse ys) :
    ∃ p q r, ofTokens? n k₁ (xs ++ [last]) = some p ∧ ofTokens? n k₂ ys = some q ∧
      ofTokens? n k (xs ++ ys) = some r ∧
      (p.issues = #[] →
        Relabeling.unnumbered.stmts r.statements =
            Relabeling.unnumbered.stmts p.statements ++ Relabeling.unnumbered.stmts q.statements ∧
          r.issues = q.issues) := by
  obtain ⟨front, stop, hsplit, hfront, hboth⟩ := split?_behind hxs hys
  have hfirst : split? (xs ++ [last]) = some (xs, last) := by
    have hend : [last].getLast?.any fun t => t.kind == .endOfText := by simp [hlast]
    obtain ⟨none', last', hnone, -, hxs'⟩ := split?_behind hxs hend
    have hsingle : split? [last] = some ([], last) := by simp [split?, hlast]
    obtain ⟨rfl, rfl⟩ := Prod.mk.inj (Option.some.inj (hnone.symm.trans hsingle))
    rwa [List.append_nil] at hxs'
  refine ⟨read n k₁ xs last, read n k₂ front stop, read n k (xs ++ front) stop,
    by rw [ofTokens?, hfirst]; rfl, by rw [ofTokens?, hsplit]; rfl, by rw [ofTokens?, hboth]; rfl,
    fun hclean => ?_⟩
  have hclean' := (read_unnumbered n k k₁ xs last).2.trans hclean
  have hnoElse : NoElse front := by
    intro t ht
    cases front with
    | nil => cases ht
    | cons u front =>
      obtain ⟨more, rfl⟩ := hfront
      exact helse t ht
  rw [read_append stop hclean' hnoElse]
  refine ⟨?_, (read_unnumbered n _ k₂ front stop).2⟩
  rw [Relabeling.stmts_append, (read_unnumbered n k k₁ xs last).1,
    (read_unnumbered n _ k₂ front stop).1]

/-- A branch without `else` ends the first text. The second has an issue in the first of its two
statements, which is left out. -/
theorem ofTokens?_append_branch :
    let first := Scan.ofText "if (a) b = a;"
    let second := Scan.ofText "print 1 +; print a;"
    let xs := first.tokens.toList
    let ys := second.tokens.toList ++ [second.stop]
    ∃ p q r, ofTokens? 12 3 (xs ++ [first.stop]) = some p ∧ ofTokens? 12 7 ys = some q ∧
      ofTokens? 12 0 (xs ++ ys) = some r ∧ p.statements.length = 1 ∧ q.issues.size = 1 ∧
      q.statements.length = 1 ∧ r.issues = q.issues ∧
      Relabeling.unnumbered.stmts r.statements =
        Relabeling.unnumbered.stmts p.statements ++ Relabeling.unnumbered.stmts q.statements := by
  intro first second xs ys
  have hxs : ∀ t ∈ xs, t.kind ≠ .endOfText := by decide +kernel
  have hys : ys.getLast?.any fun t => t.kind == .endOfText := by decide +kernel
  have helse : ∀ t ∈ ys.head?, t.kind ≠ .word .kwElse := by decide +kernel
  have hfirst : (ofTokens? 12 3 (xs ++ [first.stop])).any
      (fun p => p.issues.isEmpty && p.statements.length == 1) = true := by decide +kernel
  have hsecond : (ofTokens? 12 7 ys).any
      (fun q => q.issues.size == 1 && q.statements.length == 1) = true := by decide +kernel
  obtain ⟨p, q, r, hp, hq, hr, hjoin⟩ :=
    ofTokens?_append 12 0 3 7 xs ys first.stop hxs rfl hys helse
  rw [hp, Option.any_some, Bool.and_eq_true, Array.isEmpty_iff, beq_iff_eq] at hfirst
  rw [hq, Option.any_some, Bool.and_eq_true, beq_iff_eq, beq_iff_eq] at hsecond
  obtain ⟨hstatements, hissues⟩ := hjoin hfirst.1
  exact ⟨p, q, r, hp, hq, hr, hfirst.2, hsecond.1, hsecond.2, hissues, hstatements⟩

end Program

end Grammar

end Scriptlet

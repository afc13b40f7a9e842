import Mathlib.Order.Bounds.Basic
import Scriptlet.Proofs.Grammar.Blame
import Scriptlet.Token.Scan

/-!
# Recovery

A declaration that does not fit the grammar is skipped. The token at fault is the one that the last
issue is blamed on, and reading goes on at the first place behind it where a statement is likely to
begin (`declaration_resumes`): at a word that opens a statement, behind a semicolon, or at the end.

**The token at fault** is skipped whatever it is. So if it is itself a word that opens a statement,
the statement that it opens is lost, though it stands at a place where reading could go on.
-/

namespace Scriptlet.Grammar

/-- Reading may go on at this place if the token at fault stands at another one: at the end, at a
word that opens a statement, or behind a semicolon that is not further in front than the fault. -/
def Restarts (tokens : List Token) (fault p : Nat) : Prop :=
  (∀ t ∈ tokens[p]?, opensStatement t.kind = true) ∨
    fault < p ∧ ∃ t ∈ tokens[p - 1]?, t.kind = .mark .semicolon

variable {tokens : List Token} {fault p : Nat}

theorem head_drop {t : Token} {rest : List Token} (h : tokens.drop p = t :: rest) :
    tokens[p]? = some t ∧ tokens.drop (p + 1) = rest := by
  have hhead : (tokens.drop p)[0]? = some t := by rw [h]; rfl
  rw [List.getElem?_drop] at hhead
  exact ⟨hhead, by rw [← List.tail_drop, h, List.tail_cons]⟩

/-- Skipping stops at the first place, from this one on, where reading may go on. -/
theorem resumeAfter_least : ∀ (rest : List Token) (p : Nat) (skipped : Token),
    tokens.drop p = rest → fault < p → tokens[p - 1]? = some skipped →
    ∃ q, resumeAfter skipped rest = tokens.drop q ∧
      IsLeast {q | p ≤ q ∧ Restarts tokens fault q} q := by
  intro rest
  induction rest with
  | nil =>
    intro p skipped hdrop _ _
    have hend : tokens[p]? = none := List.getElem?_eq_none (List.drop_eq_nil_iff.1 hdrop)
    refine ⟨p, hdrop.symm, ⟨Nat.le_refl p, .inl ?_⟩, fun q hq => hq.1⟩
    rw [hend]
    exact nofun
  | cons t rest ih =>
    intro p skipped hdrop hfault hskipped
    obtain ⟨hp, hrest⟩ := head_drop hdrop
    unfold resumeAfter
    split
    · next hstop =>
      refine ⟨p, hdrop.symm, ⟨Nat.le_refl p, ?_⟩, fun q hq => hq.1⟩
      rcases Bool.or_eq_true_iff.1 hstop with hsemicolon | hopens
      · exact .inr ⟨hfault, skipped, hskipped, eq_of_beq hsemicolon⟩
      · left
        rw [hp]
        rintro _ ⟨⟩
        exact hopens
    · next hgo =>
      obtain ⟨q, heq, hq, hleast⟩ := ih (p + 1) t hrest (by omega) hp
      have hnot : ¬ Restarts tokens fault p := by
        rintro (hopens | ⟨-, u, hu, hsemicolon⟩)
        · exact hgo (Bool.or_eq_true_iff.2 (.inr (hopens t hp)))
        · obtain rfl := Option.some.inj (hskipped.symm.trans hu)
          exact hgo (Bool.or_eq_true_iff.2 (.inl (beq_iff_eq.2 hsemicolon)))
      refine ⟨q, heq, ⟨Nat.le_of_succ_le hq.1, hq.2⟩, fun q' hq' => ?_⟩
      refine hleast ⟨Nat.lt_of_le_of_ne hq'.1 ?_, hq'.2⟩
      rintro rfl
      exact hnot hq'.2

/-- Reading goes on at the first place from the fault on, but not at the fault itself, unless it is
at the end. -/
theorem resume_least (tokens : List Token) (fault : Nat) :
    ∃ p, resume (tokens.drop fault) = tokens.drop p ∧
      IsLeast {p | fault ≤ p ∧ (p = fault → tokens[p]? = none) ∧ Restarts tokens fault p} p := by
  cases hdrop : tokens.drop fault with
  | nil =>
    have hend : tokens[fault]? = none := List.getElem?_eq_none (List.drop_eq_nil_iff.1 hdrop)
    refine ⟨fault, hdrop.symm, ⟨Nat.le_refl _, fun _ => hend, .inl ?_⟩, fun q hq => hq.1⟩
    rw [hend]
    exact nofun
  | cons t rest =>
    obtain ⟨ht, hrest⟩ := head_drop hdrop
    obtain ⟨p, heq, hp, hleast⟩ := resumeAfter_least rest (fault + 1) t hrest
      (Nat.lt_succ_self fault) ht
    refine ⟨p, heq, ⟨Nat.le_of_succ_le hp.1, fun hsame => ?_, hp.2⟩, fun q hq => ?_⟩
    · exact absurd hp.1 (by omega)
    · refine hleast ⟨Nat.lt_of_le_of_ne hq.1 ?_, hq.2.2⟩
      rintro rfl
      cases ht.symm.trans (hq.2.1 rfl)

/-- **Where reading goes on.** Let a declaration, at any depth of nesting and anywhere in a list of
tokens, not fit the grammar. The last issue is blamed on the token at some place, and reading goes
on at the first place from there on where it may, but not at that token itself, unless this is the
end. So it is the first place of all if and only if the token at fault does not open a statement. -/
theorem declaration_resumes (depth : Nat) (tokens : List Token) (c c' : Cursor)
    (hc : c.rest <:+ tokens) (hmisfit : bareDeclaration (readers depth) c = .error .misfit c') :
    ∃ fault p, fault ≤ tokens.length ∧ c'.rest = tokens.drop fault ∧
      (∃ (issues : Array Issue) (cause : Issue.Cause),
        c'.issues = issues.push (.blame ((tokens[fault]?).getD c.stop) cause)) ∧
      (readers (depth + 1)).declaration c = .ok none { c' with rest := tokens.drop p } ∧
      IsLeast {p | fault ≤ p ∧ (p = fault → tokens[p]? = none) ∧ Restarts tokens fault p} p ∧
      (IsLeast {p | fault ≤ p ∧ Restarts tokens fault p} p ↔
        ∀ t ∈ tokens[fault]?, opensStatement t.kind = false) := by
  have hblames := blames_bareDeclaration (blames_readers tokens c.stop c.issues depth) c
    ⟨fun _ => .inl, hc, rfl⟩
  rw [hmisfit] at hblames
  obtain ⟨hwithin, hfaults⟩ := hblames
  obtain ⟨issues, cause, hissues⟩ := hfaults rfl
  obtain ⟨fault, hle, hrest, hnext⟩ := hwithin.drop
  obtain ⟨p, hresume, hp, hleast⟩ := resume_least tokens fault
  refine ⟨fault, p, hle, hrest, ⟨issues, cause, hnext ▸ hissues⟩, ?_, ⟨hp, hleast⟩, ?_, ?_⟩
  · show declaration (readers depth) c = _
    unfold declaration
    rw [hmisfit, ← hresume, ← hrest]
  · intro hfirst t ht
    refine Bool.eq_false_iff.2 fun hopens => ?_
    have hhere : Restarts tokens fault fault := .inl fun u hu => by
      obtain rfl := Option.some.inj (ht.symm.trans hu)
      exact hopens
    have hsame : p = fault := Nat.le_antisymm (hfirst.2 ⟨Nat.le_refl _, hhere⟩) hp.1
    cases (hsame ▸ hp.2.1 hsame).symm.trans ht
  · intro hplain
    refine ⟨⟨hp.1, hp.2.2⟩, fun q hq => hleast ⟨hq.1, ?_, hq.2⟩⟩
    rintro rfl
    cases ht : tokens[q]? with
    | none => rfl
    | some t =>
      rcases hq.2 with hopens | ⟨hlt, -⟩
      · have hfalse := (hopens t ht).symm.trans (hplain t ht)
        cases hfalse
      · exact absurd hlt (Nat.lt_irrefl q)

/-! ## Texts -/

/-- The cursor in front of the tokens of a text. -/
def Cursor.ofText (text : String) : Cursor :=
  .front 0 (Scan.ofText text).tokens.toList (Scan.ofText text).stop

/-- What is ahead of a reader that its tokens do not fit. -/
def Reader.faultyRest? {α : Type} (r : Reader α) (c : Cursor) : Option (List Token) :=
  match r c with
  | .error .misfit c' => some c'.rest
  | _ => none

theorem Reader.of_faultyRest? {α : Type} {r : Reader α} {c : Cursor} {rest : List Token}
    (h : r.faultyRest? c = some rest) : ∃ c', r c = .error .misfit c' ∧ c'.rest = rest := by
  unfold Reader.faultyRest? at h
  split at h
  · next c' heq => exact ⟨c', heq, Option.some.inj h⟩
  · cases h

/-- The token at fault is no word: reading goes on behind the next semicolon. -/
theorem declaration_resumes_operand :
    let c := Cursor.ofText "print 1 +; print 2;"
    ∃ c' p, bareDeclaration (readers 8) c = .error .misfit c' ∧ c'.rest = c.rest.drop 3 ∧
      (readers 9).declaration c = .ok none { c' with rest := c.rest.drop p } ∧
      IsLeast {p | 3 ≤ p ∧ Restarts c.rest 3 p} p := by
  intro c
  have hfacts : (bareDeclaration (readers 8)).faultyRest? c = some (c.rest.drop 3) ∧
      c.rest.length = 7 ∧ ∀ t ∈ c.rest[3]?, opensStatement t.kind = false := by decide +kernel
  obtain ⟨hfaulty, hlength, hplain⟩ := hfacts
  obtain ⟨c', hmisfit, hrest⟩ := Reader.of_faultyRest? hfaulty
  obtain ⟨fault, p, hle, hdrop, -, hdeclaration, -, hfirst⟩ :=
    declaration_resumes 8 c.rest c c' List.suffix_rfl hmisfit
  obtain rfl : fault = 3 := by
    have hsame := congrArg List.length (hdrop.symm.trans hrest)
    rw [List.length_drop, List.length_drop] at hsame
    omega
  exact ⟨c', p, hmisfit, hrest, hdeclaration, hfirst.2 hplain⟩

/-- A semicolon is missing in front of a word that opens a statement. Reading could go on at this
word, but goes on three tokens behind it, and one statement is left of three. -/
theorem declaration_skips_word :
    let c := Cursor.ofText "print 1 print 2; print 3;"
    (∃ c', bareDeclaration (readers 8) c = .error .misfit c' ∧ c'.rest = c.rest.drop 2 ∧
      (readers 9).declaration c = .ok none { c' with rest := c.rest.drop 5 }) ∧
    IsLeast {p | 2 ≤ p ∧ Restarts c.rest 2 p} 2 ∧
    (Program.read maxDepth 0 c.rest c.stop).statements.length = 1 := by
  intro c
  have hfacts : (bareDeclaration (readers 8)).faultyRest? c = some (c.rest.drop 2) ∧
      resume (c.rest.drop 2) = c.rest.drop 5 ∧ (∀ t ∈ c.rest[2]?, opensStatement t.kind = true) ∧
      (Program.read maxDepth 0 c.rest c.stop).statements.length = 1 := by decide +kernel
  obtain ⟨hfaulty, hresume, hopens, hleft⟩ := hfacts
  obtain ⟨c', hmisfit, hrest⟩ := Reader.of_faultyRest? hfaulty
  refine ⟨⟨c', hmisfit, hrest, ?_⟩, ⟨⟨Nat.le_refl 2, .inl hopens⟩, fun q hq => hq.1⟩, hleft⟩
  show declaration (readers 8) c = _
  unfold declaration
  rw [hmisfit, ← hresume, ← hrest]

end Scriptlet.Grammar

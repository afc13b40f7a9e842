import Scriptlet.Proofs.Grammar.Completeness

/-!
# Programs are recognised exactly

Tokens are read without an issue just if they derive from a program, and what is read then is the
tree of the derivation, with its serials (`ofTokens?_exact`). So a list of tokens has one tree at
most, however it may derive.

The nesting of a derivation may be deeper than what can be read. Then, and only then, the nesting
is found too deep; so where it has not been, nothing has to be assumed of it.
-/

namespace Scriptlet.Grammar.Program

/-- The tokens before the first one that marks the end. -/
def front (tokens : List Token) : List Token := tokens.takeWhile fun t => !(t.kind == .endOfText)

theorem split?_append (tokens : List Token) {last : Token} (h : last.kind = .endOfText) :
    ∃ stop, split? (tokens ++ [last]) = some (front tokens, stop) := by
  have hlast : (last.kind == .endOfText) = true := by rw [h]; rfl
  have hany : (tokens ++ [last]).getLast?.any (fun t => t.kind == .endOfText) = true := by
    rw [List.getLast?_concat]
    exact hlast
  obtain ⟨stop, hstop⟩ : ∃ stop,
      (tokens ++ [last]).find? (fun t => t.kind == .endOfText) = some stop := by
    refine Option.isSome_iff_exists.1 (List.find?_isSome.2 ⟨last, ?_, hlast⟩)
    exact List.mem_append_right _ (List.mem_singleton_self last)
  refine ⟨stop, ?_⟩
  show (if (tokens ++ [last]).getLast?.any (fun t => t.kind == .endOfText) then _ else _) = _
  rw [if_pos hany, hstop, Option.map_some, List.takeWhile_append]
  congr 2
  split
  · next hall =>
    rw [List.takeWhile_cons_of_neg (by simp [hlast]), List.append_nil]
    exact ((List.takeWhile_prefix _).eq_of_length hall).symm
  · rfl

/-- **Programs are recognised exactly.** Reading up to the first token that marks the end enters
no issue just if the tokens before it derive from a program, and it builds the one tree that they
derive. With `n` levels the nesting of the derivation must not be deeper than that; if it has not
been found too deep, any derivation counts. -/
theorem ofTokens?_exact (n serial : Nat) (tokens : List Token) (last : Token)
    (hlast : last.kind = .endOfText) :
    ∃ program, ofTokens? n serial (tokens ++ [last]) = some program ∧
      (program.issues = #[] ↔ ∃ sts k', Declarations n serial (front tokens) sts k') ∧
      ((∀ i ∈ program.issues, i.cause ≠ .tooDeep) →
        (program.issues = #[] ↔ ∃ m sts k', Declarations m serial (front tokens) sts k') ∧
        ∀ m sts k', Declarations m serial (front tokens) sts k' →
          program.statements = sts ∧ program.serial = k') := by
  obtain ⟨stop, hsplit⟩ := split?_append tokens hlast
  have hsound := read_sound n serial (front tokens) stop
  have hcomplete : ∀ {m sts k'}, Declarations m serial (front tokens) sts k' → _ :=
    fun h => read_complete n stop h
  refine ⟨read n serial (front tokens) stop, by rw [ofTokens?, hsplit]; rfl, ?_, fun hdeep => ?_⟩
  · refine ⟨fun h => ⟨_, _, hsound h⟩, ?_⟩
    rintro ⟨sts, k', h⟩
    rcases hcomplete h with heq | ⟨hlt, -⟩
    · rw [heq]
    · exact absurd hlt (Nat.lt_irrefl n)
  · have hread : ∀ {m sts k'}, Declarations m serial (front tokens) sts k' →
        read n serial (front tokens) stop = ⟨sts, #[], k'⟩ := by
      intro m sts k' h
      rcases hcomplete h with heq | ⟨-, i, hi, hc⟩
      · exact heq
      · exact absurd hc (hdeep i hi)
    refine ⟨⟨fun h => ⟨n, _, _, hsound h⟩, ?_⟩, ?_⟩
    · rintro ⟨m, sts, k', h⟩
      rw [hread h]
    · intro m sts k' h
      rw [hread h]
      exact ⟨rfl, rfl⟩

/-- The tokens of `if (a) if (b) c; else d;`. -/
def danglingElse : List Token :=
  let mark (m : Mark) : Token := ⟨.mark m, m.text, .nil, 1, 0⟩
  let word (w : Word) : Token := ⟨.word w, w.text, .nil, 1, 0⟩
  let name (x : String) : Token := ⟨.name, x, .nil, 1, 0⟩
  [word .kwIf, mark .leftParen, name "a", mark .rightParen,
   word .kwIf, mark .leftParen, name "b", mark .rightParen,
   name "c", mark .semicolon, word .kwElse, name "d", mark .semicolon]

/-- Whether a program is one branch with another for its first part, and the `else` is that of
the second. -/
def elseInside : List Stmt → Bool
  | [.branch _ (.branch _ _ (some _)) none] => true
  | _ => false

/-- However `if (a) if (b) c; else d;` may derive, the `else` belongs to the second branch. -/
theorem ofTokens?_exact_danglingElse :
    (∃ sts k', Declarations 9 0 danglingElse sts k') ∧
      ∀ m sts k', Declarations m 0 danglingElse sts k' → elseInside sts = true := by
  have hrun : (ofTokens? 9 0 (danglingElse ++ [⟨.endOfText, "", .nil, 1, 0⟩])).any
      (fun p => p.issues.isEmpty && elseInside p.statements) = true := by decide +kernel
  obtain ⟨program, hread, hexact, hany⟩ :=
    ofTokens?_exact 9 0 danglingElse ⟨.endOfText, "", .nil, 1, 0⟩ rfl
  have hfront : front danglingElse = danglingElse := rfl
  rw [hfront] at hexact hany
  rw [hread, Option.any_some, Bool.and_eq_true, Array.isEmpty_iff] at hrun
  obtain ⟨hclean, helse⟩ := hrun
  refine ⟨hexact.1 hclean, fun m sts k' h => ?_⟩
  rw [hclean] at hany
  rw [← ((hany nofun).2 m sts k' h).1]
  exact helse

end Scriptlet.Grammar.Program

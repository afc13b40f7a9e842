import Mathlib.Data.List.Induction
import Scriptlet.Proofs.Token.Seam

/-!
# Texts in their places

A text that stands below others may be scanned by itself and still be in its place: with blanks
above it, as many as there are characters in the others, on as many lines (`Text.inPlace`). The
blanks say nothing, so its tokens are its own, moved to where they are below the others
(`Scan.ofText_inPlace`).
-/

namespace Scriptlet

/-! ## Blanks -/

namespace Text

/-- Blanks in the place of a text, on as many lines. -/
def blanked (text : String) : String :=
  String.ofList (text.toList.map fun c => if c = '\n' then '\n' else ' ')

/-- A text in its place below others: they are left blank. -/
def inPlace (above : List String) (text : String) : String :=
  "\n".intercalate (above.map blanked ++ [text])

/-- Texts in their places, one below the other and all below these. -/
def placed (above : List String) : List String → List String
  | [] => []
  | text :: rest => inPlace above text :: placed (above ++ [text]) rest

theorem placed_append (above texts more : List String) :
    placed above (texts ++ more) = placed above texts ++ placed (above ++ texts) more := by
  induction texts generalizing above with
  | nil => simp [placed]
  | cons text rest ih => simp [placed, ih]

theorem toList_blanked (text : String) :
    (blanked text).toList = text.toList.map fun c => if c = '\n' then '\n' else ' ' :=
  String.toList_ofList

theorem count_blanked (text : String) :
    (blanked text).toList.count '\n' = text.toList.count '\n' := by
  rw [toList_blanked, List.count, List.countP_map]
  refine List.countP_congr fun c _ => ?_
  by_cases hc : c = '\n' <;> simp [hc]

theorem length_blanked (text : String) : (blanked text).toList.length = text.toList.length := by
  rw [toList_blanked, List.length_map]

end Text

open Text

/-- Only the lines and the lengths of the texts above matter for where a token is. -/
theorem Token.below_blanked (above : List String) (t : Token) :
    t.below (above.map blanked) = t.below above := by
  induction above with
  | nil => rfl
  | cons text rest ih =>
    show (t.below (rest.map blanked)).moved _ _ = (t.below rest).moved _ _
    rw [ih, count_blanked, length_blanked]

namespace Token

theorem Rule.best_blank (rest : List Char) : (Rule.best (' ' :: rest)).1 = blanks := by
  have hspan : ∀ rule : Rule, rule.span (' ' :: rest) =
      if rule = blanks then run isGap rest + 1 else if rule = stray then 1 else 0 := by
    intro rule
    cases rule <;> rfl
  simp [best, all, longest, hspan]

/-- Blanks and line breaks say nothing. -/
theorem finding_of_blank {cs : List Char} (h : ∀ c ∈ cs, c = ' ' ∨ c = '\n') :
    ∀ p ∈ pieces cs, p.finding = .nothing := by
  induction hn : cs.length using Nat.strongRecOn generalizing cs with
  | _ n ih =>
    cases cs with
    | nil => simp
    | cons c rest =>
      have hpos := firstPiece_length_pos c rest
      have hlt : ((c :: rest).drop (firstPiece (c :: rest)).text.length).length < n := by
        simp only [List.length_drop, List.length_cons] at hn ⊢
        omega
      have hrest := ih _ hlt (fun c' hc' => h c' (List.mem_of_mem_drop hc')) rfl
      have hfirst : (firstPiece (c :: rest)).rule = (Rule.best (c :: rest)).1 := by
        simp only [firstPiece]
      rw [pieces_cons]
      refine List.forall_mem_cons.2 ⟨?_, hrest⟩
      unfold Piece.finding
      rw [hfirst]
      rcases h c List.mem_cons_self with rfl | rfl
      · rw [Rule.best_blank]
      · rw [Rule.best_lineBreak]

end Token

/-! ## Scans -/

namespace Scan

theorem foldl_read_nothing {ps : List Token.Piece} (h : ∀ p ∈ ps, p.finding = .nothing)
    (s : Scan) : (ps.foldl read s).tokens = s.tokens ∧ (ps.foldl read s).issues = s.issues := by
  induction ps generalizing s with
  | nil => exact ⟨rfl, rfl⟩
  | cons p ps ih =>
    obtain ⟨hp, hps⟩ := List.forall_mem_cons.1 h
    have hread : (s.read p).tokens = s.tokens ∧ (s.read p).issues = s.issues := by
      unfold read
      rw [hp]
      exact ⟨rfl, rfl⟩
    obtain ⟨htokens, hissues⟩ := ih hps (s.read p)
    exact ⟨htokens.trans hread.1, hissues.trans hread.2⟩

theorem ofText_blanked (text : String) :
    (ofText (blanked text)).tokens = #[] ∧ (ofText (blanked text)).issues = #[] := by
  refine foldl_read_nothing (Token.finding_of_blank fun c hc => ?_) start
  rw [toList_blanked, List.mem_map] at hc
  obtain ⟨c', -, rfl⟩ := hc
  split
  · exact .inr rfl
  · exact .inl rfl

theorem ofText_blanks (above : List String) :
    (ofText ("\n".intercalate (above.map blanked))).tokens = #[] ∧
      (ofText ("\n".intercalate (above.map blanked))).issues = #[] := by
  induction above using List.reverseRecOn with
  | nil =>
    rw [List.map_nil, ofText_nil]
    exact ⟨rfl, rfl⟩
  | append_singleton above text ih =>
    obtain ⟨htokens, hissues⟩ := ofText_blanked text
    obtain ⟨hissues', htokens'⟩ := ofText_join ih.2 hissues
    rw [ih.1, htokens, Array.map_empty, Array.empty_append] at htokens'
    rw [List.map_append, List.map_singleton]
    exact ⟨htokens', hissues'⟩

/-- **A text in its place** has the tokens that it has by itself, moved below the others. -/
theorem ofText_inPlace (above : List String) {text : String} (h : (ofText text).issues = #[]) :
    (ofText (inPlace above text)).issues = #[] ∧
      (ofText (inPlace above text)).tokens = (ofText text).tokens.map (Token.below above) := by
  obtain ⟨htokens, hissues⟩ := ofText_blanks above
  obtain ⟨hissues', htokens'⟩ := ofText_join hissues h
  have hbelow : Token.below (above.map blanked) = Token.below above :=
    funext (Token.below_blanked above)
  rw [htokens, Array.empty_append, hbelow] at htokens'
  exact ⟨hissues', htokens'⟩

end Scan

end Scriptlet

import Scriptlet.Proofs.Token.Lines

/-!
# Counting lines

A scan counts lines as it goes on behind its pieces. **At every cut between two pieces the count is
one more than there are line breaks before the cut** (`Scan.lines_counted`). Each line break is a
piece by itself or stands in a string, whether this is closed or not; comments, blanks and stray
characters have none.

So a token is on the line on which it ends, and the one that marks the end is on the last line of
the text. The count never goes back, and no token is on a line that it has not come to
(`Scan.InOrder`); hence the lines of the tokens do not decrease.
-/

namespace Scriptlet

open Text (EndsOn lineAt)

namespace Scan

open Token (Cuts Piece)

variable {text : String} {s : Scan} {p : Piece}

/-! ## Tokens in order -/

/-- The lines of the tokens do not decrease, none of them is behind the line that the scan has come
to, and no token marks the end. -/
structure InOrder (s : Scan) : Prop where
  sorted : (s.tokens.toList.map Token.line).Pairwise (· ≤ ·)
  reached : ∀ t ∈ s.tokens, t.line ≤ s.line
  inside : ∀ t ∈ s.tokens, t.kind ≠ .endOfText

theorem inOrder_start : start.InOrder :=
  ⟨.nil, fun _ ht => absurd ht (Array.not_mem_empty _),
    fun _ ht => absurd ht (Array.not_mem_empty _)⟩

/-- A token behind those of a scan, on the line that it has come to or a later one. -/
theorem InOrder.sorted_push (h : s.InOrder) {t : Token} (ht : s.line ≤ t.line) :
    ((s.tokens.push t).toList.map Token.line).Pairwise (· ≤ ·) := by
  rw [Array.toList_push, List.map_append, List.pairwise_append]
  refine ⟨h.sorted, List.pairwise_singleton _ _, fun line hline last hlast => ?_⟩
  obtain ⟨t', ht', rfl⟩ := List.mem_map.1 hline
  obtain rfl := List.mem_singleton.1 hlast
  exact Nat.le_trans (h.reached t' (Array.mem_toList_iff.1 ht')) ht

/-- No piece is cut that stands for the token of the end. -/
theorem kind_ne_endOfText {kind : Kind} {literal : Literal}
    (h : p.finding = .token kind literal) : kind ≠ .endOfText := by
  unfold Piece.finding Token.markKind Token.wordKind at h
  rintro rfl
  repeat' split at h
  all_goals cases h

theorem InOrder.read (h : s.InOrder) (p : Piece) : (s.read p).InOrder := by
  have hon : s.line ≤ s.line + p.text.count '\n' := Nat.le_add_right ..
  have hreached : ∀ t ∈ s.tokens, t.line ≤ s.line + p.text.count '\n' := fun t ht =>
    Nat.le_trans (h.reached t ht) hon
  unfold Scan.read
  cases hfinding : p.finding with
  | nothing | issue _ => exact ⟨h.sorted, hreached, h.inside⟩
  | token kind literal =>
    refine ⟨h.sorted_push hon, fun t ht => ?_, fun t ht => ?_⟩
    · rcases Array.mem_push.1 ht with ht | rfl
      · exact hreached t ht
      · exact Nat.le_refl _
    · rcases Array.mem_push.1 ht with ht | rfl
      · exact h.inside t ht
      · exact kind_ne_endOfText hfinding

theorem inOrder_ofText (text : String) : (ofText text).InOrder := by
  have hfold : ∀ (ps : List Piece) (s : Scan), s.InOrder → (ps.foldl Scan.read s).InOrder := by
    intro ps
    induction ps with
    | nil => exact fun _ h => h
    | cons p ps ih => exact fun s h => ih (s.read p) (h.read p)
  exact hfold _ _ inOrder_start

/-! ## The count -/

/-- The issue of a stray character is on the line of this character, and that of a string that is
not closed is on the last line of the text. -/
theorem line_of_issue {i : Issue} (hi : i ∈ (ofText text).issues) :
    (i.cause = .strayCharacter ∧ i.line = lineAt text i.offset ∧
        ∃ c, c ≠ '\n' ∧ text.toList[i.offset]? = some c) ∨
      (i.cause = .unterminatedString ∧ i.line = 1 + text.toList.count '\n') := by
  obtain ⟨stretch, hspots, hends⟩ := spots_issues text i hi
  cases hspots with
  | @character line offset c hc =>
    change EndsOn text line offset [c] at hends
    refine .inl ⟨rfl, hends.line_eq_iff.2 (List.mem_singleton.not.2 hc.symm), c, hc, ?_⟩
    obtain ⟨rest, hrest⟩ := hends.front
    have hhead := List.head?_drop (l := text.toList) (i := offset)
    rw [← hrest] at hhead
    exact hhead.symm
  | @unclosed line offset =>
    change EndsOn text line offset (text.toList.drop offset) at hends
    have hall : text.toList.length ≤ offset + (text.toList.drop offset).length := by
      rw [List.length_drop]
      omega
    refine .inr ⟨rfl, hends.line.trans ?_⟩
    unfold lineAt
    rw [List.take_of_length_le hall]

/-- **Lines are counted.** At every cut between two pieces of a text the count is one more than
there are line breaks before it, and a piece with a line break in it is a string or nothing but this
line break. So every token is on the line that its lexeme ends on. One marks the end, the last of
them, at the end of the text and on its last line. A stray character is told on its own line, and a
string that is not closed on the last one. From token to token lines do not decrease. -/
theorem lines_counted (text : String) :
    (∀ front back, Token.pieces text.toList = front ++ back →
      let s := front.foldl read start
      s.offset = (front.map Piece.text).flatten.length ∧ s.line = lineAt text s.offset) ∧
    (∀ p ∈ Token.pieces text.toList, '\n' ∈ p.text →
      p = ⟨.lineBreak, ['\n']⟩ ∨ p.rule = .closedString ∨ p.rule = .openString) ∧
    (∀ t ∈ (ofText text).listing, EndsOn text t.line t.offset t.lexeme.toList) ∧
    ((ofText text).listing = (ofText text).tokens.push
        ⟨.endOfText, "", .nil, 1 + text.toList.count '\n', text.length⟩ ∧
      ∀ t ∈ (ofText text).tokens, t.kind ≠ .endOfText) ∧
    (∀ i ∈ (ofText text).issues,
      (i.cause = .strayCharacter ∧ i.line = lineAt text i.offset ∧
          ∃ c, c ≠ '\n' ∧ text.toList[i.offset]? = some c) ∨
        (i.cause = .unterminatedString ∧ i.line = 1 + text.toList.count '\n')) ∧
    ((ofText text).listing.toList.map Token.line).Pairwise (· ≤ ·) := by
  have hcuts : Cuts text.toList (Token.pieces text.toList) := Token.cuts_iff.2 rfl
  have horder := inOrder_ofText text
  refine ⟨fun front back heq => ?_, fun p hp hbreak => ?_, fun t ht => ?_, ⟨?_, horder.inside⟩,
    fun i => line_of_issue, horder.sorted_push (Nat.le_refl _)⟩
  · rw [heq] at hcuts
    refine ⟨?_, ((along_start text).foldl hcuts).line⟩
    rw [(foldl_read_place front start).2]
    exact Nat.zero_add _
  · obtain ⟨front, back, heq⟩ := List.append_of_mem hp
    rw [heq] at hcuts
    exact hcuts.left.head.1.lineBreak_cases hbreak
  · exact (stands_listing text t ht).ends
  · unfold listing stop
    rw [(ofText_place text).1, (ofText_place text).2, String.length_toList]

/-- The line break behind a comment is counted, the one in the string is, and so is the one in the
string that is not closed. -/
example : (ofText "a // b\n\"\n\" @ \"\n").listing.toList.map Token.line = [1, 3, 4] := by
  decide +kernel

end Scan

end Scriptlet

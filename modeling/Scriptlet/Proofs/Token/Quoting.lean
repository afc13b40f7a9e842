import Scriptlet.Proofs.Token.Munch

/-!
# Every text can be written as a string

**Theorem (`Scan.ofText_quoted`).** Put a backslash before each quote and each backslash of a text,
and quotes around it. This is scanned as one string, which means the text.

A literal is read twice. First it is cut: a backslash takes the character behind it along, and the
first quote that is not taken so ends the string. Then what is between the quotes is decoded, by a
table of escapes of its own. So the two must pair the same backslashes with the same characters:

* what is written between the quotes is a body (`Escape.encode_mem_body`), so no quote in it ends
  the string, and
* its decoding is the text (`Escape.decode_encode`).

Both are proved character by character. A backslash that is written stands before a quote or a
backslash and never before a letter, so no other escape comes about.
-/

namespace Scriptlet

namespace Token

namespace Escape

/-- A text with a backslash before each quote and each backslash. -/
def encode (cs : List Char) : List Char :=
  cs.flatMap fun c => if c = '"' ∨ c = '\\' then ['\\', c] else [c]

/-- A text as a string literal. -/
def quoted (text : String) : String := String.ofList ('"' :: (encode text.toList ++ ['"']))

variable {c : Char} (cs : List Char)

theorem encode_cons_escaped (h : c = '"' ∨ c = '\\') :
    encode (c :: cs) = '\\' :: c :: encode cs := by
  simp only [encode, List.flatMap_cons, h, if_true, List.cons_append, List.nil_append]

theorem encode_cons_plain (h : ¬(c = '"' ∨ c = '\\')) : encode (c :: cs) = c :: encode cs := by
  simp only [encode, List.flatMap_cons, h, if_false, List.cons_append, List.nil_append]

/-- **What is encoded is decoded to what it was.** -/
theorem decode_encode : decode (encode cs) = cs := by
  induction cs with
  | nil => rfl
  | cons c cs ih =>
    by_cases h : c = '"' ∨ c = '\\'
    · rw [encode_cons_escaped cs h, decode, meaning?, if_pos h, ih]
    · have hslash : c ≠ '\\' := fun hc => h (.inr hc)
      rw [encode_cons_plain cs h]
      simp [decode, hslash, ih]

/-- **No quote in what is encoded ends a string**, and no backslash takes the last quote along. -/
theorem encode_mem_body : encode cs ∈ Rule.body := by
  induction cs with
  | nil => exact Rule.nil_mem_body
  | cons c cs ih =>
    by_cases h : c = '"' ∨ c = '\\'
    · rw [encode_cons_escaped cs h]
      exact Rule.escape_mem_body c ih
    · rw [encode_cons_plain cs h]
      rw [not_or] at h
      exact Rule.plain_mem_body h.1 h.2 ih

/-- Line breaks are written as they are. -/
theorem count_encode : (encode cs).count '\n' = cs.count '\n' := by
  induction cs with
  | nil => rfl
  | cons c cs ih =>
    by_cases h : c = '"' ∨ c = '\\'
    · have hc : c ≠ '\n' := by rcases h with rfl | rfl <;> decide
      rw [encode_cons_escaped cs h, List.count_cons_of_ne (by decide), List.count_cons_of_ne hc,
        List.count_cons_of_ne hc, ih]
    · rw [encode_cons_plain cs h, List.count_cons, List.count_cons, ih]

end Escape

/-! ## Cutting -/

/-- No rule before those of strings matches what begins with a quote. -/
theorem Rule.rank_of_quote {rule : Rule} {w : List Char} (h : '"' :: w ∈ rule.pattern) :
    closedString.rank ≤ rule.rank := by
  have hspan := length_le_span h List.prefix_rfl
  cases rule with
  | closedString | openString | stray => decide
  | _ => exact absurd hspan (Nat.not_succ_le_zero _)

/-- What matches a rule and none before it is cut as one piece, if nothing is behind it. -/
theorem Piece.munches_alone {p : Piece} (hne : p.text ≠ []) (hmatched : p.text ∈ p.rule.pattern)
    (hearliest : ∀ rule : Rule, p.text ∈ rule.pattern → p.rule.rank ≤ rule.rank) :
    p.Munches p.text :=
  ⟨List.prefix_rfl, hne, hmatched, fun _ _ _ hfront => hfront.length_le, hearliest⟩

/-- A literal is one piece. -/
theorem pieces_quoted (text : String) :
    pieces (Escape.quoted text).toList = [⟨.closedString, (Escape.quoted text).toList⟩] := by
  have htext : (Escape.quoted text).toList = '"' :: (Escape.encode text.toList ++ ['"']) :=
    String.toList_ofList
  rw [htext]
  have hpiece : (⟨.closedString, '"' :: (Escape.encode text.toList ++ ['"'])⟩ : Piece).Munches
      ('"' :: (Escape.encode text.toList ++ ['"'])) :=
    Piece.munches_alone (List.cons_ne_nil _ _)
      (Rule.mem_closedString.2 ⟨_, Escape.encode_mem_body text.toList, rfl⟩)
      fun _ => Rule.rank_of_quote
  refine (cuts_iff.1 (.cons hpiece ?_)).symm
  rw [List.drop_length]
  exact .nil

end Token

namespace Scan

open Token (Escape.quoted)

/-- **Every text can be written as a string.** Its literal is scanned without an issue, as one token
from the first character to the last. The token means the text, and is on the line that the text
ends on. -/
theorem ofText_quoted (text : String) :
    let line := 1 + text.toList.count '\n'
    (ofText (Escape.quoted text)).issues = #[] ∧
      (ofText (Escape.quoted text)).listing =
        #[⟨.string, Escape.quoted text, .string text, line, 0⟩,
          ⟨.endOfText, "", .nil, line, (Escape.quoted text).length⟩] := by
  have hcount : (Escape.quoted text).toList.count '\n' = text.toList.count '\n' := by
    simp [Escape.quoted, Token.Escape.count_encode]
  have hinner : Token.Escape.decode (Escape.quoted text).toList.tail.dropLast = text.toList := by
    simp [Escape.quoted, Token.Escape.decode_encode]
  have hscan : ofText (Escape.quoted text) =
      start.read ⟨.closedString, (Escape.quoted text).toList⟩ := by
    unfold ofText
    rw [Token.pieces_quoted]
    rfl
  rw [hscan]
  simp [read, Token.Piece.finding, hcount, hinner, start, listing, stop, String.length_toList]

/-- Backslashes before a quote, before a letter and at the end, and a line break. -/
example : (ofText (Escape.quoted "\\\"\\n\n\\")).tokens.toList.map Token.literal =
    [.string "\\\"\\n\n\\"] := by decide +kernel

end Scan

end Scriptlet

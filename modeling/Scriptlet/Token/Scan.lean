import Scriptlet.Complaint
import Scriptlet.Decimal.Reading
import Scriptlet.Token.Escape
import Scriptlet.Token.Rule

/-!
# From text to tokens

First the text is cut into pieces, each by the rule that applies where the last piece ended; the
pieces put together are the text (`flatten_pieces`). Then the pieces are read in order: some stand
for a token, some for an issue, and blanks and comments for nothing.

**Lines.** A piece is on the line that it ends on. Only strings reach over several lines, so for
every other piece this is also the line that it starts on.
-/

namespace Scriptlet

namespace Token

/-! ## Pieces -/

/-- A stretch of text and the rule that cut it. -/
structure Piece where
  rule : Rule
  text : List Char
deriving DecidableEq, Repr

/-- The piece at the front of a text. -/
def firstPiece (cs : List Char) : Piece :=
  let (rule, n) := Rule.best cs
  ⟨rule, cs.take n⟩

/-- Where text remains, the piece at its front is not empty. -/
theorem firstPiece_length_pos (c : Char) (rest : List Char) :
    0 < (firstPiece (c :: rest)).text.length := by
  have := Rule.best_pos c rest
  simp only [firstPiece, List.length_take, List.length_cons]
  omega

/-- Cuts the text behind pieces that stand in reverse. -/
def piecesOnto (done : List Piece) : List Char → List Piece
  | [] => done.reverse
  | c :: rest =>
    let piece := firstPiece (c :: rest)
    piecesOnto (piece :: done) ((c :: rest).drop piece.text.length)
termination_by cs => cs.length
decreasing_by
  have := firstPiece_length_pos c rest
  simp only [List.length_drop, List.length_cons]
  omega

/-- The pieces of a text, in order. -/
def pieces (cs : List Char) : List Piece := piecesOnto [] cs

theorem piecesOnto_eq (done : List Piece) (cs : List Char) :
    piecesOnto done cs = done.reverse ++ piecesOnto [] cs := by
  induction hn : cs.length using Nat.strongRecOn generalizing done cs with
  | _ n ih =>
    cases cs with
    | nil => simp [piecesOnto]
    | cons c rest =>
      have hpos := firstPiece_length_pos c rest
      have hlt : ((c :: rest).drop (firstPiece (c :: rest)).text.length).length < n := by
        simp only [List.length_drop, List.length_cons] at hn ⊢
        omega
      rw [piecesOnto, piecesOnto, ih _ hlt _ _ rfl, ih _ hlt [_] _ rfl]
      simp

@[simp] theorem pieces_nil : pieces [] = [] := by simp [pieces, piecesOnto]

/-- The piece at the front, and then the pieces of what is left. -/
theorem pieces_cons (c : Char) (rest : List Char) :
    pieces (c :: rest) =
      firstPiece (c :: rest) ::
        pieces ((c :: rest).drop (firstPiece (c :: rest)).text.length) := by
  rw [pieces, piecesOnto, piecesOnto_eq]
  rfl

theorem firstPiece_append_drop (cs : List Char) :
    (firstPiece cs).text ++ cs.drop (firstPiece cs).text.length = cs := by
  simp only [firstPiece, List.length_take]
  rcases Nat.le_total (Rule.best cs).2 cs.length with h | h
  · rw [Nat.min_eq_left h, List.take_append_drop]
  · simp [Nat.min_eq_right h, List.take_of_length_le h]

/-- Nothing of the text is lost, and nothing is added. -/
theorem flatten_pieces (cs : List Char) : ((pieces cs).map Piece.text).flatten = cs := by
  induction hn : cs.length using Nat.strongRecOn generalizing cs with
  | _ n ih =>
    cases cs with
    | nil => simp
    | cons c rest =>
      have hpos := firstPiece_length_pos c rest
      have hlt : ((c :: rest).drop (firstPiece (c :: rest)).text.length).length < n := by
        simp only [List.length_drop, List.length_cons] at hn ⊢
        omega
      rw [pieces_cons, List.map_cons, List.flatten_cons, ih _ hlt _ rfl, firstPiece_append_drop]

/-! ## What a piece stands for -/

/-- The values of ASCII digits. -/
def digitValues (cs : List Char) : List Nat := cs.map fun c => c.toNat - '0'.toNat

/-- The number that digits with an optional fraction stand for. -/
def numberValue (cs : List Char) : Float :=
  let fraction := (cs.dropWhile Char.isDigit).drop 1
  Decimal.ofDigits (digitValues (cs.takeWhile Char.isDigit)) (digitValues fraction) 0

/-- The kind of a mark. -/
def markKind (lexeme : String) : Kind :=
  match Mark.ofText? lexeme with
  | some m => .mark m
  | none => .other lexeme

/-- The kind of a word: reserved, or a name. -/
def wordKind (lexeme : String) : Kind :=
  match Word.ofText? lexeme with
  | some w => .word w
  | none => .name

/-- What a piece stands for. -/
inductive Finding where
  | nothing
  | token (kind : Kind) (literal : Literal)
  | issue (cause : Issue.Cause)

/-- What a piece stands for. -/
def Piece.finding (p : Piece) : Finding :=
  match p.rule with
  | .blanks | .comment | .lineBreak => .nothing
  | .punctuation | .relation => .token (markKind (String.ofList p.text)) .nil
  | .number => .token .number (.number (numberValue p.text))
  | .word => .token (wordKind (String.ofList p.text)) .nil
  | .closedString =>
    .token .string (.string (String.ofList (Escape.decode (p.text.drop 1).dropLast)))
  | .openString => .issue .unterminatedString
  | .stray => .issue .strayCharacter

end Token

/-! ## Reading the pieces in order -/

/-- What has been found in a text up to some place: the line and the offset of this place, and the
tokens and issues before it. -/
structure Scan where
  line : Nat
  offset : Nat
  tokens : Array Token
  issues : Array Issue

namespace Scan

/-- The front of a text. -/
def start : Scan := ⟨1, 0, #[], #[]⟩

/-- Goes on behind the next piece. -/
def read (s : Scan) (p : Token.Piece) : Scan :=
  let line := s.line + p.text.count '\n'
  let offset := s.offset + p.text.length
  match p.finding with
  | .nothing => { s with line, offset }
  | .token kind literal =>
    let token := ⟨kind, String.ofList p.text, literal, line, s.offset⟩
    { s with line, offset, tokens := s.tokens.push token }
  | .issue cause =>
    { s with line, offset, issues := s.issues.push (.spot line s.offset cause) }

/-- The token that marks the end. -/
def stop (s : Scan) : Token := ⟨.endOfText, "", .nil, s.line, s.offset⟩

/-- The tokens with the one that marks the end. -/
def listing (s : Scan) : Array Token := s.tokens.push s.stop

/-- All that is found in a text. -/
def ofText (text : String) : Scan := (Token.pieces text.toList).foldl read start

end Scan

end Scriptlet

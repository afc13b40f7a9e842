import Mathlib.Algebra.Ring.Nat
import Scriptlet.Proofs.Token.Quoting

/-!
# Lexemes scanned again

**Theorem (`Scan.ofText_rescan`).** Take the lexemes of a text, with a blank between any two, for a
text. It is scanned without an issue, and has the same tokens, but for their places.

Each lexeme was the longest match where it stood, but other characters came behind it there. Behind
it now is a blank, or nothing. No match goes on over a blank but of blanks, comments and strings
(`Rule.blank_cases`). The lexeme of a token is neither blank nor a comment, or the rule of these
would have been chosen for it, since it comes first. If it begins with a quote it is a string that
is closed, and a match of strings ends with it (`Rule.span_closed`). So a lexeme is cut as it was
before, whatever stands behind the blank (`Token.Piece.Yields.munches`).
-/

namespace Scriptlet

namespace Token

namespace Rule

/-! ## Matches and blanks -/

/-- What matches with a blank in it, behind something, begins as blanks, a comment or a string. -/
theorem blank_cases {rule : Rule} {w v : List Char} (hne : w ≠ [])
    (h : w ++ ' ' :: v ∈ rule.pattern) :
    w ∈ blanks.pattern ∨ w ∈ comment.pattern ∨ ∃ u, w = '"' :: u := by
  have hmem : ' ' ∈ w ++ ' ' :: v := List.mem_append_right _ List.mem_cons_self
  obtain ⟨c, u, rfl⟩ := List.exists_cons_of_ne_nil hne
  rw [List.cons_append] at h hmem
  cases rule with
  | blanks =>
    obtain ⟨hc, hu⟩ := List.forall_mem_cons.1 (mem_several_oneOf.1 h).2
    exact .inl (mem_several_oneOf.2
      ⟨hne, List.forall_mem_cons.2 ⟨hc, (List.forall_mem_append.1 hu).1⟩⟩)
  | comment =>
    obtain ⟨_, rfl, x, hx, heq⟩ := Language.mem_mul.1 h
    cases u with
    | nil => simp at heq
    | cons d u =>
      obtain ⟨rfl, rfl, rfl⟩ : c = '/' ∧ d = '/' ∧ x = u ++ ' ' :: v := by
        simpa [eq_comm] using heq
      have hu := (List.forall_mem_append.1 (mem_kstar_oneOf.1 hx)).1
      exact .inr (.inl (Language.append_mem_mul (mem_only.2 rfl) (mem_kstar_oneOf.2 hu)))
  | lineBreak => simpa using mem_only.1 h
  | punctuation | stray =>
    obtain ⟨_, -, heq⟩ := mem_oneOf.1 h
    simp at heq
  | relation =>
    obtain ⟨_, ⟨_, -, rfl⟩, x, hx, heq⟩ := Language.mem_mul.1 h
    rcases mem_maybe.1 hx with rfl | rfl
    · simp at heq
    · cases u <;> simp at heq
  | number =>
    obtain ⟨whole, ⟨-, hwhole⟩, heq | ⟨places, ⟨-, hplaces⟩, heq⟩⟩ := mem_number.1 h
    · rw [heq] at hmem
      exact absurd hmem (not_mem_of_forall (by decide) hwhole)
    · rw [heq, List.mem_append, List.mem_cons] at hmem
      rcases hmem with hmem | hpoint | hmem
      · exact absurd hmem (not_mem_of_forall (by decide) hwhole)
      · cases hpoint
      · exact absurd hmem (not_mem_of_forall (by decide) hplaces)
  | word =>
    obtain ⟨_, ⟨d, hd, rfl⟩, x, hx, heq⟩ := Language.mem_mul.1 h
    obtain ⟨rfl, rfl⟩ : d = c ∧ x = u ++ ' ' :: v := by simpa using heq
    exact absurd (List.mem_append_right u List.mem_cons_self)
      (not_mem_of_forall (by decide) (mem_kstar_oneOf.1 hx))
  | closedString =>
    obtain ⟨b, -, heq⟩ := mem_closedString.1 h
    exact .inr (.inr ⟨u, congrArg (· :: u) (List.cons.inj heq).1⟩)
  | openString =>
    obtain ⟨b, -, heq | heq⟩ := mem_openString.1 h
    all_goals exact .inr (.inr ⟨u, congrArg (· :: u) (List.cons.inj heq).1⟩)

/-- No match goes on behind the quote that closes a string. -/
theorem span_closed {b : List Char} (hb : b ∈ body) (rest : List Char) (rule : Rule) :
    rule.span ('"' :: (b ++ '"' :: rest)) ≤ b.length + 2 := by
  have hbody : bodySpan (b ++ '"' :: rest) = b.length := by
    rw [bodySpan_append hb]
    simp [bodySpan]
  cases rule with
  | closedString | openString => simp [span, hbody]
  | stray => exact Nat.le_add_left 1 _
  | _ => exact Nat.zero_le _

/-- What begins with a blank matches no rule but that of blanks and that of any character. -/
theorem rank_of_gap {rule : Rule} {c : Char} {w : List Char} (hc : isGap c = true)
    (h : c :: w ∈ rule.pattern) : rule = blanks ∨ rule = stray := by
  have hspan := length_le_span h List.prefix_rfl
  have hcases : c = ' ' ∨ c = '\t' ∨ c = '\r' := by simpa [isGap, or_assoc] using hc
  cases rule with
  | blanks => exact .inl rfl
  | stray => exact .inr rfl
  | _ => rcases hcases with rfl | rfl | rfl <;> exact absurd hspan (Nat.not_succ_le_zero _)

/-- Before anything else a blank is matched by itself. -/
theorem span_blank {cs : List Char} (h : ∀ c ∈ cs.head?, isGap c = false) (rule : Rule) :
    rule.span (' ' :: cs) ≤ 1 := by
  have hblank : isGap ' ' = true := by decide
  cases rule with
  | blanks =>
    cases cs with
    | nil => decide
    | cons c cs => simp [span, run, hblank, h c rfl]
  | stray => exact Nat.le_refl 1
  | _ => exact Nat.zero_le _

end Rule

/-! ## Lexemes by themselves -/

/-- A piece that is cut from some text stands for a token. -/
structure Piece.Yields (p : Piece) (t : Token) : Prop where
  finding : p.finding = .token t.kind t.literal
  lexeme : t.lexeme.toList = p.text
  cut : ∃ cs, p.Munches cs

namespace Piece

variable {p : Piece} {t : Token}

/-- The blank between two lexemes. -/
def gap : Piece := ⟨.blanks, [' ']⟩

/-- The rules that cut tokens. -/
theorem Yields.rank (h : p.Yields t) :
    Rule.comment.rank < p.rule.rank ∧ p.rule.rank ≤ Rule.closedString.rank := by
  have hfinding := h.finding
  cases hrule : p.rule with
  | punctuation | relation | number | word | closedString => decide
  | _ => simp [Piece.finding, hrule] at hfinding

/-- A lexeme that begins with a quote is a string that is closed. -/
theorem Yields.closed (h : p.Yields t) {u : List Char} (htext : p.text = '"' :: u) :
    ∃ b ∈ Rule.body, p.text = '"' :: (b ++ ['"']) := by
  obtain ⟨cs, hcut⟩ := h.cut
  have hmatched := hcut.matched
  have hquote : '"' :: u ∈ p.rule.pattern := htext ▸ hmatched
  have hrule : p.rule = .closedString :=
    Rule.rank_inj (Nat.le_antisymm h.rank.2 (Rule.rank_of_quote hquote))
  rw [hrule] at hmatched
  exact Rule.mem_closedString.1 hmatched

/-- **Behind a lexeme a blank ends the match.** It is cut as it was, whatever comes then. -/
theorem Yields.munches (h : p.Yields t) (rest : List Char) : p.Munches (p.text ++ ' ' :: rest) := by
  obtain ⟨cs, hcut⟩ := h.cut
  refine ⟨List.prefix_append .., hcut.nonempty, hcut.matched, fun rule w hw hfront => ?_,
    hcut.earliest⟩
  by_contra hlong
  have hover : p.text ++ [' '] <+: w := by
    refine List.prefix_of_prefix_length_le ⟨rest, by simp⟩ hfront ?_
    rw [List.length_append, List.length_singleton]
    exact Nat.lt_of_not_le hlong
  obtain ⟨v, rfl⟩ := hover
  rw [List.append_assoc] at hw
  have hrank := h.rank.1
  rcases Rule.blank_cases hcut.nonempty hw with hblanks | hcomment | hquote
  · have hfirst := hcut.earliest .blanks hblanks
    have hbefore : Rule.blanks.rank < Rule.comment.rank := by decide
    omega
  · have hfirst := hcut.earliest .comment hcomment
    omega
  · obtain ⟨u, hu⟩ := hquote
    obtain ⟨b, hb, htext⟩ := h.closed hu
    rw [List.append_assoc] at hfront hlong
    have hspan := Rule.length_le_span hw hfront
    have hclosed := Rule.span_closed hb (' ' :: rest) rule
    rw [htext] at hspan hlong
    simp at hspan hlong hclosed
    omega

/-- A lexeme does not begin with a blank. -/
theorem Yields.head (h : p.Yields t) (rest : List Char) :
    ∀ c ∈ (p.text ++ rest).head?, Rule.isGap c = false := by
  obtain ⟨cs, hcut⟩ := h.cut
  obtain ⟨d, u, htext⟩ := List.exists_cons_of_ne_nil hcut.nonempty
  have hmatched := hcut.matched
  rw [htext] at hmatched ⊢
  rintro _ ⟨⟩
  by_contra hgap
  have hrank := h.rank
  rcases Rule.rank_of_gap (Bool.not_eq_false _ ▸ hgap) hmatched with hrule | hrule
  all_goals
    rw [hrule] at hrank
    exact absurd hrank (by decide)

theorem gap_munches {cs : List Char} (h : ∀ c ∈ cs.head?, Rule.isGap c = false) :
    gap.Munches (' ' :: cs) := by
  refine ⟨⟨cs, rfl⟩, List.cons_ne_nil _ _, ?_, fun rule w hw hfront => ?_, fun _ _ => Nat.zero_le _⟩
  · exact Rule.mem_several_oneOf.2 ⟨List.cons_ne_nil _ _, by simp [gap, Rule.isGap]⟩
  · exact Nat.le_trans (Rule.length_le_span hw hfront) (Rule.span_blank h rule)

end Piece

/-! ## Lexemes in a row -/

/-- Pieces with a blank between any two. -/
def spread (ps : List Piece) : List Piece := ps.intersperse .gap

@[simp] theorem spread_nil : spread [] = [] := rfl

@[simp] theorem spread_singleton (p : Piece) : spread [p] = [p] := rfl

theorem spread_cons_cons (p q : Piece) (ps : List Piece) :
    spread (p :: q :: ps) = p :: .gap :: spread (q :: ps) := rfl

/-- The text that begins with a piece. -/
theorem flatten_spread_cons (p : Piece) (ps : List Piece) :
    ∃ rest, ((spread (p :: ps)).map Piece.text).flatten = p.text ++ rest := by
  cases ps with
  | nil => exact ⟨[], rfl⟩
  | cons q ps => exact ⟨_, rfl⟩

theorem flatten_spread (ps : List Piece) :
    ((spread ps).map Piece.text).flatten = [' '].intercalate (ps.map Piece.text) := by
  induction ps with
  | nil => rfl
  | cons p ps ih =>
    cases ps with
    | nil => rfl
    | cons q ps =>
      rw [spread_cons_cons, List.map_cons, List.map_cons, List.flatten_cons, List.flatten_cons, ih]
      rfl

theorem map_text_of_yields {ps : List Piece} {ts : List Token}
    (h : List.Forall₂ Piece.Yields ps ts) :
    ps.map Piece.text = ts.map (String.toList ∘ Token.lexeme) := by
  induction h with
  | nil => rfl
  | cons hp _ ih => rw [List.map_cons, List.map_cons, ih, Function.comp_apply, hp.lexeme]

/-- **Lexemes in a row are cut apart**, and the blanks between them. -/
theorem cuts_spread {ps : List Piece} {ts : List Token} (h : List.Forall₂ Piece.Yields ps ts) :
    Cuts ((spread ps).map Piece.text).flatten (spread ps) := by
  induction h with
  | nil => exact .nil
  | @cons p t ps ts hp hps ih =>
    cases hps with
    | nil =>
      obtain ⟨cs, hcut⟩ := hp.cut
      have hnil : Cuts (p.text.drop p.text.length) [] := by
        rw [List.drop_length]
        exact .nil
      simpa using Cuts.cons
        (Piece.munches_alone hcut.nonempty hcut.matched hcut.earliest) hnil
    | @cons q u ps ts hq hps =>
      rw [spread_cons_cons]
      obtain ⟨rest, hrest⟩ := flatten_spread_cons q ps
      have hgap : Piece.gap.Munches (' ' :: ((spread (q :: ps)).map Piece.text).flatten) :=
        Piece.gap_munches (hrest ▸ hq.head rest)
      refine .cons (hp.munches _) ?_
      show Cuts (List.drop p.text.length (p.text ++ ' ' :: _)) _
      rw [List.drop_left]
      exact .cons hgap ih

/-- Tokens in a row with a blank between any two, from a line and an offset on. -/
def row (line offset : Nat) : List Token → List Token
  | [] => []
  | t :: rest =>
    let line := line + t.lexeme.toList.count '\n'
    { t with line, offset } :: row line (offset + t.lexeme.length + 1) rest

theorem getElem?_row (line offset : Nat) (ts : List Token) (i : Nat) :
    (row line offset ts)[i]? = ts[i]?.map fun t =>
      { t with
        line := line + ((ts.take (i + 1)).map fun t => t.lexeme.toList.count '\n').sum
        offset := offset + ((ts.take i).map fun t => t.lexeme.length + 1).sum } := by
  induction ts generalizing line offset i with
  | nil => rfl
  | cons t ts ih =>
    cases i with
    | zero => simp [row]
    | succ i => simp [row, ih, Nat.add_assoc, Nat.add_comm 1]

end Token

namespace Scan

open Token (Piece Cuts spread row)

/-- **The tokens of a text** are what some of its pieces stand for. -/
theorem yields_foldl {cs : List Char} {ps : List Piece} (h : Cuts cs ps) (s : Scan) :
    ∃ qs ts, List.Forall₂ Piece.Yields qs ts ∧
      (ps.foldl read s).tokens.toList = s.tokens.toList ++ ts := by
  induction h generalizing s with
  | nil => exact ⟨[], [], .nil, (List.append_nil _).symm⟩
  | @cons cs p ps hp hps ih =>
    obtain ⟨qs, ts, hyields, htokens⟩ := ih (s.read p)
    rw [List.foldl_cons, htokens]
    cases hfinding : p.finding with
    | nothing | issue _ => exact ⟨qs, ts, hyields, by simp [read, hfinding]⟩
    | token kind literal =>
      have hp : p.Yields ⟨kind, String.ofList p.text, literal,
          s.line + p.text.count '\n', s.offset⟩ := ⟨hfinding, String.toList_ofList, cs, hp⟩
      exact ⟨p :: qs, _ :: ts, .cons hp hyields, by simp [read, hfinding]⟩

/-- A piece that stands for a token is read as this token, at its new place. -/
theorem read_yields {p : Piece} {t : Token} (h : p.Yields t) (s : Scan) :
    s.read p = ⟨s.line + t.lexeme.toList.count '\n', s.offset + t.lexeme.length,
      s.tokens.push { t with line := s.line + t.lexeme.toList.count '\n', offset := s.offset },
      s.issues⟩ := by
  simp [read, h.finding, ← h.lexeme, String.length_toList]

/-- **Lexemes in a row are read** as their tokens in a row. -/
theorem foldl_spread {ps : List Piece} {ts : List Token} (h : List.Forall₂ Piece.Yields ps ts)
    (s : Scan) : ((spread ps).foldl read s).issues = s.issues ∧
      ((spread ps).foldl read s).tokens.toList = s.tokens.toList ++ row s.line s.offset ts := by
  induction h generalizing s with
  | nil => exact ⟨rfl, (List.append_nil _).symm⟩
  | @cons p t ps ts hp hps ih =>
    cases hps with
    | nil => simp [read_yields hp, row]
    | @cons q u ps ts hq hps =>
      rw [Token.spread_cons_cons, List.foldl_cons, List.foldl_cons]
      obtain ⟨hissues, htokens⟩ := ih ((s.read p).read .gap)
      have hgap : ∀ s : Scan, s.read .gap = { s with offset := s.offset + 1 } := fun _ => rfl
      rw [hissues, htokens, hgap, read_yields hp]
      refine ⟨rfl, ?_⟩
      simp [row]

/-- **Rescanning gives the same tokens.** The lexemes of a text, with a blank between any two, are
scanned without an issue. The tokens have the same kinds, lexemes and values, in the same order. An
offset is the sum of the lengths of the lexemes before it, and one more for each of them, and a line
counts the breaks in the lexemes up to its own. -/
theorem ofText_rescan (text : String) :
    let ts := (ofText text).tokens.toList
    let joined := " ".intercalate (ts.map Token.lexeme)
    (ofText joined).issues = #[] ∧ ∀ i : Nat, (ofText joined).tokens[i]? = ts[i]?.map fun t =>
      { t with
        line := 1 + ((ts.take (i + 1)).map fun t => t.lexeme.toList.count '\n').sum
        offset := ((ts.take i).map fun t => t.lexeme.length + 1).sum } := by
  intro ts joined
  obtain ⟨qs, ts', hyields, htokens⟩ := yields_foldl (Token.cuts_iff.2 rfl) start
  have hts : ts = ts' := htokens
  subst hts
  have hjoined : joined.toList = ((spread qs).map Piece.text).flatten := by
    rw [Token.flatten_spread, Token.map_text_of_yields hyields, ← List.map_map]
    exact String.toList_intercalate
  have hscan : ofText joined = (spread qs).foldl read start := by
    unfold ofText
    rw [hjoined, ← Token.cuts_iff.1 (Token.cuts_spread hyields)]
  obtain ⟨hissues, hrow⟩ := foldl_spread hyields start
  rw [hscan]
  refine ⟨hissues, fun i => ?_⟩
  rw [← Array.getElem?_toList, hrow]
  exact (Token.getElem?_row 1 0 ts i).trans (by simp)

/-- Operators kept apart, a number beside a point, two slashes, and a string with a break and a
comment in it. -/
example : " ".intercalate ((ofText "!/**/ = 1.5.x @ / /\t\"//\n\"// y").tokens.toList.map
    Token.lexeme) = "! / * * / = 1.5 . x / / \"//\n\"" := by decide +kernel

end Scan

end Scriptlet

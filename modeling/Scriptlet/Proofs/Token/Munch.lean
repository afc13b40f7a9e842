import Mathlib.Data.List.TakeWhile
import Scriptlet.Proofs.Token.Pattern

/-!
# Scanning takes the longest match

What it means to scan a text is said here without the scanner, in three relations.

* **Cutting** (`Token.Cuts`). A text is cut from left to right. Each piece is the longest prefix of
  the remaining text that matches the pattern of any rule, and it belongs to the first of the rules
  that match it.
* **Meaning** (`Token.Says`). What a piece stands for depends on its rule and its text: a token with
  its kind and its value, an issue, or nothing.
* **Reading** (`Token.Reads`). The pieces are read in order, and a line and an offset go along.

**Theorem (`Scan.ofText_munch`).** Every text is cut in just one way, and its scan is the reading of
the pieces. There is an unterminated string in it if and only if some quote that opens a string is
never closed; then the piece that begins there is the rest of the text.

Cutting is a function of the text (`Token.cuts_iff`) because the longest match is unique and the
rules are ordered.
-/

namespace Scriptlet

namespace Token

namespace Rule

variable {cs : List Char}

/-! ## The rule that applies -/

/-- The place of a rule in the order of all. -/
def rank (rule : Rule) : Nat := all.idxOf rule

theorem rank_inj {rule rule' : Rule} (h : rule.rank = rule'.rank) : rule = rule' := by
  revert h
  cases rule <;> cases rule' <;> decide

/-- The chosen rule matches as long as is said, and comes before all others that do. -/
theorem longest_first {rules : List Rule} (h : 0 < (longest cs rules).2) :
    (longest cs rules).1.span cs = (longest cs rules).2 ∧
      ∀ rule ∈ rules, rule.span cs = (longest cs rules).2 →
        rules.idxOf (longest cs rules).1 ≤ rules.idxOf rule := by
  induction rules with
  | nil => exact absurd h (Nat.lt_irrefl 0)
  | cons first rest ih =>
    simp only [longest] at h ⊢
    split
    · next hlt =>
      rw [if_pos hlt] at h
      obtain ⟨hspan, hfirst⟩ := ih h
      refine ⟨hspan, fun rule hrule heq => ?_⟩
      have hne : first ≠ (longest cs rest).1 := by
        rintro hfirst
        rw [hfirst, hspan] at hlt
        exact Nat.lt_irrefl _ hlt
      have hne' : first ≠ rule := by
        rintro rfl
        rw [heq] at hlt
        exact Nat.lt_irrefl _ hlt
      have hmem := (List.mem_cons.1 hrule).resolve_left (Ne.symm hne')
      rw [List.idxOf_cons_ne _ hne, List.idxOf_cons_ne _ hne']
      exact Nat.succ_le_succ (hfirst rule hmem heq)
    · refine ⟨rfl, fun _ _ _ => ?_⟩
      rw [List.idxOf_cons_self]
      exact Nat.zero_le _

theorem span_best (hne : cs ≠ []) : (best cs).1.span cs = (best cs).2 ∧
    ∀ rule : Rule, rule.span cs = (best cs).2 → (best cs).1.rank ≤ rule.rank := by
  obtain ⟨c, rest, rfl⟩ := List.exists_cons_of_ne_nil hne
  obtain ⟨hspan, hfirst⟩ := longest_first (best_pos c rest)
  exact ⟨hspan, fun rule => hfirst rule (mem_all rule)⟩

/-! ## Strings that are closed -/

/-- A string is closed where a quote follows a word that may stand in a string. -/
theorem closes_iff : Closes cs ↔ ∃ v ∈ body, v ++ ['"'] <+: cs := by
  constructor
  · rintro ⟨rest, hrest⟩
    refine ⟨_, take_bodySpan_mem cs, rest, ?_⟩
    rw [List.append_assoc, List.singleton_append, ← hrest, List.take_append_drop]
  · rintro ⟨v, hv, rest, rfl⟩
    have hspan : bodySpan (v ++ ['"'] ++ rest) = v.length := by
      rw [List.append_assoc, bodySpan_append hv]
      simp [bodySpan]
    exact ⟨rest, by rw [hspan, List.append_assoc, List.drop_left]; rfl⟩

/-- A string that is closed is not cut as an open one. -/
theorem best_of_closed {rest : List Char} (h : Closes rest) :
    (best ('"' :: rest)).1 ≠ openString := by
  obtain ⟨after, hafter⟩ := h
  have hclosed : closedString.span ('"' :: rest) = bodySpan rest + 2 := by simp [span, hafter]
  have hopen : openString.span ('"' :: rest) = bodySpan rest + 1 := by simp [span, hafter]
  intro heq
  have hle := span_le_best closedString ('"' :: rest)
  rw [← (span_best (List.cons_ne_nil _ _)).1, heq, hclosed, hopen] at hle
  omega

/-- Behind a body there is a quote, a last backslash, or nothing. -/
theorem drop_bodySpan (cs : List Char) :
    Closes cs ∨ cs.drop (bodySpan cs) = [] ∨ cs.drop (bodySpan cs) = ['\\'] := by
  unfold Closes
  fun_induction bodySpan cs with
  | case1 => exact .inr (.inl rfl)
  | case2 c rest ih => exact ih
  | case3 c rest hslash hc =>
    rcases hc with rfl | rfl
    · exact .inl ⟨rest, rfl⟩
    · cases rest with
      | nil => exact .inr (.inr rfl)
      | cons d rest => exact absurd rfl (hslash d rest rfl)
  | case4 c rest _ _ ih => exact ih

/-- A string that is not closed takes the rest of the text. -/
theorem span_of_open {rest : List Char} (h : ¬Closes rest) :
    openString.span ('"' :: rest) = rest.length + 1 := by
  have hle := bodySpan_le_length rest
  rcases (drop_bodySpan rest).resolve_left h with hdrop | hdrop
  · have hlen := congrArg List.length hdrop
    rw [List.length_drop, List.length_nil] at hlen
    simp only [span, hdrop]
    omega
  · have hlen := congrArg List.length hdrop
    rw [List.length_drop, List.length_singleton] at hlen
    simp only [span, hdrop]
    omega

end Rule

/-! ## Cutting -/

/-- A piece is cut at the front of a text: it matches its rule, no prefix of the text that matches
any rule is longer, and no rule that matches the piece comes before its own. -/
structure Piece.Munches (p : Piece) (cs : List Char) : Prop where
  front : p.text <+: cs
  nonempty : p.text ≠ []
  matched : p.text ∈ p.rule.pattern
  longest : ∀ (rule : Rule) (w : List Char), w ∈ rule.pattern → w <+: cs →
    w.length ≤ p.text.length
  earliest : ∀ rule : Rule, p.text ∈ rule.pattern → p.rule.rank ≤ rule.rank

/-- A text is cut into pieces from left to right, each at the front of what is left. -/
inductive Cuts : List Char → List Piece → Prop
  | nil : Cuts [] []
  | cons {cs : List Char} {p : Piece} {ps : List Piece} :
    p.Munches cs → Cuts (cs.drop p.text.length) ps → Cuts cs (p :: ps)

variable {cs : List Char} {p q : Piece} {ps : List Piece}

theorem Piece.Munches.append_drop (h : p.Munches cs) : p.text ++ cs.drop p.text.length = cs :=
  List.prefix_iff_eq_append.1 h.front

theorem munches_of_best {rule : Rule} {n : Nat} (hne : cs ≠ []) (h : Rule.best cs = (rule, n)) :
    Piece.Munches ⟨rule, cs.take n⟩ cs := by
  obtain ⟨hspan, hfirst⟩ := Rule.span_best hne
  have hlongest : ∀ other : Rule, other.span cs ≤ n := fun other => by
    have hle := Rule.span_le_best other cs
    rwa [h] at hle
  have hlength : (cs.take n).length = n := by
    have hle := Rule.best_le_length cs
    rw [h] at hle
    exact List.length_take_of_le hle
  have hpos : 0 < n := by
    obtain ⟨c, rest, rfl⟩ := List.exists_cons_of_ne_nil hne
    exact hlongest .stray
  simp only [h] at hspan hfirst
  have hmatched := Rule.take_span_mem (hspan.symm ▸ hpos)
  rw [hspan] at hmatched
  refine ⟨List.take_prefix .., List.length_pos_iff.1 (hlength.symm ▸ hpos), hmatched, ?_, ?_⟩
  · intro other w hw hfront
    rw [hlength]
    exact Nat.le_trans (Rule.length_le_span hw hfront) (hlongest other)
  · intro other hother
    refine hfirst other (Nat.le_antisymm (hlongest other) ?_)
    have hle := Rule.length_le_span hother (List.take_prefix ..)
    rwa [hlength] at hle

theorem firstPiece_munches (hne : cs ≠ []) : (firstPiece cs).Munches cs := by
  cases h : Rule.best cs with
  | mk rule n =>
    have hfirst : firstPiece cs = ⟨rule, cs.take n⟩ := by simp only [firstPiece, h]
    rw [hfirst]
    exact munches_of_best hne h

/-- Only one piece is cut at the front of a text. -/
theorem Piece.Munches.unique (hp : p.Munches cs) (hq : q.Munches cs) : p = q := by
  have hlength : p.text.length = q.text.length :=
    Nat.le_antisymm (hq.longest p.rule p.text hp.matched hp.front)
      (hp.longest q.rule q.text hq.matched hq.front)
  have htext : p.text = q.text := by
    rw [List.prefix_iff_eq_take.1 hp.front, List.prefix_iff_eq_take.1 hq.front, hlength]
  have hrank : p.rule.rank = q.rule.rank :=
    Nat.le_antisymm (hp.earliest q.rule (htext ▸ hq.matched))
      (hq.earliest p.rule (htext ▸ hp.matched))
  cases p
  cases q
  exact congr (congrArg Piece.mk (Rule.rank_inj hrank)) htext

/-- Where text remains, the piece that is cut is the one that the rules choose. -/
theorem Piece.Munches.eq_firstPiece (h : p.Munches cs) : p = firstPiece cs := by
  refine h.unique (firstPiece_munches fun hnil => h.nonempty ?_)
  rw [hnil] at h
  exact List.prefix_nil.1 h.front

/-- **The pieces of a text are the only ones into which it is cut.** -/
theorem cuts_iff : Cuts cs ps ↔ ps = pieces cs := by
  constructor
  · intro h
    induction h with
    | nil => rw [pieces_nil]
    | @cons cs p ps hp hps ih =>
      cases cs with
      | nil => exact absurd (List.prefix_nil.1 hp.front) hp.nonempty
      | cons c rest => rw [pieces_cons, ← hp.eq_firstPiece, ih]
  · intro h
    subst h
    induction hn : cs.length using Nat.strongRecOn generalizing cs with
    | _ n ih =>
      cases cs with
      | nil =>
        rw [pieces_nil]
        exact .nil
      | cons c rest =>
        have hpos := firstPiece_length_pos c rest
        have hlt : ((c :: rest).drop (firstPiece (c :: rest)).text.length).length < n := by
          simp only [List.length_drop, List.length_cons] at hn ⊢
          omega
        rw [pieces_cons]
        exact .cons (firstPiece_munches (List.cons_ne_nil c rest)) (ih _ hlt rfl)

example : (pieces "1.5.x<==//=".toList).map (String.ofList ∘ Piece.text) =
    ["1.5", ".", "x", "<=", "=", "//="] := by decide +kernel

theorem Cuts.flatten (h : Cuts cs ps) : (ps.map Piece.text).flatten = cs := by
  induction h with
  | nil => rfl
  | cons hp _ ih => rw [List.map_cons, List.flatten_cons, ih, hp.append_drop]

/-- What is left is cut as the whole is. -/
theorem Cuts.left {front back : List Piece} (h : Cuts cs (front ++ back)) :
    Cuts (back.map Piece.text).flatten back := by
  induction front generalizing cs with
  | nil =>
    rw [List.nil_append] at h
    rwa [h.flatten]
  | cons p front ih =>
    cases h with
    | cons _ hrest => exact ih hrest

theorem Cuts.matched (h : Cuts cs ps) : ∀ p ∈ ps, p.text ∈ p.rule.pattern := by
  induction h with
  | nil => exact List.forall_mem_nil _
  | cons hp _ ih => exact List.forall_mem_cons.2 ⟨hp.matched, ih⟩

/-! ## Meaning -/

/-- The text that stands between the quotes of a string, and the text that it means: a backslash and
one of five characters mean one character, all else means itself. -/
inductive Decodes : List Char → List Char → Prop
  | nil : Decodes [] []
  | plain {c : Char} {w v : List Char} : c ≠ '\\' → Decodes w v → Decodes (c :: w) (c :: v)
  | quote {w v : List Char} : Decodes w v → Decodes ('\\' :: '"' :: w) ('"' :: v)
  | backslash {w v : List Char} : Decodes w v → Decodes ('\\' :: '\\' :: w) ('\\' :: v)
  | lineBreak {w v : List Char} : Decodes w v → Decodes ('\\' :: 'n' :: w) ('\n' :: v)
  | tab {w v : List Char} : Decodes w v → Decodes ('\\' :: 't' :: w) ('\t' :: v)
  | carriageReturn {w v : List Char} : Decodes w v → Decodes ('\\' :: 'r' :: w) ('\r' :: v)
  | other {c : Char} {w v : List Char} : c ∉ ['"', '\\', 'n', 't', 'r'] → Decodes w v →
    Decodes ('\\' :: c :: w) ('\\' :: c :: v)

/-- What the text of a piece stands for under its rule. -/
inductive Says : Rule → List Char → Finding → Prop
  | blanks (w : List Char) : Says .blanks w .nothing
  | comment (w : List Char) : Says .comment w .nothing
  | lineBreak (w : List Char) : Says .lineBreak w .nothing
  | punctuation (m : Mark) : Says .punctuation m.text.toList (.token (.mark m) .nil)
  | relation (m : Mark) : Says .relation m.text.toList (.token (.mark m) .nil)
  | whole {ds : List Char} : (∀ c ∈ ds, c.isDigit = true) →
    Says .number ds (.token .number (.number (Decimal.ofDigits (digitValues ds) [] 0)))
  | fraction {ds places : List Char} : (∀ c ∈ ds, c.isDigit = true) →
    (∀ c ∈ places, c.isDigit = true) →
    Says .number (ds ++ '.' :: places)
      (.token .number (.number (Decimal.ofDigits (digitValues ds) (digitValues places) 0)))
  | reserved (r : Word) : Says .word r.text.toList (.token (.word r) .nil)
  | name {w : List Char} : (∀ r : Word, r.text.toList ≠ w) → Says .word w (.token .name .nil)
  | string {w v : List Char} : Decodes w v →
    Says .closedString ('"' :: (w ++ ['"'])) (.token .string (.string (String.ofList v)))
  | unterminated (w : List Char) : Says .openString w (.issue .unterminatedString)
  | stray (w : List Char) : Says .stray w (.issue .strayCharacter)

theorem decodes_escape {c : Char} {w v : List Char} (h : Decodes w v) :
    Decodes ('\\' :: c :: w) (match Escape.meaning? c with
      | some d => d :: v
      | none => '\\' :: c :: v) := by
  by_cases hquote : c = '"'
  · rw [hquote]
    exact .quote h
  by_cases hslash : c = '\\'
  · rw [hslash]
    exact .backslash h
  by_cases hn : c = 'n'
  · rw [hn]
    exact .lineBreak h
  by_cases ht : c = 't'
  · rw [ht]
    exact .tab h
  by_cases hr : c = 'r'
  · rw [hr]
    exact .carriageReturn h
  have hnone : Escape.meaning? c = none := by simp [Escape.meaning?, hquote, hslash, hn, ht, hr]
  rw [hnone]
  exact .other (by simp [hquote, hslash, hn, ht, hr]) h

theorem decodes_decode {w : List Char} (hw : w ∈ Rule.body) : Decodes w (Escape.decode w) := by
  induction hw using Rule.body_induction with
  | nil => exact .nil
  | plain c w hquote hslash hw ih =>
    have hdecode : Escape.decode (c :: w) = c :: Escape.decode w := by
      simp [Escape.decode, hslash]
    rw [hdecode]
    exact .plain hslash ih
  | escape c w hw ih => exact decodes_escape ih

theorem says_punctuation {w : List Char} (h : w ∈ Rule.punctuation.pattern) :
    Says .punctuation w (.token (markKind (String.ofList w)) .nil) := by
  obtain ⟨c, hc, rfl⟩ := Rule.mem_oneOf.1 h
  have hcases : c ∈ ['(', '\x7b', '\x7d', ')', ',', '.', '-', '+', ';', '*', '/'] := by
    simpa [Rule.isPunctuation] using hc
  simp only [List.mem_cons, List.not_mem_nil, or_false] at hcases
  rcases hcases with rfl | rfl | rfl | rfl | rfl | rfl | rfl | rfl | rfl | rfl | rfl
  · exact .punctuation .leftParen
  · exact .punctuation .leftBrace
  · exact .punctuation .rightBrace
  · exact .punctuation .rightParen
  · exact .punctuation .comma
  · exact .punctuation .dot
  · exact .punctuation .minus
  · exact .punctuation .plus
  · exact .punctuation .semicolon
  · exact .punctuation .star
  · exact .punctuation .slash

theorem says_relation {w : List Char} (h : w ∈ Rule.relation.pattern) :
    Says .relation w (.token (markKind (String.ofList w)) .nil) := by
  obtain ⟨_, ⟨c, hc, rfl⟩, v, hv, rfl⟩ := Language.mem_mul.1 h
  have hcases : c ∈ ['!', '=', '<', '>'] := by simpa [Rule.isRelation] using hc
  simp only [List.mem_cons, List.not_mem_nil, or_false] at hcases
  rcases Rule.mem_maybe.1 hv with rfl | rfl
  · rcases hcases with rfl | rfl | rfl | rfl
    · exact .relation .bang
    · exact .relation .equal
    · exact .relation .less
    · exact .relation .greater
  · rcases hcases with rfl | rfl | rfl | rfl
    · exact .relation .bangEqual
    · exact .relation .equalEqual
    · exact .relation .lessEqual
    · exact .relation .greaterEqual

theorem says_number {w : List Char} (h : w ∈ Rule.number.pattern) :
    Says .number w (.token .number (.number (numberValue w))) := by
  obtain ⟨whole, ⟨-, hwhole⟩, rfl | ⟨places, ⟨-, hplaces⟩, rfl⟩⟩ := Rule.mem_number.1 h
  · have htake : w.takeWhile Char.isDigit = w := List.takeWhile_eq_self_iff.2 hwhole
    have hdrop : w.dropWhile Char.isDigit = [] := List.dropWhile_eq_nil_iff.2 hwhole
    have hvalue : numberValue w = Decimal.ofDigits (digitValues w) [] 0 := by
      simp [numberValue, htake, hdrop, digitValues]
    rw [hvalue]
    exact .whole hwhole
  · have hpoint : Char.isDigit '.' = false := by decide
    have htake : (whole ++ '.' :: places).takeWhile Char.isDigit =
        whole ++ ('.' :: places).takeWhile Char.isDigit := List.takeWhile_append_of_pos hwhole
    have hdrop : (whole ++ '.' :: places).dropWhile Char.isDigit =
        ('.' :: places).dropWhile Char.isDigit := List.dropWhile_append_of_pos hwhole
    have hvalue : numberValue (whole ++ '.' :: places) =
        Decimal.ofDigits (digitValues whole) (digitValues places) 0 := by
      simp [numberValue, htake, hdrop, hpoint]
    rw [hvalue]
    exact .fraction hwhole hplaces

theorem says_word (w : List Char) :
    Says .word w (.token (wordKind (String.ofList w)) .nil) := by
  unfold wordKind
  cases h : Word.ofText? (String.ofList w) with
  | some r =>
    have htext : r.text = String.ofList w := by simpa using List.find?_some h
    have hw : w = r.text.toList := by rw [htext, String.toList_ofList]
    rw [hw]
    exact .reserved r
  | none =>
    refine .name fun r heq => ?_
    rw [← heq, String.ofList_toList, Word.ofText?_text] at h
    cases h

/-- What a piece is found to be is what it says. -/
theorem says_finding (h : p.text ∈ p.rule.pattern) : Says p.rule p.text p.finding := by
  obtain ⟨rule, w⟩ := p
  cases rule with
  | blanks => exact .blanks w
  | comment => exact .comment w
  | lineBreak => exact .lineBreak w
  | punctuation => exact says_punctuation h
  | relation => exact says_relation h
  | number => exact says_number h
  | word => exact says_word w
  | closedString =>
    obtain ⟨v, hv, rfl⟩ := Rule.mem_closedString.1 h
    have hinner : (('"' :: (v ++ ['"'])).drop 1).dropLast = v := List.dropLast_concat
    show Says .closedString _ (.token .string (.string (String.ofList (Escape.decode
      (('"' :: (v ++ ['"'])).drop 1).dropLast))))
    rw [hinner]
    exact .string (decodes_decode hv)
  | openString => exact .unterminated w
  | stray => exact .stray w

/-! ## Reading -/

/-- What is read of pieces from a line and an offset on: the tokens, the last of which marks the
end, and the issues. A token begins at the offset of its piece, and is on the line that the piece
ends on. -/
inductive Reads : Nat → Nat → List Piece → List Token → List Issue → Prop
  | nil (line offset : Nat) : Reads line offset [] [⟨.endOfText, "", .nil, line, offset⟩] []
  | nothing {line offset : Nat} {p : Piece} {ps : List Piece} {ts : List Token}
      {is : List Issue} :
    Says p.rule p.text .nothing →
    Reads (line + p.text.count '\n') (offset + p.text.length) ps ts is →
    Reads line offset (p :: ps) ts is
  | token {line offset : Nat} {p : Piece} {ps : List Piece} {ts : List Token}
      {is : List Issue} {kind : Kind} {literal : Literal} :
    Says p.rule p.text (.token kind literal) →
    Reads (line + p.text.count '\n') (offset + p.text.length) ps ts is →
    Reads line offset (p :: ps)
      (⟨kind, String.ofList p.text, literal, line + p.text.count '\n', offset⟩ :: ts) is
  | issue {line offset : Nat} {p : Piece} {ps : List Piece} {ts : List Token}
      {is : List Issue} {cause : Issue.Cause} :
    Says p.rule p.text (.issue cause) →
    Reads (line + p.text.count '\n') (offset + p.text.length) ps ts is →
    Reads line offset (p :: ps) ts (.spot (line + p.text.count '\n') offset cause :: is)

/-- A scan reads pieces that match their rules. -/
theorem reads_foldl (s : Scan) (h : ∀ p ∈ ps, p.text ∈ p.rule.pattern) :
    ∃ ts is, Reads s.line s.offset ps ts is ∧
      (ps.foldl Scan.read s).listing.toList = s.tokens.toList ++ ts ∧
      (ps.foldl Scan.read s).issues.toList = s.issues.toList ++ is := by
  induction ps generalizing s with
  | nil => exact ⟨_, _, .nil s.line s.offset, by simp [Scan.listing, Scan.stop], by simp⟩
  | cons p ps ih =>
    obtain ⟨hp, hps⟩ := List.forall_mem_cons.1 h
    obtain ⟨ts, is, hreads, htokens, hissues⟩ := ih (s.read p) hps
    have hsays := says_finding hp
    rw [List.foldl_cons, htokens, hissues]
    cases hfinding : p.finding with
    | nothing =>
      rw [hfinding] at hsays
      simp only [Scan.read, hfinding] at hreads ⊢
      exact ⟨ts, is, .nothing hsays hreads, rfl, rfl⟩
    | token kind literal =>
      rw [hfinding] at hsays
      simp only [Scan.read, hfinding] at hreads ⊢
      exact ⟨_, is, .token hsays hreads, by simp, rfl⟩
    | issue cause =>
      rw [hfinding] at hsays
      simp only [Scan.read, hfinding] at hreads ⊢
      exact ⟨ts, _, .issue hsays hreads, rfl, by simp⟩

/-! ## Strings that are not closed -/

/-- A text begins with a quote, and behind it no word that may stand in a string is followed by a
quote. -/
def Unclosed (cs : List Char) : Prop :=
  ∃ after, cs = '"' :: after ∧ ∀ v ∈ Rule.body, ¬v ++ ['"'] <+: after

theorem Says.openString {rule : Rule} {w : List Char}
    (h : Says rule w (.issue .unterminatedString)) : rule = .openString := by
  cases h
  rfl

theorem Reads.openString {line offset : Nat} {ts : List Token} {is : List Issue}
    (h : Reads line offset ps ts is) {i : Issue} (hi : i ∈ is)
    (hcause : i.cause = .unterminatedString) : ∃ p ∈ ps, p.rule = .openString := by
  induction h with
  | nil => cases hi
  | nothing _ _ ih | token _ _ ih =>
    obtain ⟨p, hp, hrule⟩ := ih hi
    exact ⟨p, List.mem_cons_of_mem _ hp, hrule⟩
  | issue hsays _ ih =>
    cases hi with
    | head =>
      subst hcause
      exact ⟨_, List.mem_cons_self, hsays.openString⟩
    | tail _ hi =>
      obtain ⟨p, hp, hrule⟩ := ih hi
      exact ⟨p, List.mem_cons_of_mem _ hp, hrule⟩

theorem Piece.Munches.rule_eq (h : p.Munches cs) : p.rule = (Rule.best cs).1 := by
  rw [h.eq_firstPiece]
  simp only [firstPiece]

/-- A piece is an unterminated string if and only if the text begins with a quote that is never
closed. -/
theorem Piece.Munches.openString_iff (h : p.Munches cs) : p.rule = .openString ↔ Unclosed cs := by
  constructor
  · intro hrule
    have hmatched := h.matched
    rw [hrule] at hmatched
    obtain ⟨after, rfl⟩ : ∃ after, cs = '"' :: after := by
      obtain ⟨rest, hrest⟩ := h.front
      obtain ⟨v, -, hv | hv⟩ := Rule.mem_openString.1 hmatched
      · exact ⟨v ++ rest, by rw [← hrest, hv, List.cons_append]⟩
      · exact ⟨v ++ ['\\'] ++ rest, by rw [← hrest, hv, List.cons_append]⟩
    refine ⟨after, rfl, fun v hv hclosed => ?_⟩
    exact Rule.best_of_closed (Rule.closes_iff.2 ⟨v, hv, hclosed⟩) (h.rule_eq.symm.trans hrule)
  · intro hopen
    obtain ⟨after, rfl, hafter⟩ := hopen
    rw [h.rule_eq]
    refine Rule.best_of_open fun hcloses => ?_
    obtain ⟨v, hv, hclosed⟩ := Rule.closes_iff.1 hcloses
    exact hafter v hv hclosed

/-- A string that is never closed is all of the text. -/
theorem Piece.Munches.eq_of_unclosed (h : p.Munches cs) (hopen : Unclosed cs) :
    p = ⟨.openString, cs⟩ := by
  have hrule := h.openString_iff.2 hopen
  obtain ⟨after, rfl, hafter⟩ := hopen
  have hspan := Rule.span_of_open fun hcloses =>
    let ⟨v, hv, hclosed⟩ := Rule.closes_iff.1 hcloses
    hafter v hv hclosed
  have hpos : 0 < Rule.openString.span ('"' :: after) := by
    rw [hspan]
    exact Nat.succ_pos _
  have hmatched := Rule.take_span_mem hpos
  rw [hspan, ← List.length_cons, List.take_length] at hmatched
  have hlength := h.longest _ _ hmatched List.prefix_rfl
  have htext : p.text = '"' :: after := h.front.eq_of_length_le hlength
  obtain ⟨rule, text⟩ := p
  exact congr (congrArg Piece.mk hrule) htext

variable {front back : List Piece}

theorem Cuts.head (h : Cuts cs (p :: ps)) :
    p.Munches cs ∧ Cuts (cs.drop p.text.length) ps := by
  cases h with
  | cons hp hps => exact ⟨hp, hps⟩

theorem Cuts.ne_nil_of_unclosed (h : Cuts cs ps) (hopen : Unclosed cs) : ps ≠ [] := by
  intro hnil
  obtain ⟨after, rfl, -⟩ := hopen
  rw [hnil] at h
  cases h

/-- There is an unterminated string among the pieces of a text if and only if some quote that opens
a string is never closed. -/
theorem Cuts.openString_iff (h : Cuts cs ps) : (∃ p ∈ ps, p.rule = .openString) ↔
    ∃ front back, ps = front ++ back ∧ Unclosed (back.map Piece.text).flatten := by
  constructor
  · intro hmem
    obtain ⟨p, hp, hrule⟩ := hmem
    obtain ⟨front, back, rfl⟩ := List.append_of_mem hp
    refine ⟨front, p :: back, rfl, ?_⟩
    exact h.left.head.1.openString_iff.1 hrule
  · intro hopen
    obtain ⟨front, back, rfl, hback⟩ := hopen
    obtain ⟨p, rest, rfl⟩ := List.exists_cons_of_ne_nil (h.left.ne_nil_of_unclosed hback)
    exact ⟨p, List.mem_append_right _ List.mem_cons_self, h.left.head.1.openString_iff.2 hback⟩

/-- The piece of a quote that is never closed is the rest of the text, and the last. -/
theorem Cuts.eq_of_unclosed (h : Cuts cs (front ++ back))
    (hback : Unclosed (back.map Piece.text).flatten) :
    back = [⟨.openString, (back.map Piece.text).flatten⟩] := by
  have hcuts := h.left
  obtain ⟨p, rest, heq⟩ := List.exists_cons_of_ne_nil (hcuts.ne_nil_of_unclosed hback)
  generalize hall : (back.map Piece.text).flatten = cs' at hcuts hback ⊢
  rw [heq] at hcuts
  obtain ⟨hp, hrest⟩ := hcuts.head
  have hwhole := hp.eq_of_unclosed hback
  rw [hwhole, List.drop_length, cuts_iff, pieces_nil] at hrest
  rw [heq, hrest, hwhole]

end Token

namespace Scan

open Token (Cuts Reads Unclosed Piece)

/-- **Scanning is exact maximal munch.** A text is cut into pieces in just one way. The tokens and
the issues of its scan are what is read of these pieces from the front of the text on. And a
string is unterminated if and only if a quote that opens a string is never closed, in which case
its piece runs to the end of the text and is the last. -/
theorem ofText_munch (text : String) :
    (∃! ps, Cuts text.toList ps) ∧ ∀ ps, Cuts text.toList ps →
      Reads 1 0 ps (ofText text).listing.toList (ofText text).issues.toList ∧
      ((∃ i ∈ (ofText text).issues, i.cause = .unterminatedString) ↔
        ∃ front back, ps = front ++ back ∧ Unclosed (back.map Piece.text).flatten) ∧
      ∀ front back, ps = front ++ back → Unclosed (back.map Piece.text).flatten →
        back = [⟨.openString, (back.map Piece.text).flatten⟩] := by
  refine ⟨⟨Token.pieces text.toList, Token.cuts_iff.2 rfl, fun ps => Token.cuts_iff.1⟩, ?_⟩
  intro ps hcuts
  obtain ⟨ts, is, hreads, htokens, hissues⟩ := Token.reads_foldl start hcuts.matched
  have hread : ps.foldl read start = ofText text := by rw [Token.cuts_iff.1 hcuts, ofText]
  rw [hread] at htokens hissues
  have htokens' : (ofText text).listing.toList = ts := htokens
  have hissues' : (ofText text).issues.toList = is := hissues
  refine ⟨by rwa [htokens', hissues'], ?_, ?_⟩
  · rw [← hcuts.openString_iff]
    constructor
    · intro hissue
      obtain ⟨i, hi, hcause⟩ := hissue
      exact hreads.openString (hissues' ▸ Array.mem_toList_iff.2 hi) hcause
    · intro hopen
      obtain ⟨p, hp, hrule⟩ := hopen
      by_contra hnone
      have hclosed : ∀ i ∈ (ps.foldl read start).issues, i.cause ≠ .unterminatedString := by
        intro i hi hcause
        rw [hread] at hi
        exact hnone ⟨i, hi, hcause⟩
      exact closed_of_foldl hclosed p hp hrule
  · intro front back heq hback
    subst heq
    exact hcuts.eq_of_unclosed hback

end Scan

end Scriptlet

import Scriptlet.Proofs.Token.Munch
import Scriptlet.Text.Rows

/-!
# On which lines things are

Whatever is found in a text is said to be on the line that it ends on (`Text.EndsOn`). That is the
line of its offset unless there is a line break in it (`Text.EndsOn.line_eq_iff`). No rule but those
of strings cuts a piece that stands for something and has a line break in it. So the tokens on
another line than that of their offset are strings (`Scan.stands_listing`), and of the issues only
those with a string that is never closed can be (`Scan.spots_issues`).

**Pictures** show the row of an offset. If rows end with line feeds only, this is the row of the
line of the offset (`Text.rowAt_lineAt`).
-/

namespace Scriptlet

namespace Text

/-- The line of an offset: one more than there are line breaks before it. -/
def lineAt (text : String) (offset : Nat) : Nat := 1 + (text.toList.take offset).count '\n'

/-- This stretch of a text, from an offset on, ends on this line. -/
structure EndsOn (text : String) (line offset : Nat) (stretch : List Char) : Prop where
  front : stretch <+: text.toList.drop offset
  line : line = lineAt text (offset + stretch.length)

variable {text : String} {line offset : Nat} {stretch : List Char}

theorem lineAt_add (h : stretch <+: text.toList.drop offset) :
    lineAt text (offset + stretch.length) = lineAt text offset + stretch.count '\n' := by
  unfold lineAt
  rw [List.take_add, ← List.prefix_iff_eq_take.1 h, List.count_append, Nat.add_assoc]

theorem EndsOn.line_eq_add (h : EndsOn text line offset stretch) :
    line = lineAt text offset + stretch.count '\n' := h.line.trans (lineAt_add h.front)

/-- The line that a stretch ends on is that of its offset just if no line break is in it. -/
theorem EndsOn.line_eq_iff (h : EndsOn text line offset stretch) :
    line = lineAt text offset ↔ '\n' ∉ stretch := by
  rw [h.line_eq_add, ← List.count_eq_zero]
  exact Nat.add_eq_left

/-! ## Rows -/

theorem rows_ne_nil (cs : List Char) : rows cs ≠ [] := by
  fun_cases rows cs <;> simp_all

/-- An offset is found in the row that it is a place in, or at the end of the last one. -/
theorem rowAt_append (front : List (List Char)) {row : List Char} {back : List (List Char)}
    {column : Nat} (h : column < row.length ∨ back = []) :
    rowAt (front.flatten.length + column) (front ++ row :: back) = (row, column) := by
  induction front with
  | nil =>
    rw [List.flatten_nil, List.length_nil, Nat.zero_add, List.nil_append]
    cases back with
    | nil => rfl
    | cons next back => exact if_pos (h.resolve_right (List.cons_ne_nil _ _))
  | cons first front ih =>
    have hbehind : first.length + front.flatten.length + column - first.length =
        front.flatten.length + column := by omega
    obtain ⟨next, more, heq⟩ := List.exists_cons_of_ne_nil
      (List.append_ne_nil_of_right_ne_nil front (List.cons_ne_nil row back))
    rw [heq] at ih
    rw [List.flatten_cons, List.length_append, List.cons_append, heq]
    show (if _ then _ else _) = _
    rw [if_neg (by omega), hbehind, ih]

/-- Without carriage returns, an offset is in the row that has as many rows before it as there are
line breaks before the offset. -/
theorem exists_row {cs : List Char} (hcr : '\r' ∉ cs) {offset : Nat} (h : offset ≤ cs.length) :
    ∃ front row back column, rows cs = front ++ row :: back ∧
      front.length = (cs.take offset).count '\n' ∧ offset = front.flatten.length + column ∧
      (column < row.length ∨ back = []) := by
  fun_induction rows cs generalizing offset with
  | case1 =>
    obtain rfl := Nat.le_zero.1 h
    exact ⟨[], [], [], 0, rfl, rfl, rfl, .inr rfl⟩
  | case2 rest => exact absurd List.mem_cons_self hcr
  | case3 c rest _ hc ih =>
    rw [List.mem_cons, not_or] at hcr
    obtain rfl : c = '\n' := hc.resolve_right fun heq => hcr.1 heq.symm
    cases offset with
    | zero => exact ⟨[], ['\n'], rows rest, 0, rfl, rfl, rfl, .inl Nat.one_pos⟩
    | succ offset =>
      obtain ⟨front, row, back, column, hrows, hcount, rfl, hin⟩ :=
        ih hcr.2 (Nat.le_of_succ_le_succ h)
      refine ⟨['\n'] :: front, row, back, column, by rw [hrows]; rfl, ?_, ?_, hin⟩
      · rw [List.take_succ_cons, List.count_cons_self, List.length_cons, hcount]
      · rw [List.flatten_cons, List.length_append, List.length_singleton]
        omega
  | case4 c rest _ _ heq _ => exact absurd heq (rows_ne_nil rest)
  | case5 c rest _ hc first more heq ih =>
    rw [List.mem_cons, not_or] at hcr
    rw [not_or] at hc
    cases offset with
    | zero => exact ⟨[], c :: first, more, 0, rfl, rfl, rfl, .inl (Nat.succ_pos _)⟩
    | succ offset =>
      obtain ⟨front, row, back, column, hrows, hcount, rfl, hin⟩ :=
        ih hcr.2 (Nat.le_of_succ_le_succ h)
      rw [List.take_succ_cons, List.count_cons_of_ne hc.1, ← hcount]
      cases front with
      | nil =>
        obtain ⟨rfl, rfl⟩ := List.cons.inj (heq.symm.trans hrows)
        exact ⟨[], c :: first, more, column + 1, rfl, rfl, rfl, hin.imp_left Nat.succ_lt_succ⟩
      | cons _ front =>
        obtain ⟨rfl, rfl⟩ := List.cons.inj (heq.symm.trans hrows)
        refine ⟨(c :: first) :: front, row, back, column, rfl, rfl, ?_, hin⟩
        rw [List.flatten_cons, List.flatten_cons, List.length_append, List.length_append,
          List.length_cons]
        omega

/-- **The row that a picture shows** is that of the line of its offset. -/
theorem rowAt_lineAt {text : String} (hcr : '\r' ∉ text.toList) {offset : Nat}
    (h : offset ≤ text.toList.length) : ∃ row column,
    rowAt offset (rows text.toList) = (row, column) ∧
      (rows text.toList)[lineAt text offset - 1]? = some row := by
  obtain ⟨front, row, back, column, hrows, hcount, rfl, hin⟩ := exists_row hcr h
  refine ⟨row, column, by rw [hrows, rowAt_append front hin], ?_⟩
  unfold lineAt
  rw [Nat.add_sub_cancel_left, ← hcount, hrows, List.getElem?_append_right (Nat.le_refl _),
    Nat.sub_self]
  rfl

end Text

open Text (EndsOn lineAt)

/-! ## What is found -/

/-- A token that stands in a text. Only a string reaches over a line break. -/
structure Token.Stands (text : String) (t : Token) : Prop where
  ends : EndsOn text t.line t.offset t.lexeme.toList
  string : '\n' ∈ t.lexeme.toList → t.kind = .string

/-- What is no string is on the line of its offset. -/
theorem Token.Stands.line_eq {text : String} {t : Token} (h : t.Stands text)
    (hkind : t.kind ≠ .string) : t.line = lineAt text t.offset :=
  h.ends.line_eq_iff.2 fun hbreak => hkind (h.string hbreak)

/-- What an issue of a scan is about: a character that begins no token, or a quote that is never
closed with all that is behind it. -/
inductive Issue.Spots (text : String) : Issue → List Char → Prop
  | character {line offset : Nat} {c : Char} : c ≠ '\n' →
      Spots text (.spot line offset .strayCharacter) [c]
  | unclosed {line offset : Nat} :
      Spots text (.spot line offset .unterminatedString) (text.toList.drop offset)

namespace Token

variable {p : Piece} {cs : List Char}

/-- **Line breaks** are in strings, and each of the others is a piece by itself. -/
theorem Piece.Munches.lineBreak_cases (h : p.Munches cs) (hbreak : '\n' ∈ p.text) :
    p = ⟨.lineBreak, ['\n']⟩ ∨ p.rule = .closedString ∨ p.rule = .openString := by
  obtain ⟨rule, w⟩ := p
  have hmatched : w ∈ rule.pattern := h.matched
  change '\n' ∈ w at hbreak
  cases rule with
  | closedString => exact .inr (.inl rfl)
  | openString => exact .inr (.inr rfl)
  | lineBreak => exact .inl (by rw [Rule.mem_only.1 hmatched])
  | blanks =>
    exact absurd hbreak (Rule.not_mem_of_forall (by decide) (Rule.mem_several_oneOf.1 hmatched).2)
  | comment =>
    obtain ⟨_, rfl, v, hv, rfl⟩ := Language.mem_mul.1 hmatched
    simp only [List.cons_append, List.nil_append, List.mem_cons] at hbreak
    rcases hbreak with hslash | hslash | hbreak
    · cases hslash
    · cases hslash
    · exact absurd hbreak (Rule.not_mem_of_forall (by decide) (Rule.mem_kstar_oneOf.1 hv))
  | punctuation =>
    obtain ⟨c, hc, rfl⟩ := Rule.mem_oneOf.1 hmatched
    rw [← List.mem_singleton.1 hbreak] at hc
    cases hc
  | relation =>
    obtain ⟨_, ⟨c, hc, rfl⟩, v, hv, rfl⟩ := Language.mem_mul.1 hmatched
    rcases List.mem_cons.1 hbreak with rfl | hbreak
    · cases hc
    · rcases Rule.mem_maybe.1 hv with rfl | rfl
      · cases hbreak
      · cases List.mem_singleton.1 hbreak
  | number =>
    obtain ⟨whole, ⟨-, hwhole⟩, rfl | ⟨places, ⟨-, hplaces⟩, rfl⟩⟩ := Rule.mem_number.1 hmatched
    · exact absurd hbreak (Rule.not_mem_of_forall (by decide) hwhole)
    · rw [List.mem_append, List.mem_cons] at hbreak
      rcases hbreak with hbreak | hpoint | hbreak
      · exact absurd hbreak (Rule.not_mem_of_forall (by decide) hwhole)
      · cases hpoint
      · exact absurd hbreak (Rule.not_mem_of_forall (by decide) hplaces)
  | word =>
    obtain ⟨_, ⟨c, hc, rfl⟩, v, hv, rfl⟩ := Language.mem_mul.1 hmatched
    rcases List.mem_cons.1 hbreak with rfl | hbreak
    · cases hc
    · exact absurd hbreak (Rule.not_mem_of_forall (by decide) (Rule.mem_kstar_oneOf.1 hv))
  | stray =>
    obtain ⟨c, -, rfl⟩ := Rule.mem_oneOf.1 hmatched
    obtain ⟨rest, rfl⟩ := h.front
    have hrule := h.rule_eq
    rw [← List.mem_singleton.1 hbreak, List.singleton_append, Rule.best_lineBreak] at hrule
    cases hrule

/-- A piece that stands for a token has no line break in it, if it is not a string. -/
theorem Piece.Munches.string (h : p.Munches cs) {kind : Kind} {literal : Literal}
    (hfinding : p.finding = .token kind literal) (hbreak : '\n' ∈ p.text) : kind = .string := by
  rcases h.lineBreak_cases hbreak with rfl | hrule | hrule
  · cases hfinding
  · simp only [Piece.finding, hrule, Finding.token.injEq] at hfinding
    exact hfinding.1.symm
  · simp only [Piece.finding, hrule] at hfinding
    cases hfinding

/-- A piece that stands for an issue is one character, or all that is left of the text. -/
theorem Piece.Munches.issue (h : p.Munches cs) {cause : Issue.Cause}
    (hfinding : p.finding = .issue cause) :
    (cause = .strayCharacter ∧ ∃ c, c ≠ '\n' ∧ p.text = [c]) ∨
      (cause = .unterminatedString ∧ p.text = cs) := by
  have hsays := says_finding h.matched
  have hmatched := h.matched
  rw [hfinding] at hsays
  generalize hrule : p.rule = rule, htext : p.text = w at hsays hmatched ⊢
  cases hsays with
  | stray w =>
    obtain ⟨c, -, rfl⟩ := Rule.mem_oneOf.1 hmatched
    refine .inl ⟨rfl, c, ?_, rfl⟩
    rintro rfl
    rcases h.lineBreak_cases (htext ▸ List.mem_singleton_self _) with rfl | hstring | hstring
    · cases hrule
    · cases hrule.symm.trans hstring
    · cases hrule.symm.trans hstring
  | unterminated w =>
    rw [← htext, h.eq_of_unclosed (h.openString_iff.1 hrule)]
    exact .inr ⟨rfl, rfl⟩

end Token

/-! ## Scans -/

namespace Scan

open Token (Cuts Piece)

variable {text : String} {s : Scan} {p : Piece} {cs : List Char}

/-- A scan has come to where the rest of a text begins. It is on the line of this place, and so is
what it has found of the place where it ends. -/
structure Along (text : String) (s : Scan) (cs : List Char) : Prop where
  rest : cs = text.toList.drop s.offset
  line : s.line = lineAt text s.offset
  tokens : ∀ t ∈ s.tokens, t.Stands text
  issues : ∀ i ∈ s.issues, ∃ stretch, i.Spots text stretch ∧ EndsOn text i.line i.offset stretch

theorem along_start (text : String) : start.Along text text.toList :=
  ⟨rfl, rfl, fun _ ht => absurd ht (Array.not_mem_empty _),
    fun _ hi => absurd hi (Array.not_mem_empty _)⟩

theorem Along.read (h : s.Along text cs) (hp : p.Munches cs) :
    (s.read p).Along text (cs.drop p.text.length) := by
  have hfront : p.text <+: text.toList.drop s.offset := h.rest ▸ hp.front
  have hends : EndsOn text (s.line + p.text.count '\n') s.offset p.text :=
    ⟨hfront, by rw [h.line, Text.lineAt_add hfront]⟩
  have hrest : cs.drop p.text.length = text.toList.drop (s.offset + p.text.length) := by
    rw [h.rest, List.drop_drop]
  unfold Scan.read
  cases hfinding : p.finding with
  | nothing => exact ⟨hrest, hends.line, h.tokens, h.issues⟩
  | token kind literal =>
    refine ⟨hrest, hends.line, fun t ht => ?_, h.issues⟩
    rcases Array.mem_push.1 ht with ht | rfl
    · exact h.tokens t ht
    · exact ⟨by rwa [String.toList_ofList], fun hbreak =>
        hp.string hfinding (by rwa [String.toList_ofList] at hbreak)⟩
  | issue cause =>
    refine ⟨hrest, hends.line, h.tokens, fun i hi => ?_⟩
    rcases Array.mem_push.1 hi with hi | rfl
    · exact h.issues i hi
    · refine ⟨p.text, ?_, hends⟩
      rcases hp.issue hfinding with ⟨rfl, c, hc, htext⟩ | ⟨rfl, htext⟩
      · exact htext ▸ .character hc
      · rw [htext, h.rest]
        exact .unclosed

/-- Behind the first pieces of a text a scan has come to where the others begin. -/
theorem Along.foldl {front back : List Piece} (hps : Cuts cs (front ++ back))
    (h : s.Along text cs) :
    (front.foldl Scan.read s).Along text (back.map Piece.text).flatten := by
  induction front generalizing s cs with
  | nil =>
    rw [List.nil_append] at hps
    rwa [hps.flatten]
  | cons p front ih =>
    obtain ⟨hp, hps⟩ := hps.head
    exact ih hps (h.read hp)

theorem along_ofText (text : String) : (ofText text).Along text [] := by
  have hcuts : Cuts text.toList (Token.pieces text.toList ++ []) :=
    Token.cuts_iff.2 (List.append_nil _)
  exact Along.foldl hcuts (along_start text)

/-- **Tokens** end on their lines, and only strings have line breaks in them. -/
theorem stands_listing (text : String) : ∀ t ∈ (ofText text).listing, t.Stands text := by
  have halong := along_ofText text
  intro t ht
  rcases Array.mem_push.1 ht with ht | rfl
  · exact halong.tokens t ht
  · exact ⟨⟨List.nil_prefix, halong.line⟩, fun hbreak => absurd hbreak List.not_mem_nil⟩

/-- A token of a text that is no string is on the line of its offset. -/
theorem line_eq_of_mem {t : Token} (ht : t ∈ (ofText text).tokens) (hkind : t.kind ≠ .string) :
    t.line = lineAt text t.offset :=
  (stands_listing text t (Array.mem_push.2 (.inl ht))).line_eq hkind

/-- **Issues** of a scan end on their lines. -/
theorem spots_issues (text : String) : ∀ i ∈ (ofText text).issues, ∃ stretch,
    i.Spots text stretch ∧ EndsOn text i.line i.offset stretch := (along_ofText text).issues

end Scan

end Scriptlet

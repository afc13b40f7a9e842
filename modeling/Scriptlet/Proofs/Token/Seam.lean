import Scriptlet.Token.Scan

/-!
# Texts one below the other

When two texts are joined by a line break, and every string of the first is closed, both are cut as
they are by themselves (`Token.pieces_seam`). No rule but that of a string without its closing quote
reaches over the line break, and such a string is an issue. So the tokens and the issues of the
second text are found again, only further down (`Scan.ofText_lineBreak`), and so it is with any
number of texts that are without issues (`Scan.ofText_join`).

The only state of a scan is its place. That what it finds moves with the place is
`Scan.read_behind`, for one piece.
-/

namespace Scriptlet

namespace Token

namespace Rule

variable {cs : List Char}

/-! ## No rule takes more than there is -/

theorem run_le_length (p : Char → Bool) (cs : List Char) : run p cs ≤ cs.length :=
  (List.takeWhile_sublist p).length_le

theorem bodySpan_le_length (cs : List Char) : bodySpan cs ≤ cs.length := by
  fun_induction bodySpan cs with
  | case1 => exact Nat.le_refl 0
  | case2 _ _ ih => exact Nat.add_le_add_right ih 2
  | case3 => exact Nat.zero_le _
  | case4 _ _ _ _ ih => exact Nat.succ_le_succ ih

theorem numberSpan_le_length (cs : List Char) : numberSpan cs ≤ cs.length := by
  have hwhole := run_le_length Char.isDigit cs
  unfold numberSpan
  dsimp only
  split
  · exact Nat.zero_le _
  · split
    · next rest heq =>
      have hplaces := run_le_length Char.isDigit rest
      have hlen := congrArg List.length heq
      rw [List.length_drop, List.length_cons] at hlen
      split <;> omega
    · exact hwhole

/-- What stands behind the body of a string is still part of the text. -/
theorem bodySpan_lt_length {c : Char} {rest : List Char}
    (h : cs.drop (bodySpan cs) = c :: rest) : bodySpan cs < cs.length := by
  have hlen := congrArg List.length h
  rw [List.length_drop, List.length_cons] at hlen
  omega

theorem span_le_length (rule : Rule) (cs : List Char) : rule.span cs ≤ cs.length := by
  fun_cases Rule.span rule cs with
  | case1 => exact run_le_length _ _
  | case2 rest => exact Nat.add_le_add_right (run_le_length _ rest) 2
  | case6 => exact Nat.le_add_left 2 _
  | case9 => exact numberSpan_le_length _
  | case10 _ rest => exact Nat.succ_le_succ (run_le_length _ rest)
  | case12 rest _ _ h | case14 rest _ _ h => exact Nat.succ_le_succ (bodySpan_lt_length h)
  | case15 rest => exact Nat.succ_le_succ (bodySpan_le_length rest)
  | case5 | case8 | case11 | case13 | case17 => exact Nat.zero_le _
  | case3 | case4 | case7 | case16 => exact Nat.le_add_left 1 _

theorem longest_le_length (cs : List Char) (rules : List Rule) :
    (longest cs rules).2 ≤ cs.length := by
  induction rules with
  | nil => exact Nat.zero_le _
  | cons rule rest ih =>
    simp only [longest]
    split
    · exact ih
    · exact span_le_length rule cs

theorem best_le_length (cs : List Char) : (best cs).2 ≤ cs.length := longest_le_length cs all

/-! ## No rule but one reaches over a line break -/

theorem run_seam {p : Char → Bool} (hp : p '\n' = false) (cs below : List Char) :
    run p (cs ++ '\n' :: below) = run p cs := by
  induction cs with
  | nil => simp [run, hp]
  | cons c rest ih =>
    unfold run at ih ⊢
    rw [List.cons_append, List.takeWhile_cons, List.takeWhile_cons]
    split
    · exact congrArg (· + 1) ih
    · rfl

theorem numberSpan_seam (cs below : List Char) :
    numberSpan (cs ++ '\n' :: below) = numberSpan cs := by
  unfold numberSpan
  dsimp only
  rw [run_seam (by decide), List.drop_append_of_le_length (run_le_length ..)]
  congr 1
  cases cs.drop (run Char.isDigit cs) with
  | nil => rfl
  | cons c rest =>
    by_cases h : c = '.'
    · rw [h, List.cons_append]
      simp only [run_seam (show Char.isDigit '\n' = false by decide)]
    · simp [h]

/-- Behind the body of a string is the quote that closes it. -/
def Closes (cs : List Char) : Prop := ∃ rest, cs.drop (bodySpan cs) = '"' :: rest

theorem bodySpan_cons {c : Char} (hquote : c ≠ '"') (hslash : c ≠ '\\') (rest : List Char) :
    bodySpan (c :: rest) = bodySpan rest + 1 := by simp [bodySpan, hquote, hslash]

theorem bodySpan_seam (h : Closes cs) (below : List Char) :
    bodySpan (cs ++ below) = bodySpan cs ∧ Closes (cs ++ below) := by
  unfold Closes at h ⊢
  obtain ⟨rest', h⟩ := h
  fun_induction bodySpan cs with
  | case1 => cases h
  | case2 c rest ih =>
    simp only [List.cons_append, bodySpan, List.drop_succ_cons] at h ih ⊢
    obtain ⟨hspan, hclosed⟩ := ih h
    exact ⟨congrArg (· + 2) hspan, hclosed⟩
  | case3 c rest hslash hc =>
    obtain ⟨rfl, -⟩ := List.cons.inj h
    simp [bodySpan]
  | case4 c rest hslash hc ih =>
    rw [not_or] at hc
    rw [List.drop_succ_cons] at h
    obtain ⟨hspan, hclosed⟩ := ih h
    rw [List.cons_append, bodySpan_cons hc.1 hc.2, List.drop_succ_cons]
    exact ⟨congrArg (· + 1) hspan, hclosed⟩

theorem span_seam (hne : cs ≠ []) (hclosed : ∀ rest, cs = '"' :: rest → Closes rest)
    (below : List Char) (rule : Rule) : rule.span (cs ++ '\n' :: below) = rule.span cs := by
  obtain ⟨c, rest, rfl⟩ := List.exists_cons_of_ne_nil hne
  rw [List.cons_append]
  cases rule with
  | blanks => exact run_seam rfl (c :: rest) below
  | comment =>
    cases rest with
    | nil => by_cases h : c = '/' <;> simp [span, h]
    | cons d rest =>
      by_cases hc : c = '/'
      · by_cases hd : d = '/'
        · rw [hc, hd]
          exact congrArg (· + 2) (run_seam rfl rest below)
        · simp [span, hd]
      · simp [span, hc]
  | lineBreak => by_cases h : c = '\n' <;> simp [span, h]
  | punctuation => rfl
  | relation =>
    cases rest with
    | nil => rfl
    | cons d rest => by_cases h : d = '=' <;> simp [span, h]
  | number => exact numberSpan_seam (c :: rest) below
  | word =>
    simp only [span]
    rw [run_seam rfl]
  | closedString | openString =>
    by_cases h : c = '"'
    · subst h
      obtain ⟨hspan, after', hafter'⟩ := bodySpan_seam (hclosed rest rfl) ('\n' :: below)
      obtain ⟨after, hafter⟩ := hclosed rest rfl
      rw [hspan] at hafter'
      simp [span, hspan, hafter, hafter']
    · simp [span, h]
  | stray => rfl

/-! ## The rule that applies -/

theorem longest_congr {cs' : List Char} (h : ∀ rule : Rule, rule.span cs' = rule.span cs)
    (rules : List Rule) : longest cs' rules = longest cs rules := by
  induction rules with
  | nil => rfl
  | cons rule rest ih => simp only [longest, h, ih]

/-- Rules that match less than another one do not apply. -/
theorem longest_append {front rest : List Rule}
    (h : ∀ rule ∈ front, rule.span cs < (longest cs rest).2) :
    longest cs (front ++ rest) = longest cs rest := by
  induction front with
  | nil => rfl
  | cons rule front ih =>
    obtain ⟨hrule, hfront⟩ := List.forall_mem_cons.1 h
    rw [List.cons_append, longest, ih hfront]
    exact if_pos hrule

/-- A string that is not closed is cut as such. -/
theorem best_of_open {rest : List Char} (h : ¬Closes rest) :
    (best ('"' :: rest)).1 = openString := by
  have hopen : 1 ≤ openString.span ('"' :: rest) := by
    simp only [span]
    split <;> omega
  have hclosed : closedString.span ('"' :: rest) = 0 := by
    simp only [span]
    split
    · next after hafter => exact absurd ⟨after, hafter⟩ h
    · rfl
  have hlast : longest ('"' :: rest) [openString, stray] =
      (openString, openString.span ('"' :: rest)) := by
    show (if openString.span ('"' :: rest) < 1 then _ else _) = _
    rw [if_neg (Nat.not_lt.2 hopen)]
  have hothers : ∀ rule ∈ [blanks, comment, lineBreak, punctuation, relation, number, word,
      closedString], rule.span ('"' :: rest) = 0 := by
    simp only [List.forall_mem_cons]
    exact ⟨rfl, rfl, rfl, rfl, rfl, rfl, rfl, hclosed, fun _ => nofun⟩
  have hall : all = [blanks, comment, lineBreak, punctuation, relation, number, word,
      closedString] ++ [openString, stray] := rfl
  unfold best
  rw [hall, longest_append, hlast]
  intro rule hrule
  rw [hlast, hothers rule hrule]
  exact hopen

theorem best_lineBreak (below : List Char) : best ('\n' :: below) = (lineBreak, 1) := by
  have hspan : ∀ rule : Rule, rule.span ('\n' :: below) =
      if rule = lineBreak ∨ rule = stray then 1 else 0 := by
    intro rule
    cases rule <;> rfl
  simp [best, all, longest, hspan]

end Rule

/-! ## Pieces -/

theorem firstPiece_length_le (cs : List Char) : (firstPiece cs).text.length ≤ cs.length := by
  have hlen := congrArg List.length (firstPiece_append_drop cs)
  rw [List.length_append] at hlen
  omega

theorem firstPiece_seam {cs : List Char} (hne : cs ≠ []) (h : (firstPiece cs).rule ≠ .openString)
    (below : List Char) : firstPiece (cs ++ '\n' :: below) = firstPiece cs := by
  have hrule : (firstPiece cs).rule = (Rule.best cs).1 := by simp only [firstPiece]
  rw [hrule] at h
  have hbest : Rule.best (cs ++ '\n' :: below) = Rule.best cs := by
    refine Rule.longest_congr (fun rule => Rule.span_seam hne ?_ below rule) Rule.all
    rintro rest rfl
    exact Classical.byContradiction fun hopen => h (Rule.best_of_open hopen)
  simp only [firstPiece, hbest, List.take_append_of_le_length (Rule.best_le_length cs)]

/-- **A line break parts texts** if there is no string before it that is not closed. -/
theorem pieces_seam (cs below : List Char) (h : ∀ p ∈ pieces cs, p.rule ≠ .openString) :
    pieces (cs ++ '\n' :: below) = pieces cs ++ ⟨.lineBreak, ['\n']⟩ :: pieces below := by
  induction hn : cs.length using Nat.strongRecOn generalizing cs with
  | _ n ih =>
    cases cs with
    | nil =>
      have hfirst : firstPiece ('\n' :: below) = ⟨.lineBreak, ['\n']⟩ := by
        simp [firstPiece, Rule.best_lineBreak]
      rw [List.nil_append, pieces_cons, pieces_nil, hfirst]
      rfl
    | cons c rest =>
      have hpos := firstPiece_length_pos c rest
      have hlt : ((c :: rest).drop (firstPiece (c :: rest)).text.length).length < n := by
        simp only [List.length_drop, List.length_cons] at hn ⊢
        omega
      rw [pieces_cons, List.forall_mem_cons] at h
      have hfirst := firstPiece_seam (List.cons_ne_nil c rest) h.1 below
      rw [List.cons_append, pieces_cons, ← List.cons_append, hfirst,
        List.drop_append_of_le_length (firstPiece_length_le _), ih _ hlt _ h.2 rfl,
        pieces_cons c rest, List.cons_append]

/-- Nothing is wrong with a piece. -/
def Piece.Clean (p : Piece) : Prop := ∀ cause, p.finding ≠ .issue cause

theorem Piece.Clean.closed {p : Piece} (h : p.Clean) : p.rule ≠ .openString := by
  intro hrule
  refine h .unterminatedString ?_
  unfold finding
  rw [hrule]

/-- A token so many lines and characters further on. -/
def moved (lines characters : Nat) (t : Token) : Token :=
  { t with line := t.line + lines, offset := t.offset + characters }

/-- A token of a text when the text stands below these texts. -/
def below (above : List String) (t : Token) : Token :=
  above.foldr (fun text => moved (text.toList.count '\n' + 1) (text.toList.length + 1)) t

variable (above : List String) (t : Token)

@[simp]
theorem kind_below : (t.below above).kind = t.kind := by
  induction above with
  | nil => rfl
  | cons text rest ih => exact ih

@[simp]
theorem lexeme_below : (t.below above).lexeme = t.lexeme := by
  induction above with
  | nil => rfl
  | cons text rest ih => exact ih

@[simp]
theorem literal_below : (t.below above).literal = t.literal := by
  induction above with
  | nil => rfl
  | cons text rest ih => exact ih

end Token

/-- An issue so many lines and characters further on. -/
def Issue.moved (lines characters : Nat) (i : Issue) : Issue :=
  { i with line := i.line + lines, offset := i.offset + characters }

/-! ## Scans -/

namespace Scan

open Token (Piece pieces)

/-- What is found in a text, so many lines and characters further on, behind these tokens. -/
def under (front : Array Token) (lines characters : Nat) (s : Scan) : Scan :=
  ⟨s.line + lines, s.offset + characters, front ++ s.tokens.map (Token.moved lines characters),
    s.issues⟩

/-- What is found in a text, so many lines and characters further on, behind what was found
before. -/
def behind (s front : Scan) (lines characters : Nat) : Scan :=
  { s.under front.tokens lines characters with
    issues := front.issues ++ s.issues.map (Issue.moved lines characters) }

theorem read_behind (s front : Scan) (lines characters : Nat) (p : Piece) :
    (s.behind front lines characters).read p = (s.read p).behind front lines characters := by
  have hline : ∀ n, s.line + lines + n = s.line + n + lines := fun n => by omega
  have hoffset : ∀ n, s.offset + characters + n = s.offset + n + characters := fun n => by omega
  unfold read
  cases p.finding with
  | nothing => simp [behind, under, hline, hoffset]
  | token kind literal => simp [behind, under, Token.moved, hline, hoffset]
  | issue cause => simp [behind, under, Issue.moved, Issue.spot, hline, hoffset]

theorem foldl_read_behind (s front : Scan) (lines characters : Nat) (ps : List Piece) :
    ps.foldl read (s.behind front lines characters) =
      (ps.foldl read s).behind front lines characters := by
  induction ps generalizing s with
  | nil => rfl
  | cons p ps ih => rw [List.foldl_cons, List.foldl_cons, read_behind, ih]

/-- A scan without issues has come across clean pieces only. -/
theorem clean_of_foldl {ps : List Piece} {s : Scan} (h : (ps.foldl read s).issues = #[]) :
    s.issues = #[] ∧ ∀ p ∈ ps, p.Clean := by
  induction ps generalizing s with
  | nil => exact ⟨h, nofun⟩
  | cons p ps ih =>
    obtain ⟨hissues, hps⟩ := ih h
    unfold read at hissues
    cases hp : p.finding with
    | nothing | token kind literal =>
      simp only [hp] at hissues
      refine ⟨hissues, List.forall_mem_cons.2 ⟨fun cause hcause => ?_, hps⟩⟩
      rw [hp] at hcause
      cases hcause
    | issue cause => simp [hp] at hissues

theorem clean_of_ofText {text : String} (h : (ofText text).issues = #[]) :
    ∀ p ∈ pieces text.toList, p.Clean := (clean_of_foldl h).2

/-- How far a scan has come. -/
theorem foldl_read_place (ps : List Piece) (s : Scan) :
    (ps.foldl read s).line = s.line + ((ps.map Piece.text).flatten).count '\n' ∧
      (ps.foldl read s).offset = s.offset + ((ps.map Piece.text).flatten).length := by
  induction ps generalizing s with
  | nil => exact ⟨rfl, rfl⟩
  | cons p ps ih =>
    obtain ⟨hline, hoffset⟩ := ih (s.read p)
    have hread : (s.read p).line = s.line + p.text.count '\n' ∧
        (s.read p).offset = s.offset + p.text.length := by
      unfold read
      cases p.finding <;> exact ⟨rfl, rfl⟩
    rw [List.foldl_cons, hline, hoffset, hread.1, hread.2, List.map_cons, List.flatten_cons,
      List.count_append, List.length_append]
    omega

theorem ofText_place (text : String) : (ofText text).line = 1 + text.toList.count '\n' ∧
    (ofText text).offset = text.toList.length := by
  have h := foldl_read_place (pieces text.toList) start
  rw [Token.flatten_pieces] at h
  exact ⟨h.1, h.2.trans (Nat.zero_add _)⟩

theorem mem_issues_foldl {i : Issue} (ps : List Piece) {s : Scan} (h : i ∈ s.issues) :
    i ∈ (ps.foldl read s).issues := by
  induction ps generalizing s with
  | nil => exact h
  | cons p ps ih =>
    refine ih ?_
    unfold read
    cases p.finding with
    | nothing | token kind literal => exact h
    | issue cause => exact Array.mem_push.2 (.inl h)

/-- Where no issue says so, every string was closed. -/
theorem closed_of_foldl {ps : List Piece} {s : Scan}
    (h : ∀ i ∈ (ps.foldl read s).issues, i.cause ≠ .unterminatedString) :
    ∀ p ∈ ps, p.rule ≠ .openString := by
  induction ps generalizing s with
  | nil => exact nofun
  | cons p ps ih =>
    refine List.forall_mem_cons.2 ⟨fun hrule => ?_, ih h⟩
    have hp : p.finding = .issue .unterminatedString := by
      unfold Piece.finding
      rw [hrule]
    have hread : .spot (s.line + p.text.count '\n') s.offset .unterminatedString ∈
        (s.read p).issues := by
      unfold read
      rw [hp]
      exact Array.mem_push_self
    exact h _ (mem_issues_foldl ps hread) rfl

/-- The scan of two texts with a line break between them. -/
theorem ofText_seam {text : String} (h : ∀ p ∈ pieces text.toList, p.rule ≠ .openString)
    (text' : String) : ofText (text ++ "\n" ++ text') = (ofText text').behind (ofText text)
      (text.toList.count '\n' + 1) (text.toList.length + 1) := by
  have hsplit : (text ++ "\n" ++ text').toList = text.toList ++ '\n' :: text'.toList := by simp
  have hread : (ofText text).read ⟨.lineBreak, ['\n']⟩ = start.behind (ofText text)
      (text.toList.count '\n' + 1) (text.toList.length + 1) := by
    show Scan.mk ((ofText text).line + 1) ((ofText text).offset + 1) _ _ = _
    rw [(ofText_place text).1, (ofText_place text).2]
    simp [behind, under, start, Nat.add_assoc]
  unfold ofText
  rw [hsplit, Token.pieces_seam _ _ h, List.foldl_append, List.foldl_cons]
  show List.foldl read ((ofText text).read _) _ = _
  rw [hread, foldl_read_behind]
  rfl

/-- **Scanning composes over a line break.** Below a text in which every string is closed, the
tokens and the issues of the other text are found again, only further down. -/
theorem ofText_lineBreak (text text' : String)
    (h : ∀ i ∈ (ofText text).issues, i.cause ≠ .unterminatedString) :
    (ofText (text ++ "\n" ++ text')).listing = (ofText text).listing.pop ++
        (ofText text').listing.map
          (Token.moved (text.toList.count '\n' + 1) (text.length + 1)) ∧
      (ofText (text ++ "\n" ++ text')).issues = (ofText text).issues ++
        (ofText text').issues.map
          (Issue.moved (text.toList.count '\n' + 1) (text.length + 1)) := by
  rw [ofText_seam (closed_of_foldl h), String.length_toList]
  simp [listing, behind, under, stop, Token.moved]

/-- An operator at the end of a text does not grow, a point behind a number is left to itself, and
a string over two lines is closed. -/
theorem ofText_lineBreak_operator :
    (∀ i ∈ (ofText "\"\n\" 1.@ !").issues, i.cause ≠ .unterminatedString) ∧
      (ofText ("\"\n\" 1.@ !" ++ "\n" ++ "= # \"")).listing =
        (ofText "\"\n\" 1.@ !").listing.pop ++
          (ofText "= # \"").listing.map (Token.moved 2 10) ∧
      (ofText ("\"\n\" 1.@ !" ++ "\n" ++ "= # \"")).issues =
        #[.spot 2 6 .strayCharacter, .spot 3 12 .strayCharacter,
          .spot 3 14 .unterminatedString] := by
  have hclosed : ∀ i ∈ (ofText "\"\n\" 1.@ !").issues, i.cause ≠ .unterminatedString := by
    decide +kernel
  have hlines : "\"\n\" 1.@ !".toList.count '\n' + 1 = 2 := by decide +kernel
  have hcharacters : "\"\n\" 1.@ !".length + 1 = 10 := by decide +kernel
  obtain ⟨htokens, hissues⟩ := ofText_lineBreak "\"\n\" 1.@ !" "= # \"" hclosed
  rw [hlines, hcharacters] at htokens hissues
  refine ⟨hclosed, htokens, hissues.trans ?_⟩
  decide +kernel

end Scan

/-! ## Any number of texts -/

/-- Below several texts a token stands as below the texts joined. -/
theorem Token.below_eq_moved {above : List String} (hne : above ≠ []) (t : Token) :
    t.below above = t.moved (("\n".intercalate above).toList.count '\n' + 1)
      (("\n".intercalate above).toList.length + 1) := by
  induction above with
  | nil => exact absurd rfl hne
  | cons text rest ih =>
    cases rest with
    | nil => simp [below]
    | cons text' rest =>
      show (t.below (text' :: rest)).moved _ _ = _
      rw [ih (List.cons_ne_nil _ _), String.intercalate_cons_of_ne_nil (List.cons_ne_nil _ _)]
      simp [moved]
      omega

/-- No texts have no tokens. -/
theorem Scan.ofText_nil : ofText ("\n".intercalate []) = start := by
  unfold ofText
  rw [String.intercalate_nil, String.toList_empty, Token.pieces_nil]
  rfl

/-- **Texts are scanned one below the other.** When they are joined, the tokens of each are found
again, moved below the texts above. -/
theorem Scan.ofText_join {above : List String} {text : String}
    (ha : (ofText ("\n".intercalate above)).issues = #[]) (h : (ofText text).issues = #[]) :
    (ofText ("\n".intercalate (above ++ [text]))).issues = #[] ∧
      (ofText ("\n".intercalate (above ++ [text]))).tokens =
        (ofText ("\n".intercalate above)).tokens ++
          (ofText text).tokens.map (Token.below above) := by
  by_cases hne : above = []
  · subst hne
    have hbelow : Token.below [] = id := rfl
    rw [ofText_nil, hbelow, Array.map_id, List.nil_append, String.intercalate_singleton]
    exact ⟨h, (Array.empty_append).symm⟩
  · have hbelow := funext (Token.below_eq_moved hne)
    rw [String.intercalate_append_of_ne_nil hne (List.cons_ne_nil _ _),
      String.intercalate_singleton, ofText_seam fun p hp => (clean_of_ofText ha p hp).closed,
      hbelow]
    exact ⟨by simp [behind, ha, h], rfl⟩

end Scriptlet

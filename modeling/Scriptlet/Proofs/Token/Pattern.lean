import Mathlib.Computability.Language
import Scriptlet.Proofs.Token.Seam

/-!
# The patterns of the lexical rules

A lexical rule is a regular pattern, and a scanner takes the longest prefix of a text that matches
it. Here the patterns are languages (`Rule.pattern`), and `Rule.span` is shown to be the length of
the longest prefix that belongs to the language of the rule:

* what a rule takes, if it takes anything, matches its pattern (`Rule.take_span_mem`), and
* no longer prefix does (`Rule.length_le_span`).

Most patterns are runs of a class of characters. Two need a look ahead. The point of a number counts
only if a digit follows. And the body of a string cannot be cut in two ways: a backslash takes the
character behind it along, so a word of `Rule.body` ends where `Rule.bodySpan` says, or before
(`Rule.bodySpan_append`).
-/

namespace Scriptlet.Token.Rule

open scoped Computability

/-! ## Patterns -/

/-- The words of one character of a class. -/
def oneOf (p : Char → Bool) : Language Char := {w | ∃ c, p c = true ∧ w = [c]}

/-- The words of one character, whatever it is. -/
def anyOne : Language Char := oneOf fun _ => true

/-- This word alone. -/
def only (w : List Char) : Language Char := {w}

/-- One word of a language or several. -/
def several (l : Language Char) : Language Char := l * l∗

/-- What may stand between the quotes of a string: characters other than quotes and backslashes, and
backslashes each with the character behind it. -/
def body : Language Char := (oneOf (fun c => c ≠ '"' ∧ c ≠ '\\') + only ['\\'] * anyOne)∗

/-- The language of a rule. -/
def pattern : Rule → Language Char
  | blanks => several (oneOf isGap)
  | comment => only ['/', '/'] * (oneOf (· != '\n'))∗
  | lineBreak => only ['\n']
  | punctuation => oneOf isPunctuation
  | relation => oneOf isRelation * (1 + only ['='])
  | number => several (oneOf Char.isDigit) * (1 + only ['.'] * several (oneOf Char.isDigit))
  | word => oneOf startsWord * (oneOf continuesWord)∗
  | closedString => only ['"'] * body * only ['"']
  | openString => only ['"'] * body * (1 + only ['\\'])
  | stray => anyOne

variable {p : Char → Bool} {c : Char} {w cs rest : List Char}

/-! ## Words of the patterns -/

theorem mem_oneOf : w ∈ oneOf p ↔ ∃ c, p c = true ∧ w = [c] := Iff.rfl

theorem mem_only {v : List Char} : w ∈ only v ↔ w = v := Iff.rfl

theorem mem_maybe {l : Language Char} : w ∈ 1 + l ↔ w = [] ∨ w ∈ l := by
  rw [Language.mem_add, Language.mem_one]

theorem append_mem_kstar {l : Language Char} {v : List Char} (hw : w ∈ l) (hv : v ∈ l∗) :
    w ++ v ∈ l∗ := mul_kstar_le_kstar (a := l) (Language.append_mem_mul hw hv)

theorem mem_kstar_oneOf : w ∈ (oneOf p)∗ ↔ ∀ c ∈ w, p c = true := by
  constructor
  · intro h c hc
    obtain ⟨ws, rfl, hws⟩ := Language.mem_kstar.1 h
    obtain ⟨v, hv, hcv⟩ := List.mem_flatten.1 hc
    obtain ⟨d, hd, rfl⟩ := hws v hv
    rwa [List.mem_singleton.1 hcv]
  · intro h
    induction w with
    | nil => exact Language.nil_mem_kstar _
    | cons c w ih =>
      obtain ⟨hc, hw⟩ := List.forall_mem_cons.1 h
      exact append_mem_kstar (mem_oneOf.2 ⟨c, hc, rfl⟩) (ih hw)

theorem mem_several_oneOf : w ∈ several (oneOf p) ↔ w ≠ [] ∧ ∀ c ∈ w, p c = true := by
  constructor
  · intro h
    obtain ⟨_, ⟨c, hc, rfl⟩, v, hv, rfl⟩ := Language.mem_mul.1 h
    exact ⟨List.cons_ne_nil _ _, List.forall_mem_cons.2 ⟨hc, mem_kstar_oneOf.1 hv⟩⟩
  · rintro ⟨hne, hw⟩
    obtain ⟨c, v, rfl⟩ := List.exists_cons_of_ne_nil hne
    obtain ⟨hc, hv⟩ := List.forall_mem_cons.1 hw
    exact Language.append_mem_mul (mem_oneOf.2 ⟨c, hc, rfl⟩) (mem_kstar_oneOf.2 hv)

/-- A number is a run of digits, and maybe a point and another run. -/
theorem mem_number : w ∈ number.pattern ↔ ∃ whole, (whole ≠ [] ∧ ∀ c ∈ whole, c.isDigit = true) ∧
    (w = whole ∨ ∃ places, (places ≠ [] ∧ ∀ c ∈ places, c.isDigit = true) ∧
      w = whole ++ '.' :: places) := by
  simp only [pattern, Language.mem_mul, mem_maybe, mem_only, mem_several_oneOf]
  constructor
  · rintro ⟨whole, hwhole, _, rfl | ⟨_, rfl, places, hplaces, rfl⟩, rfl⟩
    · exact ⟨whole, hwhole, .inl (List.append_nil _)⟩
    · exact ⟨whole, hwhole, .inr ⟨places, hplaces, rfl⟩⟩
  · rintro ⟨whole, hwhole, rfl | ⟨places, hplaces, rfl⟩⟩
    · exact ⟨w, hwhole, [], .inl rfl, List.append_nil _⟩
    · exact ⟨whole, hwhole, _, .inr ⟨_, rfl, places, hplaces, rfl⟩, rfl⟩

theorem mem_closedString : w ∈ closedString.pattern ↔ ∃ v ∈ body, w = '"' :: (v ++ ['"']) := by
  simp only [pattern, Language.mem_mul, mem_only]
  constructor
  · rintro ⟨_, ⟨_, rfl, v, hv, rfl⟩, _, rfl, rfl⟩
    exact ⟨v, hv, rfl⟩
  · rintro ⟨v, hv, rfl⟩
    exact ⟨_, ⟨_, rfl, v, hv, rfl⟩, _, rfl, rfl⟩

theorem mem_openString : w ∈ openString.pattern ↔
    ∃ v ∈ body, w = '"' :: v ∨ w = '"' :: (v ++ ['\\']) := by
  simp only [pattern, Language.mem_mul, mem_maybe, mem_only]
  constructor
  · rintro ⟨_, ⟨_, rfl, v, hv, rfl⟩, _, rfl | rfl, rfl⟩
    · exact ⟨v, hv, .inl (List.append_nil _)⟩
    · exact ⟨v, hv, .inr rfl⟩
  · rintro ⟨v, hv, rfl | rfl⟩
    · exact ⟨_, ⟨_, rfl, v, hv, rfl⟩, [], .inl rfl, List.append_nil _⟩
    · exact ⟨_, ⟨_, rfl, v, hv, rfl⟩, _, .inr rfl, rfl⟩

/-! ## Bodies of strings -/

theorem nil_mem_body : [] ∈ body := Language.nil_mem_kstar _

theorem plain_mem_body (hquote : c ≠ '"') (hslash : c ≠ '\\') (hw : w ∈ body) : c :: w ∈ body := by
  have hc : [c] ∈ oneOf (fun c => c ≠ '"' ∧ c ≠ '\\') := ⟨c, by simp [hquote, hslash], rfl⟩
  exact append_mem_kstar ((Language.mem_add ..).2 (.inl hc)) hw

theorem escape_mem_body (c : Char) (hw : w ∈ body) : '\\' :: c :: w ∈ body := by
  have hc : ['\\', c] ∈ only ['\\'] * anyOne :=
    Language.append_mem_mul (mem_only.2 rfl) (mem_oneOf.2 ⟨c, rfl, rfl⟩)
  exact append_mem_kstar ((Language.mem_add ..).2 (.inr hc)) hw

/-- A body is read from the front, by characters and escapes. -/
@[elab_as_elim]
theorem body_induction {motive : (w : List Char) → w ∈ body → Prop}
    (nil : motive [] nil_mem_body)
    (plain : ∀ c w (hquote : c ≠ '"') (hslash : c ≠ '\\') (hw : w ∈ body), motive w hw →
      motive (c :: w) (plain_mem_body hquote hslash hw))
    (escape : ∀ c w (hw : w ∈ body), motive w hw → motive ('\\' :: c :: w) (escape_mem_body c hw))
    {w : List Char} (hw : w ∈ body) : motive w hw := by
  obtain ⟨ws, rfl, hws⟩ := Language.mem_kstar.1 hw
  induction ws with
  | nil => exact nil
  | cons v ws ih =>
    obtain ⟨hv, hrest⟩ := List.forall_mem_cons.1 hws
    have hbody : ws.flatten ∈ body := Language.join_mem_kstar hrest
    rcases (Language.mem_add ..).1 hv with ⟨c, hc, rfl⟩ | ⟨_, rfl, _, ⟨c, -, rfl⟩, rfl⟩
    · rw [decide_eq_true_iff] at hc
      exact plain c _ hc.1 hc.2 hbody (ih hrest hbody)
    · exact escape c _ hbody (ih hrest hbody)

/-- The body of a string goes on behind each of its words. -/
theorem bodySpan_append (hw : w ∈ body) (rest : List Char) :
    bodySpan (w ++ rest) = w.length + bodySpan rest := by
  induction hw using body_induction with
  | nil => exact (Nat.zero_add _).symm
  | plain c w hquote hslash _ ih =>
    rw [List.cons_append, bodySpan_cons hquote hslash, ih, List.length_cons]
    omega
  | escape c w _ ih =>
    show bodySpan (w ++ rest) + 2 = _
    rw [ih, List.length_cons, List.length_cons]
    omega

theorem take_bodySpan_mem (cs : List Char) : cs.take (bodySpan cs) ∈ body := by
  fun_induction bodySpan cs with
  | case1 => exact nil_mem_body
  | case2 c rest ih => exact escape_mem_body c ih
  | case3 => exact nil_mem_body
  | case4 c rest _ hc ih =>
    rw [not_or] at hc
    exact plain_mem_body hc.1 hc.2 ih

/-! ## Runs -/

/-- What is not in a class is in no word of the class. -/
theorem not_mem_of_forall (hc : p c = false) (hw : ∀ d ∈ w, p d = true) : c ∉ w := by
  intro hmem
  rw [hw c hmem] at hc
  cases hc

theorem length_le_run (h : w <+: cs) (hw : ∀ c ∈ w, p c = true) : w.length ≤ run p cs := by
  induction w generalizing cs with
  | nil => exact Nat.zero_le _
  | cons c w ih =>
    obtain ⟨hc, hrest⟩ := List.forall_mem_cons.1 hw
    obtain ⟨rest, rfl⟩ := h
    have hrun : run p (c :: (w ++ rest)) = run p (w ++ rest) + 1 := by simp [run, hc]
    rw [List.cons_append, hrun]
    exact Nat.succ_le_succ (ih (List.prefix_append ..) hrest)

theorem of_mem_take_run (h : c ∈ cs.take (run p cs)) : p c = true := by
  have htake : cs.take (run p cs) = cs.takeWhile p :=
    (List.prefix_iff_eq_take.1 (List.takeWhile_prefix p)).symm
  rw [htake] at h
  exact List.all_eq_true.1 List.all_takeWhile c h

theorem run_append (hw : ∀ c ∈ w, p c = true) (hc : p c = false) (rest : List Char) :
    run p (w ++ c :: rest) = w.length := by
  induction w with
  | nil => simp [run, hc]
  | cons d w ih =>
    obtain ⟨hd, hw⟩ := List.forall_mem_cons.1 hw
    have hrun : run p (d :: (w ++ c :: rest)) = run p (w ++ c :: rest) + 1 := by simp [run, hd]
    rw [List.cons_append, hrun, ih hw, List.length_cons]

theorem take_run_ne_nil (h : run p cs ≠ 0) : cs.take (run p cs) ≠ [] := by
  intro heq
  have hlen := congrArg List.length heq
  rw [List.length_take, Nat.min_eq_left (run_le_length p cs)] at hlen
  exact h hlen

/-- A character behind a prefix, and what is taken behind it. -/
theorem take_add_of_drop {n : Nat} (h : cs.drop n = c :: rest) (k : Nat) :
    cs.take (n + (k + 1)) = cs.take n ++ c :: rest.take k := by
  rw [List.take_add, h, List.take_succ_cons]

/-! ## A rule takes the longest word of its pattern -/

theorem length_le_numberSpan (hw : w ∈ number.pattern) (h : w <+: cs) :
    w.length ≤ numberSpan cs := by
  obtain ⟨whole, ⟨hne, hwhole⟩, hcases⟩ := mem_number.1 hw
  have hpos : 0 < whole.length := List.length_pos_iff.2 hne
  unfold numberSpan
  dsimp only
  rcases hcases with rfl | ⟨places, ⟨hne', hplaces⟩, rfl⟩
  · have hrun := length_le_run h hwhole
    rw [if_neg (by omega)]
    split
    · split <;> omega
    · exact hrun
  · have hpos' : 0 < places.length := List.length_pos_iff.2 hne'
    obtain ⟨rest, rfl⟩ := h
    rw [List.append_assoc, List.cons_append, run_append hwhole (by decide), if_neg (by omega),
      List.drop_left]
    have hrun := length_le_run (List.prefix_append places rest) hplaces
    show _ ≤ if run Char.isDigit (places ++ rest) = 0 then _ else _
    rw [if_neg (by omega), List.length_append, List.length_cons]
    omega

theorem take_numberSpan_mem (h : 0 < numberSpan cs) :
    cs.take (numberSpan cs) ∈ number.pattern := by
  have hwhole (hne : run Char.isDigit cs ≠ 0) : cs.take (run Char.isDigit cs) ≠ [] ∧
      ∀ c ∈ cs.take (run Char.isDigit cs), c.isDigit = true :=
    ⟨take_run_ne_nil hne, fun c => of_mem_take_run⟩
  rw [mem_number]
  revert h
  fun_cases numberSpan cs with
  | case1 => exact fun h => absurd h (Nat.lt_irrefl 0)
  | case2 whole hne => exact fun _ => ⟨_, hwhole hne, .inl rfl⟩
  | case3 whole hne rest hdrop places hplaces =>
    have hnumber := take_add_of_drop hdrop places
    rw [Nat.add_comm places 1, ← Nat.add_assoc] at hnumber
    exact fun _ => ⟨_, hwhole hne, .inr ⟨rest.take places,
      ⟨take_run_ne_nil hplaces, fun c => of_mem_take_run⟩, hnumber⟩⟩
  | case4 whole hne => exact fun _ => ⟨_, hwhole hne, .inl rfl⟩

/-- **No prefix of a text that matches a rule is longer than what the rule takes.** -/
theorem length_le_span {rule : Rule} (hw : w ∈ rule.pattern) (h : w <+: cs) :
    w.length ≤ rule.span cs := by
  obtain ⟨rest, rfl⟩ := h
  cases rule with
  | blanks => exact length_le_run (List.prefix_append ..) (mem_several_oneOf.1 hw).2
  | comment =>
    obtain ⟨_, rfl, v, hv, rfl⟩ := Language.mem_mul.1 hw
    exact Nat.add_le_add_right
      (length_le_run (List.prefix_append v rest) (mem_kstar_oneOf.1 hv)) 2
  | lineBreak =>
    obtain rfl := mem_only.1 hw
    exact Nat.le_refl 1
  | punctuation =>
    obtain ⟨c, hc, rfl⟩ := mem_oneOf.1 hw
    exact (if_pos hc).ge
  | relation =>
    obtain ⟨_, ⟨c, hc, rfl⟩, v, hv, rfl⟩ := Language.mem_mul.1 hw
    rcases mem_maybe.1 hv with rfl | rfl
    · simp only [List.append_nil, List.cons_append, List.nil_append, span, hc, if_true]
      split <;> simp
    · simp [span, hc]
  | number => exact length_le_numberSpan hw (List.prefix_append ..)
  | word =>
    obtain ⟨_, ⟨c, hc, rfl⟩, v, hv, rfl⟩ := Language.mem_mul.1 hw
    have hrun := length_le_run (List.prefix_append v rest) (mem_kstar_oneOf.1 hv)
    simpa [span, hc] using hrun
  | closedString =>
    obtain ⟨v, hv, rfl⟩ := mem_closedString.1 hw
    have hspan : bodySpan (v ++ '"' :: rest) = v.length := by
      rw [bodySpan_append hv]
      simp [bodySpan]
    simp [span, hspan]
  | openString =>
    obtain ⟨v, hv, rfl | rfl⟩ := mem_openString.1 hw
    · have hspan := bodySpan_append hv rest
      simp only [span, List.cons_append]
      split
      · simp [hspan]
        omega
      · simp [hspan]
    · have hspan := bodySpan_append hv ('\\' :: rest)
      cases rest with
      | nil =>
        have hzero : bodySpan ['\\'] = 0 := rfl
        simp [span, hspan, hzero]
      | cons c rest =>
        have htwo : bodySpan ('\\' :: c :: rest) = bodySpan rest + 2 := rfl
        simp only [span, List.cons_append, List.append_assoc, List.nil_append, hspan, htwo]
        split <;> simp
  | stray =>
    obtain ⟨c, -, rfl⟩ := mem_oneOf.1 hw
    exact Nat.le_refl 1

/-- **What a rule takes matches it.** -/
theorem take_span_mem {rule : Rule} (h : 0 < rule.span cs) :
    cs.take (rule.span cs) ∈ rule.pattern := by
  revert h
  fun_cases Rule.span rule cs with
  | case1 cs => exact fun h => mem_several_oneOf.2 ⟨take_run_ne_nil h.ne', fun c => of_mem_take_run⟩
  | case2 rest =>
    intro _
    have hrest : rest.take (run (· != '\n') rest) ∈ (oneOf (· != '\n'))∗ :=
      mem_kstar_oneOf.2 fun c => of_mem_take_run
    exact Language.append_mem_mul (mem_only.2 rfl) hrest
  | case3 => exact fun _ => mem_only.2 rfl
  | case4 c tail hc => exact fun _ => mem_oneOf.2 ⟨c, hc, rfl⟩
  | case6 c hc tail =>
    exact fun _ => Language.append_mem_mul (mem_oneOf.2 ⟨c, hc, rfl⟩) (mem_maybe.2 (.inr rfl))
  | case7 c rest hc =>
    exact fun _ => Language.append_mem_mul (mem_oneOf.2 ⟨c, hc, rfl⟩) (mem_maybe.2 (.inl rfl))
  | case9 cs => exact take_numberSpan_mem
  | case10 c rest hc =>
    intro _
    have hrest : rest.take (run continuesWord rest) ∈ (oneOf continuesWord)∗ :=
      mem_kstar_oneOf.2 fun c => of_mem_take_run
    exact Language.append_mem_mul (mem_oneOf.2 ⟨c, hc, rfl⟩) hrest
  | case12 rest body tail hdrop =>
    intro _
    have htake := take_add_of_drop hdrop 0
    exact mem_closedString.2 ⟨_, take_bodySpan_mem rest, congrArg ('"' :: ·) htake⟩
  | case14 rest body tail hdrop =>
    intro _
    have htake := take_add_of_drop hdrop 0
    exact mem_openString.2 ⟨_, take_bodySpan_mem rest, .inr (congrArg ('"' :: ·) htake)⟩
  | case15 rest => exact fun _ => mem_openString.2 ⟨_, take_bodySpan_mem rest, .inl rfl⟩
  | case16 c tail => exact fun _ => mem_oneOf.2 ⟨c, rfl, rfl⟩
  | case5 | case8 | case11 | case13 | case17 => exact fun h => absurd h (Nat.lt_irrefl 0)

end Scriptlet.Token.Rule

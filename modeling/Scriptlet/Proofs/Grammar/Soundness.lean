import Scriptlet.Proofs.Grammar.Derivation
import Scriptlet.Proofs.Grammar.Reading

/-!
# What is read without an issue derives from the grammar

Every reader of the grammar gives a derivation of its phrase from the tokens it has taken, with
the tree it has built (`sound_readers`). The readers for what is nested stand for one level less,
so the induction is on the number of levels; the loops of a reader are inductions on their turns.

**Open statements.** A branch without `else` was read where no `else` was next. So what is known of
a statement that has been read is a derivation, and that no `else` is next if it is open.
-/

namespace Scriptlet.Grammar

open Reader

variable {α : Type} {n : Nat} {nested : Nested}

/-! ## Phrases that are nested -/

/-- The phrase with one level of nesting less, if there is one. -/
def Inner {P : Nat → Nat → List Token → α → Nat → Prop} (n : Nat) :
    Nat → List Token → α → Nat → Prop :=
  fun k ts a k' => ∃ m, n = m + 1 ∧ P m k ts a k'

/-- No `else` is next. -/
def NoElse (rest : List Token) : Prop := ∀ t ∈ rest.head?, t.kind ≠ .word .kwElse

/-- The tokens taken derive from a statement, and no `else` is next if it is open. -/
def BehindStatement (n : Nat) : Passage Stmt := fun rest k st rest' k' =>
  ∃ isOpen ts, rest = ts ++ rest' ∧ Statement n isOpen k ts st k' ∧
    (isOpen = true → NoElse rest')

/-- The readers read what the grammar says with less than `n` levels of nesting. -/
structure Sound (n : Nat) (nested : Nested) : Prop where
  expression : nested.expression.Gives (Behind (Inner (P := Expression) n))
  unary : nested.unary.Gives (Behind (Inner (P := Unary) n))
  statement : nested.statement.Gives fun rest k st rest' k' =>
    ∃ m, n = m + 1 ∧ BehindStatement m rest k st rest' k'
  declaration : nested.declaration.Gives fun rest k st rest' k' =>
    ∃ s, st = some s ∧ Behind (Inner (P := Declared) n) rest k s rest' k'

/-! ## Lists of entries -/

/-- Entries with commas between them, at least one. -/
inductive Separated (P : Nat → List Token → α → Nat → Prop) :
    Nat → List Token → List α → Nat → Prop
  | one {k k' : Nat} {ts : List Token} {a : α} : P k ts a k' → Separated P k ts [a] k'
  | more {k k' k'' : Nat} {comma : Token} {ts ts' : List Token} {a : α} {as : List α} :
      P k ts a k' → comma.kind = .mark .comma → Separated P k' ts' as k'' →
      Separated P k (ts ++ comma :: ts') (a :: as) k''

theorem gives_entriesFrom {what : String} {entry : Reader α}
    {P : Nat → List Token → α → Nat → Prop} (h : entry.Gives (Behind P)) :
    ∀ fuel count, (entriesFrom what entry fuel count).Gives fun rest k as rest' k' =>
      rest.length < fuel → count + as.length ≤ 255 ∧
        Behind (Separated P) rest k as rest' k' := by
  intro fuel
  induction fuel with
  | zero =>
    intro count
    exact (Gives.pure _).mono fun _ _ _ _ _ _ hlt => absurd hlt (Nat.not_lt_zero _)
  | succ fuel ih =>
    intro count
    unfold entriesFrom
    -- An entry, and more of them behind a comma.
    have hrest : (do
        let first ← entry
        if ← Reader.takes (.mark .comma) then
          return first :: (← entriesFrom what entry fuel (count + 1))
        else
          return [first]).Gives fun rest k as rest' k' =>
        rest.length < fuel + 1 → count + 1 ≤ 255 → count + as.length ≤ 255 ∧
          Behind (Separated P) rest k as rest' k' := by
      refine (h.bind fun first => Gives.ifTakes
        ((ih (count + 1)).bind fun more => Gives.pure (first :: more))
        (Gives.pure [first])).mono ?_
      rintro rest k as rest' k' ⟨first, mid, k₁, ⟨ts, rfl, hp⟩, hmore⟩ hlt hcount
      rcases hmore with ⟨comma, mid', rfl, hcomma, more, _, _, hsep, rfl, rfl, rfl⟩ |
        ⟨-, rfl, rfl, rfl⟩
      · rw [List.length_append, List.length_cons] at hlt
        obtain ⟨hlen, ts', rfl, hmore⟩ := hsep (by omega)
        rw [List.length_cons]
        exact ⟨by omega, ts ++ comma :: ts', by simp, .more hp hcomma hmore⟩
      · exact ⟨hcount, ts, rfl, .one hp⟩
    by_cases hcount : maxEntries ≤ count
    · rw [if_pos hcount]
      exact (Gives.bind Gives.complainHere (D := fun _ _ _ _ _ => False) fun _ => hrest).mono
        fun _ _ _ _ _ ⟨_, _, _, hfalse, _⟩ => hfalse.elim
    · rw [if_neg hcount]
      unfold maxEntries at hcount
      exact hrest.mono fun _ _ _ _ _ himp hroom => himp hroom (by omega)

theorem gives_entries {what : String} {entry : Reader α}
    {P : Nat → List Token → α → Nat → Prop} (h : entry.Gives (Behind P)) :
    (entries what entry).Gives fun rest k as rest' k' =>
      (as = [] ∧ rest' = rest ∧ k' = k) ∨
        (as.length ≤ 255 ∧ Behind (Separated P) rest k as rest' k') := by
  unfold entries
  refine (Gives.sees.bind (E := fun _ rest k as rest' k' =>
    (as = [] ∧ rest' = rest ∧ k' = k) ∨
      (as.length ≤ 255 ∧ Behind (Separated P) rest k as rest' k')) fun b => ?_).mono ?_
  · cases b with
    | true => exact (Gives.pure _).mono fun _ _ _ _ _ h => .inl h
    | false =>
      refine (Gives.turns.bind fun fuel => gives_entriesFrom h fuel 0).mono ?_
      rintro rest k as rest' k' ⟨fuel, _, _, ⟨hlt, rfl, rfl⟩, himp⟩
      have := himp hlt
      rw [Nat.zero_add] at this
      exact .inr this
  · rintro rest k as rest' k' ⟨_, _, _, ⟨rfl, rfl⟩, h⟩
    exact h

theorem argumentList_of_separated {k k' : Nat} {ts : List Token} {args : List Expr}
    (h : Separated (Inner (P := Expression) n) k ts args k') : ArgumentList n k ts args k' := by
  induction h with
  | one he =>
    obtain ⟨m, rfl, he⟩ := he
    exact .one he
  | more he hc _ ih =>
    obtain ⟨m, rfl, he⟩ := he
    exact .more he hc ih

/-- A name as an entry of a list. -/
def NameEntry (k : Nat) (ts : List Token) (t : Token) (k' : Nat) : Prop :=
  k' = k ∧ ts = [t] ∧ t.kind = .name

theorem parameterList_of_separated {k k' : Nat} {ts names : List Token}
    (h : Separated NameEntry k ts names k') : k' = k ∧ ParameterList ts names := by
  induction h with
  | one hn =>
    obtain ⟨rfl, rfl, hn⟩ := hn
    exact ⟨rfl, .one hn⟩
  | more hn hc _ ih =>
    obtain ⟨rfl, rfl, hn⟩ := hn
    exact ⟨ih.1, .more hn hc ih.2⟩

/-! ## Expressions -/

theorem gives_primary (h : Sound n nested) :
    (primary nested).Gives (Behind (Primary n)) := by
  unfold primary
  refine Gives.mono (Gives.ifTakes (Gives.pure _) <| Gives.ifTakes (Gives.pure _) <|
    Gives.ifTakes (Gives.pure _) <|
    Gives.matchTakeIf (fun t => Gives.pure _) <|
    Gives.matchTakeIf (fun t => Gives.newSerial.bind fun serial => Gives.pure _) <|
    Gives.ifTakes (h.expression.bind fun inner => Gives.require.bind fun _ => Gives.pure _)
      (Gives.misfit (D := fun _ _ _ _ _ => False))) ?_
  rintro rest k e rest' k' (⟨t, ts, rfl, ht, rfl, rfl, rfl⟩ | ⟨-, ⟨t, ts, rfl, ht, rfl, rfl, rfl⟩ |
    ⟨-, ⟨t, ts, rfl, ht, rfl, rfl, rfl⟩ | ⟨-, ⟨t, ts, rfl, ht, rfl, rfl, rfl⟩ |
    ⟨-, ⟨t, ts, rfl, ht, serial, _, _, ⟨rfl, rfl, rfl⟩, rfl, rfl, rfl⟩ |
    ⟨-, ⟨t, ts, rfl, ht, hgroup⟩ | ⟨-, hfalse⟩⟩⟩⟩⟩⟩)
  · exact ⟨[t], rfl, .false ht⟩
  · exact ⟨[t], rfl, .true ht⟩
  · exact ⟨[t], rfl, .nil ht⟩
  · refine ⟨[t], rfl, .literal ?_⟩
    simpa using ht
  · exact ⟨[t], rfl, .name (eq_of_beq ht)⟩
  · obtain ⟨inner, _, _, ⟨ts₁, rfl, m, rfl, he⟩, right, _, _, ⟨rfl, hr, rfl⟩, rfl, rfl, rfl⟩ :=
      hgroup
    exact ⟨t :: (ts₁ ++ [right]), by simp, .grouping ht he hr⟩
  · exact hfalse.elim

theorem gives_callsFrom (h : Sound n nested) :
    ∀ fuel callee, (callsFrom nested fuel callee).Gives (Behind fun k ts e k' =>
      Calls n callee k ts e k') := by
  intro fuel
  induction fuel with
  | zero =>
    intro callee
    refine (Gives.pure callee).mono ?_
    rintro rest k e rest' k' ⟨rfl, rfl, rfl⟩
    exact ⟨[], rfl, .nil⟩
  | succ fuel ih =>
    intro callee
    unfold callsFrom
    refine (Gives.ifTakes ((gives_entries h.expression).bind fun args =>
      Gives.require.bind fun paren => ih (.call callee paren args)) (Gives.pure callee)).mono ?_
    rintro rest k e rest' k' (⟨left, ts, rfl, hl, args, mid, k₁, hargs, right, _, _, ⟨rfl, hr, rfl⟩,
      ts₂, rfl, hcalls⟩ | ⟨-, rfl, rfl, rfl⟩)
    · rcases hargs with ⟨rfl, rfl, rfl⟩ | ⟨hlen, ts₁, rfl, hargs⟩
      · exact ⟨left :: ([] ++ right :: ts₂), by simp, .cons hl .none (by simp) hr hcalls⟩
      · exact ⟨left :: (ts₁ ++ right :: ts₂), by simp,
          .cons hl (.some (argumentList_of_separated hargs)) hlen hr hcalls⟩
    · exact ⟨[], rfl, .nil⟩

theorem gives_unary (h : Sound n nested) : (unary nested).Gives (Behind (Unary n)) := by
  unfold unary call
  refine (Gives.matchTakeIf (fun op => h.unary.bind fun arg => Gives.pure _)
    ((gives_primary h).bind fun callee => Gives.turns.bind fun fuel =>
      gives_callsFrom h fuel callee)).mono ?_
  rintro rest k e rest' k' (⟨op, _, rfl, hop, arg, _, _, ⟨ts, rfl, m, rfl, ha⟩, rfl, rfl, rfl⟩ |
    ⟨-, callee, _, _, ⟨ts, rfl, hp⟩, _, _, _, ⟨-, rfl, rfl⟩, ts', rfl, hc⟩)
  · refine ⟨op :: ts, rfl, .operator ?_ ha⟩
    simpa [isUnary] using hop
  · exact ⟨ts ++ ts', by simp, .calls hp hc⟩

/-! ## Operations -/

/-- The level of a reader for these operators. -/
def Operators.level (o : Operators) : Level := ⟨o.kinds.contains, o.build⟩

/-- The reader for operations with operators of these levels. -/
def operation (nested : Nested) : List Operators → Reader Expr
  | [] => unary nested
  | o :: tighter => leftAssociative o.level (operation nested tighter)

theorem level_eq {l : Level} {o : Operators} (hf : ∀ k, l.fits k = true ↔ k ∈ o.kinds)
    (hb : l.build = o.build) : l = o.level := by
  obtain ⟨fits, build⟩ := l
  obtain rfl := hb
  unfold Operators.level
  congr 1
  funext k
  rw [Bool.eq_iff_iff, hf k, List.contains_iff_mem]

theorem disjunction_eq (nested : Nested) : disjunction nested = operation nested precedence := by
  unfold disjunction conjunction equality comparison sum product
  rw [level_eq (l := disjunctionLevel) (o := ⟨[.word .kwOr], .logical⟩)
      (by simp [disjunctionLevel]) rfl,
    level_eq (l := conjunctionLevel) (o := ⟨[.word .kwAnd], .logical⟩)
      (by simp [conjunctionLevel]) rfl,
    level_eq (l := equalityLevel) (o := ⟨[.mark .bangEqual, .mark .equalEqual], .binary⟩)
      (by simp [equalityLevel]) rfl,
    level_eq (l := comparisonLevel)
      (o := ⟨[.mark .greater, .mark .greaterEqual, .mark .less, .mark .lessEqual], .binary⟩)
      (by simp [comparisonLevel, or_assoc]) rfl,
    level_eq (l := sumLevel) (o := ⟨[.mark .minus, .mark .plus], .binary⟩)
      (by simp [sumLevel]) rfl,
    level_eq (l := productLevel) (o := ⟨[.mark .slash, .mark .star], .binary⟩)
      (by simp [productLevel]) rfl]
  rfl

theorem gives_operandsFrom {o : Operators} {tighter : List Operators} {operand : Reader Expr}
    (h : operand.Gives (Behind (Operation n tighter))) :
    ∀ fuel lhs, (operandsFrom o.level operand fuel lhs).Gives
      (Behind (Operands n o tighter lhs)) := by
  intro fuel
  induction fuel with
  | zero =>
    intro lhs
    refine (Gives.pure lhs).mono ?_
    rintro rest k e rest' k' ⟨rfl, rfl, rfl⟩
    exact ⟨[], rfl, .nil⟩
  | succ fuel ih =>
    intro lhs
    unfold operandsFrom
    refine Gives.mono (Gives.matchTakeIf (fun op => h.bind fun rhs =>
      ih (o.level.build lhs op rhs)) (Gives.pure lhs)) ?_
    rintro rest k e rest' k' (⟨op, _, rfl, hop, rhs, _, _, ⟨ts, rfl, hr⟩, ts', rfl, ho⟩ |
      ⟨-, rfl, rfl, rfl⟩)
    · exact ⟨op :: (ts ++ ts'), by simp, .cons (List.contains_iff_mem.1 hop) hr ho⟩
    · exact ⟨[], rfl, .nil⟩

theorem gives_operation (h : Sound n nested) :
    ∀ levels, (operation nested levels).Gives (Behind (Operation n levels)) := by
  intro levels
  induction levels with
  | nil =>
    refine (gives_unary h).mono ?_
    rintro rest k e rest' k' ⟨ts, rfl, hu⟩
    exact ⟨ts, rfl, .unary hu⟩
  | cons o tighter ih =>
    refine (Gives.bind ih fun lhs => Gives.turns.bind fun fuel =>
      gives_operandsFrom ih fuel lhs).mono ?_
    rintro rest k e rest' k' ⟨lhs, _, _, ⟨ts, rfl, hl⟩, _, _, _, ⟨-, rfl, rfl⟩, ts', rfl, ho⟩
    exact ⟨ts ++ ts', by simp, .operands hl ho⟩

/-! ## Assignments -/

/-- What the operators build is never a reference. -/
theorem Operands.eq_nil_of_ref {o : Operators} {tighter : List Operators} {name : Token}
    {serial : Nat} (hb : ∀ lhs op rhs, o.build lhs op rhs ≠ .ref name serial) {lhs e : Expr}
    {k k' : Nat} {ts : List Token} : Operands n o tighter lhs k ts e k' →
      e = .ref name serial → ts = [] ∧ lhs = e ∧ k' = k
  | .nil, _ => ⟨rfl, rfl, rfl⟩
  | .cons _ _ h, he => absurd ((h.eq_nil_of_ref hb he).2.1.trans he) (hb _ _ _)

theorem Calls.eq_nil_of_ref {name : Token} {serial : Nat} {callee e : Expr} {k k' : Nat}
    {ts : List Token} : Calls n callee k ts e k' →
      e = .ref name serial → ts = [] ∧ callee = e ∧ k' = k
  | .nil, _ => ⟨rfl, rfl, rfl⟩
  | .cons _ _ _ _ h, he => absurd ((h.eq_nil_of_ref he).2.1.trans he) nofun

theorem Unary.eq_name_of_ref {name : Token} {serial k k' : Nat} {ts : List Token}
    (h : Unary n k ts (.ref name serial) k') :
    ts = [name] ∧ name.kind = .name ∧ k' = k + 1 := by
  generalize he : Expr.ref name serial = e at h
  cases h with
  | operator _ _ => cases he
  | calls hp hc =>
    obtain ⟨rfl, rfl, rfl⟩ := hc.eq_nil_of_ref he.symm
    subst he
    cases hp with
    | name hn => exact ⟨rfl, hn, rfl⟩

/-- An operation that is a reference is a name and nothing else. -/
theorem Operation.eq_name_of_ref {n : Nat} {name : Token} {serial : Nat}
    {levels : List Operators}
    (hb : ∀ o ∈ levels, ∀ lhs op rhs, o.build lhs op rhs ≠ .ref name serial) {k k' : Nat}
    {ts : List Token} {e : Expr} : Operation n levels k ts e k' → e = .ref name serial →
      ts = [name] ∧ name.kind = .name ∧ k' = k + 1
  | .unary h, he => (he ▸ h).eq_name_of_ref
  | .operands hl ho, he => by
    obtain ⟨rfl, rfl, rfl⟩ := ho.eq_nil_of_ref (hb _ List.mem_cons_self) he
    rw [List.append_nil]
    exact hl.eq_name_of_ref (fun o ho => hb o (List.mem_cons_of_mem _ ho)) he

theorem precedence_build {name : Token} {serial : Nat} {o : Operators} (h : o ∈ precedence)
    (lhs : Expr) (op : Token) (rhs : Expr) : o.build lhs op rhs ≠ .ref name serial := by
  simp only [precedence, List.mem_cons, List.not_mem_nil, or_false] at h
  rcases h with rfl | rfl | rfl | rfl | rfl | rfl <;> exact nofun

theorem gives_expression (h : Sound n nested) :
    (expression nested).Gives (Behind (Expression n)) := by
  unfold expression
  rw [disjunction_eq]
  refine Gives.mono (Gives.bind (gives_operation h precedence) fun target =>
    Gives.matchTakeIf (fun equals => (?_ : Gives _ fun rest k e rest' k' =>
      ∃ name serial value ts k₁, target = .ref name serial ∧ rest = ts ++ rest' ∧
        Inner (P := Expression) n k ts value k₁ ∧ e = Expr.assign name value k₁ ∧ k' = k₁ + 1))
      (Gives.pure target)) ?_
  · refine Gives.mono (Gives.bind h.expression fun value =>
      (?_ : Gives _ fun rest k e rest' k' => ∃ name serial, target = .ref name serial ∧
        rest' = rest ∧ e = Expr.assign name value k ∧ k' = k + 1)) ?_
    · cases target with
      | ref name serial =>
        refine (Gives.newSerial.bind fun s => Gives.pure _).mono ?_
        rintro rest k e rest' k' ⟨_, _, _, ⟨rfl, rfl, rfl⟩, rfl, rfl, rfl⟩
        exact ⟨name, serial, rfl, rfl, rfl, rfl⟩
      | _ =>
        refine (Gives.complain.bind (D := fun _ _ _ _ _ => False) fun _ => Gives.pure _).mono ?_
        rintro _ _ _ _ _ ⟨_, _, _, hfalse, -⟩
        exact hfalse.elim
    · rintro rest k e rest' k' ⟨value, _, _, ⟨ts, rfl, hv⟩, name, serial, rfl, rfl, rfl, rfl⟩
      exact ⟨name, serial, value, ts, _, rfl, rfl, hv, rfl, rfl⟩
  rintro rest k e rest' k' ⟨target, _, _, ⟨ts, rfl, ht⟩,
    ⟨equals, _, rfl, heq, name, serial, value, ts', k₁, rfl, rfl, ⟨m, rfl, hv⟩, rfl, rfl⟩ |
    ⟨-, rfl, rfl, rfl⟩⟩
  · obtain ⟨rfl, hn, rfl⟩ := ht.eq_name_of_ref (fun o => precedence_build) rfl
    exact ⟨name :: equals :: ts', by simp, .assignment hn (eq_of_beq heq) hv⟩
  · exact ⟨ts, rfl, .operation ht⟩

/-! ## Parts of statements -/

theorem gives_semicolon {behind : String} :
    (semicolon behind).Gives fun rest k _ rest' k' =>
      k' = k ∧ ∃ semi, semi.kind = .mark .semicolon ∧ rest = semi :: rest' := by
  refine (Gives.map (f := fun _ => ()) Gives.require).mono ?_
  rintro rest k _ rest' k' ⟨semi, -, rfl, hs, rfl⟩
  exact ⟨rfl, semi, hs, rfl⟩

theorem gives_simple (h : Sound n nested) : (simple nested).Gives (Behind (Simple n)) := by
  unfold simple
  refine Gives.mono ((gives_expression h).bind fun e => gives_semicolon.bind fun _ =>
    Gives.pure _) ?_
  rintro rest k st rest' k' ⟨e, _, _, ⟨ts, rfl, he⟩, _, _, _, ⟨rfl, semi, hs, rfl⟩, rfl, rfl, rfl⟩
  exact ⟨ts ++ [semi], by simp, .mk he hs⟩

theorem gives_expressionUnless (h : Sound n nested) (kind : Kind) :
    (expressionUnless kind nested).Gives (Behind (Optional n)) := by
  unfold expressionUnless
  refine Gives.mono (Gives.sees.bind (E := fun _ => Behind (Optional n)) fun b => ?_) ?_
  · cases b with
    | true =>
      refine (Gives.pure none).mono ?_
      rintro rest k e rest' k' ⟨rfl, rfl, rfl⟩
      exact ⟨[], rfl, .none⟩
    | false =>
      refine Gives.mono ((gives_expression h).bind fun e => Gives.pure (some e)) ?_
      rintro rest k e rest' k' ⟨e, _, _, ⟨ts, rfl, he⟩, rfl, rfl, rfl⟩
      exact ⟨ts, rfl, .some he⟩
  · rintro rest k e rest' k' ⟨_, _, _, ⟨rfl, rfl⟩, he⟩
    exact he

theorem gives_variableDeclaration (h : Sound n nested) :
    (variableDeclaration nested).Gives (Behind (Variable n)) := by
  unfold variableDeclaration
  refine Gives.mono (Gives.require.bind fun name => Gives.ifTakes
    ((gives_expression h).map.bind fun init => gives_semicolon.bind fun _ => Gives.pure _)
    ((Gives.pure none).bind fun init => gives_semicolon.bind fun _ => Gives.pure _)) ?_
  rintro rest k st rest' k' ⟨name, _, _, ⟨rfl, hn, rfl⟩, ⟨equals, _, rfl, heq, init, _, _,
      ⟨e, rfl, ts, rfl, he⟩, _, _, _, ⟨rfl, semi, hs, rfl⟩, rfl, rfl, rfl⟩ |
    ⟨-, init, _, _, ⟨rfl, rfl, rfl⟩, _, _, _, ⟨rfl, semi, hs, rfl⟩, rfl, rfl, rfl⟩⟩
  · exact ⟨name :: equals :: (ts ++ [semi]), by simp, .initialised hn heq he hs⟩
  · exact ⟨[name, semi], rfl, .bare hn hs⟩

theorem gives_loopStart (h : Sound n nested) :
    (loopStart nested).Gives (Behind (Start n)) := by
  unfold loopStart
  refine Gives.mono (Gives.ifTakes (Gives.pure none) <| Gives.ifTakes
    (gives_variableDeclaration h).map (gives_simple h).map) ?_
  rintro rest k st rest' k' (⟨semi, _, rfl, hs, rfl, rfl, rfl⟩ |
    ⟨-, ⟨word, _, rfl, hw, st, rfl, ts, rfl, hv⟩ | ⟨-, st, rfl, ts, rfl, hs⟩⟩)
  · exact ⟨[semi], rfl, .none hs⟩
  · exact ⟨word :: ts, rfl, .var hw hv⟩
  · exact ⟨ts, rfl, .simple hs⟩

theorem gives_blockFrom (h : Sound n nested) :
    ∀ fuel, (blockFrom nested fuel).Gives (Behind (Declarations n)) := by
  intro fuel
  have hnil : (pure [] : Reader (List Stmt)).Gives (Behind (Declarations n)) := by
    refine (Gives.pure []).mono ?_
    rintro rest k body rest' k' ⟨rfl, rfl, rfl⟩
    exact ⟨[], rfl, .nil⟩
  induction fuel with
  | zero => exact hnil
  | succ fuel ih =>
    unfold blockFrom
    refine Gives.mono (Gives.nextKind?.bind (E := fun _ => Behind (Declarations n))
      fun kind => ?_) ?_
    · split
      · exact hnil
      · exact hnil
      · refine Gives.mono (h.declaration.bind fun first => ih.bind fun rest => Gives.pure _) ?_
        rintro rest k body rest' k' ⟨_, _, _, ⟨st, rfl, ts, rfl, m, rfl, hd⟩, sts, _, _,
          ⟨ts', rfl, hds⟩, rfl, rfl, rfl⟩
        exact ⟨ts ++ ts', by simp, .cons hd hds⟩
    · rintro rest k body rest' k' ⟨_, _, _, ⟨-, rfl, rfl⟩, hb⟩
      exact hb

theorem gives_block (h : Sound n nested) :
    (block nested).Gives fun rest k body rest' k' => ∃ ts right,
      rest = ts ++ right :: rest' ∧ Declarations n k ts body k' ∧
        right.kind = .mark .rightBrace := by
  unfold block
  refine Gives.mono (Gives.turns.bind fun fuel => (gives_blockFrom h fuel).bind fun body =>
    Gives.require.bind fun _ => Gives.pure _) ?_
  rintro rest k body rest' k' ⟨_, _, _, ⟨-, rfl, rfl⟩, _, _, _, ⟨ts, rfl, hd⟩, right, _, _,
    ⟨rfl, hr, rfl⟩, rfl, rfl, rfl⟩
  exact ⟨ts, right, rfl, hd, hr⟩

/-! ## Statements -/

/-- What is known once the first word of a statement is put back in front. -/
def AfterWord (kind : Kind) (D : Passage α) : Passage α := fun rest k a rest' k' =>
  ∀ word, word.kind = kind → D (word :: rest) k a rest' k'

theorem gives_functionDeclaration (h : Sound n nested) :
    (functionDeclaration nested).Gives (AfterWord (.word .kwFun) (Behind (Declared n))) := by
  have hname : (require .name "parameter name").Gives (Behind NameEntry) := by
    refine Gives.require.mono ?_
    rintro rest k t rest' k' ⟨rfl, ht, rfl⟩
    exact ⟨[t], rfl, rfl, rfl, ht⟩
  unfold functionDeclaration
  refine Gives.mono (Gives.require.bind fun name => Gives.require.bind fun _ =>
    (gives_entries hname).bind fun params => Gives.require.bind fun _ =>
    Gives.require.bind fun _ => (gives_block h).bind fun body => Gives.pure _) ?_
  rintro rest k st rest' k' ⟨name, _, _, ⟨rfl, hn, rfl⟩, left, _, _, ⟨rfl, hl, rfl⟩, params, mid,
    _, hparams, right, _, _, ⟨rfl, hr, rfl⟩, leftBrace, _, _, ⟨rfl, hlb, rfl⟩, body, _, _,
    ⟨ts', rightBrace, rfl, hbody, hrb⟩, rfl, rfl, rfl⟩ word hw
  rcases hparams with ⟨rfl, rfl, rfl⟩ | ⟨hlen, ts, rfl, hparams⟩
  · exact ⟨word :: name :: left :: ([] ++ right :: leftBrace :: (ts' ++ [rightBrace])), by simp,
      .function hw hn hl .none (by simp) hr hlb hbody hrb⟩
  · obtain ⟨rfl, hlist⟩ := parameterList_of_separated hparams
    exact ⟨word :: name :: left :: (ts ++ right :: leftBrace :: (ts' ++ [rightBrace])), by simp,
      .function hw hn hl (.some hlist) hlen hr hlb hbody hrb⟩

theorem gives_countedLoop (h : Sound n nested) :
    (countedLoop nested).Gives (AfterWord (.word .kwFor) (BehindStatement n)) := by
  unfold countedLoop
  refine Gives.mono (Gives.require.bind fun _ => (gives_loopStart h).bind fun start =>
    (gives_expressionUnless h _).bind fun condition => gives_semicolon.bind fun _ =>
    (gives_expressionUnless h _).bind fun step => Gives.require.bind fun _ =>
    h.statement.bind fun body => Gives.pure _) ?_
  rintro rest k st rest' k' ⟨left, _, _, ⟨rfl, hl, rfl⟩, start, _, _, ⟨ts₁, rfl, hstart⟩,
    condition, _, _, ⟨ts₂, rfl, hcond⟩, _, _, _, ⟨rfl, semi, hs, rfl⟩, step, _, _,
    ⟨ts₃, rfl, hstep⟩, right, _, _, ⟨rfl, hr, rfl⟩, body, _, _,
    ⟨m, rfl, isOpen, ts, rfl, hbody, helse⟩, rfl, rfl, rfl⟩ word hw
  exact ⟨isOpen, word :: left :: (ts₁ ++ (ts₂ ++ semi :: (ts₃ ++ right :: ts))), by simp,
    .counted hw hl hstart hcond hs hstep hr hbody, helse⟩

theorem gives_branch (h : Sound n nested) :
    (branch nested).Gives (AfterWord (.word .kwIf) (BehindStatement n)) := by
  unfold branch
  refine Gives.mono (Gives.require.bind fun _ => (gives_expression h).bind fun condition =>
    Gives.require.bind fun _ => h.statement.bind fun yes => Gives.ifTakes
      (h.statement.map.bind fun no => Gives.pure _)
      ((Gives.pure none).bind fun no => Gives.pure _)) ?_
  rintro rest k st rest' k' ⟨left, _, _, ⟨rfl, hl, rfl⟩, condition, _, _, ⟨ts₁, rfl, hc⟩, right, _,
    _, ⟨rfl, hr, rfl⟩, yes, mid, _, ⟨m, rfl, isOpen, ts₂, rfl, hyes, hopen⟩, hno⟩ word hw
  rcases hno with ⟨other, _, rfl, ho, _, _, _, ⟨no, rfl, m', hm, isOpen', ts₃, rfl, hno, hopen'⟩,
    rfl, rfl, rfl⟩ | ⟨hne, _, _, _, ⟨rfl, rfl, rfl⟩, rfl, rfl, rfl⟩
  · obtain rfl := Nat.succ.inj hm
    -- An `else` is next, so the first branch cannot be open.
    have hclosed : isOpen = false := by
      cases isOpen with
      | false => rfl
      | true => exact absurd ho (hopen rfl other rfl)
    subst hclosed
    exact ⟨isOpen', word :: left :: (ts₁ ++ right :: (ts₂ ++ other :: ts₃)), by simp,
      .branchElse hw hl hc hr hyes ho hno, hopen'⟩
  · exact ⟨true, word :: left :: (ts₁ ++ right :: ts₂), by simp, .branch hw hl hc hr hyes,
      fun _ => hne⟩

theorem gives_printStatement (h : Sound n nested) (word : Token) :
    (printStatement nested word).Gives fun rest k st rest' k' =>
      word.kind = .word .kwPrint → BehindStatement n (word :: rest) k st rest' k' := by
  unfold printStatement
  refine Gives.mono ((gives_expression h).bind fun e => gives_semicolon.bind fun _ =>
    Gives.pure _) ?_
  rintro rest k st rest' k' ⟨e, _, _, ⟨ts, rfl, he⟩, _, _, _, ⟨rfl, semi, hs, rfl⟩, rfl, rfl, rfl⟩
    hw
  exact ⟨false, word :: (ts ++ [semi]), by simp, .print hw he hs, nofun⟩

theorem gives_returnStatement (h : Sound n nested) (word : Token) :
    (returnStatement nested word).Gives fun rest k st rest' k' =>
      word.kind = .word .kwReturn → BehindStatement n (word :: rest) k st rest' k' := by
  unfold returnStatement
  refine Gives.mono ((gives_expressionUnless h _).bind fun e => gives_semicolon.bind fun _ =>
    Gives.pure _) ?_
  rintro rest k st rest' k' ⟨e, _, _, ⟨ts, rfl, he⟩, _, _, _, ⟨rfl, semi, hs, rfl⟩, rfl, rfl, rfl⟩
    hw
  exact ⟨false, word :: (ts ++ [semi]), by simp, .ret hw he hs, nofun⟩

theorem gives_plainLoop (h : Sound n nested) :
    (plainLoop nested).Gives (AfterWord (.word .kwWhile) (BehindStatement n)) := by
  unfold plainLoop
  refine Gives.mono (Gives.require.bind fun _ => (gives_expression h).bind fun condition =>
    Gives.require.bind fun _ => h.statement.bind fun body => Gives.pure _) ?_
  rintro rest k st rest' k' ⟨left, _, _, ⟨rfl, hl, rfl⟩, condition, _, _, ⟨ts, rfl, hc⟩, right, _,
    _, ⟨rfl, hr, rfl⟩, body, _, _, ⟨m, rfl, isOpen, ts', rfl, hbody, hopen⟩, rfl, rfl, rfl⟩ word hw
  exact ⟨isOpen, word :: left :: (ts ++ right :: ts'), by simp, .loop hw hl hc hr hbody, hopen⟩

theorem gives_statement (h : Sound n nested) : (statement nested).Gives (BehindStatement n) := by
  unfold statement
  refine Gives.mono (Gives.ifTakes (gives_countedLoop h) <| Gives.ifTakes (gives_branch h) <|
    Gives.matchTakeIf (gives_printStatement h) <| Gives.matchTakeIf (gives_returnStatement h) <|
    Gives.ifTakes (gives_plainLoop h) <| Gives.ifTakes (gives_block h).map (gives_simple h)) ?_
  rintro rest k st rest' k' (⟨word, _, rfl, hw, hst⟩ | ⟨-, ⟨word, _, rfl, hw, hst⟩ |
    ⟨-, ⟨word, _, rfl, hw, hst⟩ | ⟨-, ⟨word, _, rfl, hw, hst⟩ | ⟨-, ⟨word, _, rfl, hw, hst⟩ |
    ⟨-, ⟨left, _, rfl, hl, body, rfl, ts, right, rfl, hb, hr⟩ | ⟨-, ts, rfl, hs⟩⟩⟩⟩⟩⟩)
  · exact hst word hw
  · exact hst word hw
  · exact hst (eq_of_beq hw)
  · exact hst (eq_of_beq hw)
  · exact hst word hw
  · exact ⟨false, left :: (ts ++ [right]), by simp, .block hl hb hr, nofun⟩
  · exact ⟨false, ts, rfl, .simple hs, nofun⟩

theorem gives_bareDeclaration (h : Sound n nested) :
    (bareDeclaration nested).Gives (Behind (Declared n)) := by
  unfold bareDeclaration
  refine Gives.mono (Gives.ifTakes (gives_functionDeclaration h) <|
    Gives.ifTakes (gives_variableDeclaration h) (gives_statement h)) ?_
  rintro rest k st rest' k' (⟨word, _, rfl, hw, hst⟩ | ⟨-, ⟨word, _, rfl, hw, ts, rfl, hv⟩ |
    ⟨-, isOpen, ts, rfl, hst, -⟩⟩)
  · exact hst word hw
  · exact ⟨word :: ts, rfl, .var hw hv⟩
  · exact ⟨ts, rfl, .statement hst⟩

/-- Recovery skips tokens and nothing else. -/
theorem resumeAfter_suffix (skipped : Token) (ts : List Token) :
    resumeAfter skipped ts <:+ ts := by
  induction ts generalizing skipped with
  | nil => exact List.suffix_rfl
  | cons t ts ih =>
    unfold resumeAfter
    split
    · exact List.suffix_rfl
    · exact (ih t).trans (List.suffix_cons t ts)

theorem resume_suffix (ts : List Token) : resume ts <:+ ts := by
  cases ts with
  | nil => exact List.suffix_rfl
  | cons t ts => exact (resumeAfter_suffix t ts).trans (List.suffix_cons t ts)

/-- A declaration that has been skipped has entered an issue, so one that has not was read. -/
theorem gives_declaration (h : Sound n nested) :
    (declaration nested).Gives fun rest k st rest' k' =>
      ∃ s, st = some s ∧ Behind (Declared n) rest k s rest' k' := by
  intro c hc
  have := gives_bareDeclaration h c hc
  unfold declaration
  cases hr : bareDeclaration nested c with
  | ok st c' =>
    rw [hr] at this
    exact ⟨this.1, fun he => ⟨st, rfl, this.2 he⟩⟩
  | error e c' =>
    rw [hr] at this
    obtain ⟨hbef, hmis⟩ := this
    cases e with
    | misfit =>
      refine ⟨⟨hbef.stop, hbef.turns, (resume_suffix _).trans hbef.rest, hbef.serial, hbef.issues⟩,
        fun he => ?_⟩
      exact absurd he (hmis rfl)
    | tooDeep => exact ⟨hbef, nofun⟩

/-! ## All readers -/

theorem sound_readers : ∀ n, Sound n (readers n)
  | 0 => ⟨Gives.throw_tooDeep, Gives.throw_tooDeep, Gives.throw_tooDeep, Gives.throw_tooDeep⟩
  | n + 1 => by
    have h := sound_readers n
    refine ⟨(gives_expression h).mono ?_, (gives_unary h).mono ?_, (gives_statement h).mono ?_,
      (gives_declaration h).mono ?_⟩
    · rintro rest k e rest' k' ⟨ts, rfl, he⟩
      exact ⟨ts, rfl, n, rfl, he⟩
    · rintro rest k e rest' k' ⟨ts, rfl, he⟩
      exact ⟨ts, rfl, n, rfl, he⟩
    · intro rest k st rest' k' hst
      exact ⟨n, rfl, hst⟩
    · rintro rest k st rest' k' ⟨s, rfl, ts, rfl, hd⟩
      exact ⟨s, rfl, ts, rfl, n, rfl, hd⟩

/-! ## Programs -/

namespace Program

/-- Reading a program only enters issues and only uses up serials. -/
theorem declarations_before (h : Sound n nested) : ∀ fuel done (c : Cursor), c.Roomy →
    c.issues.toList <+: (declarations nested fuel done c).issues.toList ∧
      c.serial ≤ (declarations nested fuel done c).serial := by
  intro fuel
  induction fuel with
  | zero => exact fun _ _ _ => ⟨List.prefix_rfl, Nat.le_refl _⟩
  | succ fuel ih =>
    intro done c hc
    unfold declarations
    split
    · exact ⟨List.prefix_rfl, Nat.le_refl _⟩
    · have hd := h.declaration c hc
      cases hr : nested.declaration c with
      | ok st c' =>
        rw [hr] at hd
        obtain ⟨hissues, hserial⟩ := ih (st.toList ++ done) c' (hd.1.roomy hc)
        exact ⟨hd.1.issues.trans hissues, Nat.le_trans hd.1.serial hserial⟩
      | error e c' =>
        rw [hr] at hd
        exact ⟨hd.1.issues.trans (by simp), hd.1.serial⟩

theorem declarations_sound (h : Sound n nested) : ∀ fuel done (c : Cursor), c.Roomy →
    c.rest.length < fuel → (declarations nested fuel done c).issues = c.issues →
    ∃ sts, (declarations nested fuel done c).statements = done.reverse ++ sts ∧
      Declarations n c.serial c.rest sts (declarations nested fuel done c).serial := by
  intro fuel
  induction fuel with
  | zero => exact fun _ _ _ hlt => absurd hlt (Nat.not_lt_zero _)
  | succ fuel ih =>
    intro done c hc hlt
    unfold declarations
    split
    · next hnil =>
      intro _
      rw [List.isEmpty_iff.1 hnil]
      exact ⟨[], by simp, .nil⟩
    · have hd := h.declaration c hc
      cases hr : nested.declaration c with
      | error e c' =>
        rw [hr] at hd
        intro he
        have hlen := hd.1.issues.length_le
        have := congrArg Array.size he
        simp only [Array.size_push, Array.length_toList] at this hlen
        omega
      | ok st c' =>
        rw [hr] at hd
        obtain ⟨hbef, hD⟩ := hd
        intro he
        have hroom := hbef.roomy hc
        -- No issue was entered by the first declaration nor by those behind it.
        have hle := (declarations_before h fuel (st.toList ++ done) c' hroom).1
        have hsame : c'.issues = c.issues := by
          have hissues : (declarations nested fuel (st.toList ++ done) c').issues = c.issues := he
          rw [hissues] at hle
          exact Array.toList_inj.1 (hle.eq_of_length_le hbef.issues.length_le)
        obtain ⟨s, rfl, ts, hts, m, rfl, hdecl⟩ := hD hsame
        obtain ⟨t, ts₀, rfl, -⟩ := hdecl.begins
        rw [hts] at hlt ⊢
        rw [List.cons_append, List.length_cons, List.length_append] at hlt
        obtain ⟨sts, hsts, hrest⟩ := ih (s :: done) c' hroom (by omega) (he.trans hsame.symm)
        refine ⟨s :: sts, ?_, .cons hdecl hrest⟩
        show (declarations nested fuel (s :: done) c').statements = _
        rw [hsts, List.reverse_cons, List.append_assoc]
        rfl

end Program

end Scriptlet.Grammar

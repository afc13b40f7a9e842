import Mathlib.Data.List.Basic
import Scriptlet.Grammar.Program

/-!
# Reasoning about readers

Two ways to say what a reader does, each closed under the sequencing of readers, so that a rule of
the grammar is proved by going through its reader once.

**What a reader has read** (`Reader.Gives r D`). If the reader has a result and has entered no
issue, then `D` relates the tokens and the serial before to the result and the tokens and the
serial behind. Nothing else of the cursor changes then. A misfit has entered an issue.

**What a reader will read** (`Reads p o a c`). The outcome `o` is the result `a` at the cursor `c`;
only if `p` holds it may also be that the nesting was too deep.
-/

namespace Scriptlet.Grammar

variable {α β : Type}

/-! ## Cursors -/

namespace Cursor

/-- The cursor with these tokens ahead of it, and this serial next. -/
def ahead (c : Cursor) (rest : List Token) (serial : Nat) : Cursor := { c with rest, serial }

@[simp] theorem ahead_rest (c : Cursor) (rest : List Token) (serial : Nat) :
    (c.ahead rest serial).rest = rest := rfl

@[simp] theorem ahead_serial (c : Cursor) (rest : List Token) (serial : Nat) :
    (c.ahead rest serial).serial = serial := rfl

@[simp] theorem ahead_turns (c : Cursor) (rest : List Token) (serial : Nat) :
    (c.ahead rest serial).turns = c.turns := rfl

@[simp] theorem ahead_issues (c : Cursor) (rest : List Token) (serial : Nat) :
    (c.ahead rest serial).issues = c.issues := rfl

/-- Reading leads from one cursor to another: tokens are only taken, serials only used up, and
issues only entered. -/
structure Before (c c' : Cursor) : Prop where
  stop : c'.stop = c.stop
  turns : c'.turns = c.turns
  rest : c'.rest <:+ c.rest
  serial : c.serial ≤ c'.serial
  issues : c.issues.toList <+: c'.issues.toList

theorem Before.refl (c : Cursor) : c.Before c :=
  ⟨rfl, rfl, List.suffix_rfl, Nat.le_refl _, List.prefix_rfl⟩

theorem Before.trans {c c' c'' : Cursor} (h : c.Before c') (h' : c'.Before c'') :
    c.Before c'' :=
  ⟨h'.stop.trans h.stop, h'.turns.trans h.turns, h'.rest.trans h.rest,
    Nat.le_trans h.serial h'.serial, h.issues.trans h'.issues⟩

/-- If no issue was entered on the whole way, none was entered on its first part. -/
theorem Before.squeeze {c c' c'' : Cursor} (h : c.Before c') (h' : c'.Before c'')
    (he : c''.issues = c.issues) : c'.issues = c.issues := by
  have hle : c'.issues.toList <+: c.issues.toList := by rw [← he]; exact h'.issues
  exact Array.toList_inj.1 (hle.eq_of_length_le h.issues.length_le)

theorem Before.length_le {c c' : Cursor} (h : c.Before c') : c'.rest.length ≤ c.rest.length :=
  h.rest.length_le

/-- There are more turns than tokens. -/
def Roomy (c : Cursor) : Prop := c.rest.length < c.turns

theorem Before.roomy {c c' : Cursor} (h : c.Before c') (hc : c.Roomy) : c'.Roomy := by
  have hle := h.length_le
  unfold Roomy at hc ⊢
  rw [h.turns]
  omega

end Cursor

theorem Reader.nextKind?_bind (f : Option Kind → Reader α) (c : Cursor) :
    (Reader.nextKind? >>= f) c = f (c.rest.head?.map Token.kind) c := rfl

/-- Whether a token was taken is told by the token. -/
theorem Reader.takes_bind (kind : Kind) (f : Bool → Reader α) :
    Reader.takes kind >>= f = Reader.takeIf (· == kind) >>= fun t => f t.isSome := by
  unfold Reader.takes Reader.take?
  rw [bind_assoc]
  exact bind_congr fun t => pure_bind t.isSome f

/-! ## What a reader has read -/

/-- Relates the tokens and the serial before a reader to its result and to the tokens and the
serial behind it. -/
abbrev Passage (α : Type) := List Token → Nat → α → List Token → Nat → Prop

/-- The tokens taken derive from a phrase. -/
def Behind (P : Nat → List Token → α → Nat → Prop) : Passage α := fun rest k a rest' k' =>
  ∃ ts, rest = ts ++ rest' ∧ P k ts a k'

namespace Reader

/-- What the reader has read if it has entered no issue. -/
def Gives (r : Reader α) (D : Passage α) : Prop :=
  ∀ c : Cursor, c.Roomy →
    match r c with
    | .ok a c' => c.Before c' ∧ (c'.issues = c.issues → D c.rest c.serial a c'.rest c'.serial)
    | .error e c' => c.Before c' ∧ (e = .misfit → c'.issues ≠ c.issues)

theorem Gives.mono {r : Reader α} {D E : Passage α} (h : r.Gives D)
    (hle : ∀ rest k a rest' k', D rest k a rest' k' → E rest k a rest' k') : r.Gives E := by
  intro c hc
  have := h c hc
  cases hr : r c with
  | ok a c' =>
    rw [hr] at this
    exact ⟨this.1, fun he => hle _ _ _ _ _ (this.2 he)⟩
  | error e c' =>
    rw [hr] at this
    exact this

theorem Gives.pure (a : α) :
    (pure a : Reader α).Gives fun rest k b rest' k' => b = a ∧ rest' = rest ∧ k' = k :=
  fun c _ => ⟨.refl c, fun _ => ⟨rfl, rfl, rfl⟩⟩

/-- Readers one behind the other. -/
theorem Gives.bind {r : Reader α} {f : α → Reader β} {D : Passage α} {E : α → Passage β}
    (hr : r.Gives D) (hf : ∀ a, (f a).Gives (E a)) :
    (r >>= f).Gives fun rest k b rest'' k'' =>
      ∃ a rest' k', D rest k a rest' k' ∧ E a rest' k' b rest'' k'' := by
  intro c hc
  have h₁ := hr c hc
  show match EStateM.bind r f c with | .ok b c'' => _ | .error e c'' => _
  unfold EStateM.bind
  cases hrc : r c with
  | error e c' =>
    rw [hrc] at h₁
    exact h₁
  | ok a c' =>
    rw [hrc] at h₁
    obtain ⟨hbef, hD⟩ := h₁
    have h₂ := hf a c' (hbef.roomy hc)
    show match f a c' with | .ok b c'' => _ | .error e c'' => _
    cases hfc : f a c' with
    | ok b c'' =>
      rw [hfc] at h₂
      obtain ⟨hbef', hE⟩ := h₂
      refine ⟨hbef.trans hbef', fun he => ?_⟩
      have hsame := hbef.squeeze hbef' he
      exact ⟨a, _, _, hD hsame, hE (he.trans hsame.symm)⟩
    | error e c'' =>
      rw [hfc] at h₂
      obtain ⟨hbef', hmis⟩ := h₂
      refine ⟨hbef.trans hbef', fun he heq => ?_⟩
      have hsame := hbef.squeeze hbef' heq
      exact hmis he (heq.trans hsame.symm)

theorem Gives.map {r : Reader α} {f : α → β} {D : Passage α} (hr : r.Gives D) :
    (f <$> r).Gives fun rest k b rest' k' => ∃ a, b = f a ∧ D rest k a rest' k' := by
  refine (Gives.bind hr fun a => Gives.pure (f a)).mono ?_
  rintro rest k b rest' k' ⟨a, _, _, hD, rfl, rfl, rfl⟩
  exact ⟨a, rfl, hD⟩

/-- A reader that does not come to a result gives whatever is asked. -/
theorem Gives.throw_tooDeep {D : Passage α} : (throw .tooDeep : Reader α).Gives D :=
  fun c _ => ⟨.refl c, nofun⟩

theorem issues_push_ne (is : Array Issue) (i : Issue) : is.push i ≠ is := by
  intro h
  have := congrArg Array.size h
  rw [Array.size_push] at this
  omega

/-- An issue has been entered, so nothing has to be said of what was read. -/
theorem Gives.complain {t : Token} {cause : Issue.Cause} {D : Passage Unit} :
    (complain t cause).Gives D :=
  fun _ _ => ⟨⟨rfl, rfl, List.suffix_rfl, Nat.le_refl _, by simp⟩,
    fun he => absurd he (issues_push_ne _ _)⟩

theorem Gives.complainHere {cause : Issue.Cause} {D : Passage Unit} :
    (complainHere cause).Gives D :=
  fun c hc => Gives.complain (t := c.next) c hc

theorem Gives.misfit {cause : Issue.Cause} {D : Passage α} : (misfit cause : Reader α).Gives D :=
  fun _ _ => ⟨⟨rfl, rfl, List.suffix_rfl, Nat.le_refl _, by simp⟩, fun _ => issues_push_ne _ _⟩

theorem Gives.newSerial :
    newSerial.Gives fun rest k a rest' k' => a = k ∧ rest' = rest ∧ k' = k + 1 :=
  fun _ _ => ⟨⟨rfl, rfl, List.suffix_rfl, Nat.le_succ _, List.prefix_rfl⟩,
    fun _ => ⟨rfl, rfl, rfl⟩⟩

/-- The turns suffice for the tokens. -/
theorem Gives.turns :
    turns.Gives fun rest k a rest' k' => rest.length < a ∧ rest' = rest ∧ k' = k :=
  fun c hc => ⟨.refl c, fun _ => ⟨hc, rfl, rfl⟩⟩

theorem Gives.nextKind? :
    nextKind?.Gives fun rest k a rest' k' =>
      a = rest.head?.map Token.kind ∧ rest' = rest ∧ k' = k :=
  fun c _ => ⟨.refl c, fun _ => ⟨rfl, rfl, rfl⟩⟩

theorem Gives.sees {kind : Kind} :
    (sees kind).Gives fun rest k _ rest' k' => rest' = rest ∧ k' = k :=
  fun c _ => ⟨.refl c, fun _ => ⟨rfl, rfl⟩⟩

/-- Either the next token fits and is taken, or there is no next token that fits. -/
theorem Gives.takeIf {fits : Kind → Bool} :
    (takeIf fits).Gives fun rest k a rest' k' => k' = k ∧
      ((∃ t, a = some t ∧ fits t.kind = true ∧ rest = t :: rest') ∨
        (a = none ∧ rest' = rest ∧ ∀ t ∈ rest.head?, fits t.kind = false)) := by
  intro c _
  rcases hrest : c.rest with _ | ⟨t, rest⟩
  · have hr : Reader.takeIf fits c = .ok none c := by unfold Reader.takeIf; rw [hrest]
    rw [hr]
    exact ⟨.refl c, fun _ => ⟨rfl, .inr ⟨rfl, hrest, by rintro _ ⟨⟩⟩⟩⟩
  · by_cases ht : fits t.kind = true
    · have hr : Reader.takeIf fits c = .ok (some t) (c.ahead rest c.serial) := by
        unfold Reader.takeIf; rw [hrest]; exact if_pos ht
      rw [hr]
      have hsuffix : rest <:+ c.rest := by rw [hrest]; exact List.suffix_cons _ _
      exact ⟨⟨rfl, rfl, hsuffix, Nat.le_refl _, List.prefix_rfl⟩,
        fun _ => ⟨rfl, .inl ⟨t, rfl, ht, rfl⟩⟩⟩
    · have hr : Reader.takeIf fits c = .ok none c := by
        unfold Reader.takeIf; rw [hrest]; exact if_neg ht
      rw [hr]
      refine ⟨.refl c, fun _ => ⟨rfl, .inr ⟨rfl, hrest, ?_⟩⟩⟩
      rintro _ ⟨⟩
      exact Bool.eq_false_iff.2 ht

/-- The next token was of this kind and has been taken, or it was not. -/
def Took (kind : Kind) (rest : List Token) : Option Token → List Token → Prop
  | some t, rest' => t.kind = kind ∧ rest = t :: rest'
  | none, rest' => rest' = rest ∧ ∀ t ∈ rest.head?, t.kind ≠ kind

theorem Gives.take? {kind : Kind} :
    (take? kind).Gives fun rest k a rest' k' => k' = k ∧ Took kind rest a rest' := by
  refine Gives.takeIf.mono ?_
  rintro rest k a rest' k' ⟨rfl, ⟨t, rfl, ht, rfl⟩ | ⟨rfl, rfl, hne⟩⟩
  · exact ⟨rfl, eq_of_beq ht, rfl⟩
  · exact ⟨rfl, rfl, fun t ht => beq_eq_false_iff_ne.1 (hne t ht)⟩

theorem Gives.takes {kind : Kind} :
    (takes kind).Gives fun rest k a rest' k' =>
      k' = k ∧ ∃ t, t.isSome = a ∧ Took kind rest t rest' := by
  unfold Reader.takes
  refine (Gives.bind Gives.take? fun t => Gives.pure _).mono ?_
  rintro rest k a rest' k' ⟨t, _, _, ⟨rfl, ht⟩, rfl, rfl, rfl⟩
  exact ⟨rfl, t, rfl, ht⟩

theorem Gives.require {kind : Kind} {what : String} :
    (require kind what).Gives fun rest k t rest' k' =>
      k' = k ∧ t.kind = kind ∧ rest = t :: rest' := by
  unfold Reader.require
  refine (Gives.bind (E := fun o rest k t rest' k' => o = some t ∧ rest' = rest ∧ k' = k)
    Gives.take? fun o => ?_).mono ?_
  · cases o with
    | none => exact Gives.misfit
    | some t =>
      refine (Gives.pure t).mono ?_
      rintro rest k a rest' k' ⟨rfl, rfl, rfl⟩
      exact ⟨rfl, rfl, rfl⟩
  · rintro rest k t rest' k' ⟨_, _, _, ⟨rfl, ht⟩, rfl, rfl, rfl⟩
    exact ⟨rfl, ht.1, ht.2⟩

/-- A choice by whether the next token is of some kind. -/
theorem Gives.ifTakes {kind : Kind} {r s : Reader α} {D E : Passage α} (hr : r.Gives D)
    (hs : s.Gives E) :
    (Reader.takes kind >>= fun b => if b = true then r else s).Gives fun rest k a rest' k' =>
      (∃ t ts, rest = t :: ts ∧ t.kind = kind ∧ D ts k a rest' k') ∨
        ((∀ t ∈ rest.head?, t.kind ≠ kind) ∧ E rest k a rest' k') := by
  refine (Gives.bind (E := fun b rest k a rest' k' =>
    (b = true → D rest k a rest' k') ∧ (b = false → E rest k a rest' k'))
    Gives.takes fun b => ?_).mono ?_
  · cases b with
    | true => exact hr.mono fun _ _ _ _ _ h => ⟨fun _ => h, nofun⟩
    | false => exact hs.mono fun _ _ _ _ _ h => ⟨nofun, fun _ => h⟩
  · rintro rest k a rest' k' ⟨b, ts, _, ⟨rfl, t, rfl, ht⟩, hD, hE⟩
    cases t with
    | some t => exact .inl ⟨t, ts, ht.2, ht.1, hD rfl⟩
    | none =>
      obtain ⟨rfl, hne⟩ := ht
      exact .inr ⟨hne, hE rfl⟩

/-- A choice by the next token. -/
theorem Gives.matchTakeIf {fits : Kind → Bool} {f : Option Token → Reader α}
    {D : Token → Passage α} {E : Passage α} (hf : ∀ t, (f (some t)).Gives (D t))
    (hn : (f none).Gives E) :
    (Reader.takeIf fits >>= f).Gives fun rest k a rest' k' =>
      (∃ t ts, rest = t :: ts ∧ fits t.kind = true ∧ D t ts k a rest' k') ∨
        ((∀ t ∈ rest.head?, fits t.kind = false) ∧ E rest k a rest' k') := by
  refine (Gives.bind (E := fun o rest k a rest' k' =>
    (∀ t, o = some t → D t rest k a rest' k') ∧ (o = none → E rest k a rest' k'))
    Gives.takeIf fun o => ?_).mono ?_
  · cases o with
    | some t =>
      refine (hf t).mono fun _ _ _ _ _ h => ⟨fun t' ht => ?_, nofun⟩
      cases ht
      exact h
    | none => exact hn.mono fun _ _ _ _ _ h => ⟨nofun, fun _ => h⟩
  · rintro rest k a rest' k' ⟨o, ts, _, ⟨rfl, ⟨t, rfl, ht, rfl⟩ | ⟨rfl, rfl, hne⟩⟩, hD, hE⟩
    · exact .inl ⟨t, ts, rfl, ht, hD t rfl⟩
    · exact .inr ⟨hne, hE rfl⟩

end Reader

/-! ## What a reader will read -/

/-- The outcome is this result at this cursor, or else, if it may be, nesting that is too deep. -/
def Reads (p : Prop) (o : EStateM.Result Setback Cursor α) (a : α) (c : Cursor) : Prop :=
  o = .ok a c ∨ (p ∧ ∃ c', o = .error .tooDeep c')

namespace Reads

variable {p : Prop}

theorem mono {q : Prop} {o : EStateM.Result Setback Cursor α} {a : α} {c : Cursor}
    (h : Reads p o a c) (hpq : p → q) : Reads q o a c := h.imp id (And.imp_left hpq)

theorem ok (a : α) (c : Cursor) : Reads p (.ok a c) a c := .inl rfl

theorem tooDeep (hp : p) {a : α} {c c' : Cursor} :
    Reads p ((throw .tooDeep : Reader α) c') a c := .inr ⟨hp, c', rfl⟩

theorem bind {r : Reader α} {f : α → Reader β} {a : α} {b : β} {c c' c'' : Cursor}
    (hr : Reads p (r c) a c') (hf : Reads p (f a c') b c'') : Reads p ((r >>= f) c) b c'' := by
  show Reads p (EStateM.bind r f c) b c''
  unfold EStateM.bind
  rcases hr with hr | ⟨hp, c₀, hr⟩
  · rw [hr]
    exact hf
  · rw [hr]
    exact .inr ⟨hp, c₀, rfl⟩

theorem map {r : Reader α} {f : α → β} {a : α} {c c' : Cursor} (hr : Reads p (r c) a c') :
    Reads p ((f <$> r) c) (f a) c' := by
  show Reads p (EStateM.map f r c) (f a) c'
  unfold EStateM.map
  rcases hr with hr | ⟨hp, c₀, hr⟩
  · rw [hr]
    exact .inl rfl
  · rw [hr]
    exact .inr ⟨hp, c₀, rfl⟩

/-! Readers that take or look at one token. -/

variable {c : Cursor} {t : Token} {ts : List Token} {k : Nat}

theorem takeIf {fits : Kind → Bool} (h : fits t.kind = true) :
    Reads p (Reader.takeIf fits (c.ahead (t :: ts) k)) (some t) (c.ahead ts k) := by
  left
  show (if fits t.kind = true then _ else _) = _
  rw [if_pos h]
  rfl

theorem takeIf_none {fits : Kind → Bool} (h : ∀ t ∈ ts.head?, fits t.kind = false) :
    Reads p (Reader.takeIf fits (c.ahead ts k)) none (c.ahead ts k) := by
  left
  cases ts with
  | nil => rfl
  | cons t ts =>
    show (if fits t.kind = true then _ else _) = _
    rw [if_neg (by rw [h t rfl]; decide)]

theorem take? {kind : Kind} (h : t.kind = kind) :
    Reads p (Reader.take? kind (c.ahead (t :: ts) k)) (some t) (c.ahead ts k) :=
  takeIf (beq_iff_eq.2 h)

theorem take?_none {kind : Kind} (h : ∀ t ∈ ts.head?, t.kind ≠ kind) :
    Reads p (Reader.take? kind (c.ahead ts k)) none (c.ahead ts k) :=
  takeIf_none fun t ht => beq_eq_false_iff_ne.2 (h t ht)

theorem takes {kind : Kind} (h : t.kind = kind) :
    Reads p (Reader.takes kind (c.ahead (t :: ts) k)) true (c.ahead ts k) :=
  bind (take? h) (ok true _)

theorem takes_false {kind : Kind} (h : ∀ t ∈ ts.head?, t.kind ≠ kind) :
    Reads p (Reader.takes kind (c.ahead ts k)) false (c.ahead ts k) :=
  bind (take?_none h) (ok false _)

theorem require {kind : Kind} {what : String} (h : t.kind = kind) :
    Reads p (Reader.require kind what (c.ahead (t :: ts) k)) t (c.ahead ts k) :=
  bind (take? h) (ok t _)

theorem newSerial : Reads p (Reader.newSerial (c.ahead ts k)) k (c.ahead ts (k + 1)) := .inl rfl

theorem turns : Reads p (Reader.turns (c.ahead ts k)) c.turns (c.ahead ts k) := .inl rfl

theorem nextKind? :
    Reads p (Reader.nextKind? (c.ahead (t :: ts) k)) (some t.kind) (c.ahead (t :: ts) k) :=
  .inl rfl

theorem sees {kind : Kind} (h : t.kind = kind) :
    Reads p (Reader.sees kind (c.ahead (t :: ts) k)) true (c.ahead (t :: ts) k) := by
  left
  show EStateM.Result.ok (t.kind == kind) _ = _
  rw [h, beq_self_eq_true]

theorem sees_false {kind : Kind} (h : ∀ t ∈ ts.head?, t.kind ≠ kind) :
    Reads p (Reader.sees kind (c.ahead ts k)) false (c.ahead ts k) := by
  left
  cases ts with
  | nil => rfl
  | cons t ts =>
    show EStateM.Result.ok (t.kind == kind) _ = _
    rw [beq_eq_false_iff_ne.2 (h t rfl)]

end Reads

end Scriptlet.Grammar

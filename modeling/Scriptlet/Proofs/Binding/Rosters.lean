import Mathlib.Data.List.Basic
import Scriptlet.Proofs.Binding.Pending

/-!
# The history of scopes

**Theorem (`Scopes.answers_of_history`).** Let scopes have come of a fresh root by any entering,
leaving, declaring and defining. Then both tables of a layer have the same names, and no global is
both pending and defined. How far out a name is declared and whether it is pending are answered from
one place: the first layer that holds the name, or the globals if there is none. A name is refused
if and only if the innermost layer holds it, and on account of the token that entered it first. And
what is entered and left again leaves no trace.

**Rosters.** For each scope a roster lists the tokens that were declared or defined there, in order,
whether they were refused or not. It does not depend on layers at all, and a layer can be read off
it (`Layer.Tells`): a name is held if a token of the roster has it, and declared by the first that
does. One step keeps this of all layers (`Scopes.Tells.after`), so a history does.

**Balance.** What is done from entering a scope to leaving it again is a balanced row of deeds
(`Scopes.Balanced`). Its steps go no deeper than the scope that was entered
(`Scopes.Balanced.afterAll`), so when this is left, the scopes are those of before.
-/

namespace Scriptlet

/-! ## Layers and rosters -/

namespace Layer

/-- The layer has come of these tokens, in this order. -/
structure Tells (l : Layer) (roster : List Token) : Prop where
  keys : l.declarers.keys = l.ready.keys
  first : ∀ name, l.declarers.find? name = roster.find? (·.lexeme == name)

variable {l l' : Layer} {roster : List Token} {t first : Token}

theorem tells_empty : Layer.empty.Tells [] := ⟨rfl, fun _ => rfl⟩

/-- A name is held if and only if it has a declarer. -/
theorem Tells.holds_iff (h : l.Tells roster) {name : String} :
    l.holds name = true ↔ ∃ first, l.declarers.find? name = some first := by
  rw [← Option.isSome_iff_exists]
  exact Table.contains_iff.trans (h.keys ▸ Table.contains_iff.symm)

/-- A new name is entered into both tables. -/
theorem Tells.insert (h : l.Tells roster) (hnew : l.declarers.find? t.lexeme = none)
    (ready : Bool) :
    Tells ⟨l.declarers.insert t.lexeme t, l.ready.insert t.lexeme ready⟩ (roster ++ [t]) := by
  refine ⟨by rw [Table.keys_insert, Table.keys_insert, h.keys], fun name => ?_⟩
  rw [Table.find?_insert, List.find?_append, ← h.first, List.find?_singleton]
  by_cases hname : name = t.lexeme
  · subst hname
    simp [hnew]
  · simp [hname, Ne.symm hname]

/-- A name that has a declarer keeps it. -/
theorem Tells.again (h : l.Tells roster) (hheld : l.declarers.find? t.lexeme = some first)
    {ready : Table Bool} (hready : ready.keys = l.ready.keys) :
    Tells ⟨l.declarers, ready⟩ (roster ++ [t]) := by
  refine ⟨h.keys.trans hready.symm, fun name => ?_⟩
  rw [List.find?_append, ← h.first, List.find?_singleton]
  by_cases hname : name = t.lexeme
  · subst hname
    simp [hheld]
  · simp [Ne.symm hname]

/-- A name is refused on account of the token that declares it. -/
theorem declare_eq_error_iff :
    l.declare t = .error first ↔ l.declarers.find? t.lexeme = some first := by
  unfold Layer.declare
  cases l.declarers.find? t.lexeme with
  | none => exact ⟨nofun, nofun⟩
  | some first' =>
    exact ⟨fun h => congrArg some (Except.error.inj h), fun h => congrArg _ (Option.some.inj h)⟩

theorem Tells.declare (h : l.Tells roster) (hd : l.declare t = .ok l') :
    l'.Tells (roster ++ [t]) := by
  unfold Layer.declare at hd
  split at hd
  · cases hd
  · next hnew =>
    obtain rfl := Except.ok.inj hd
    exact h.insert hnew false

/-- A token that is refused is in the roster, and makes no difference there. -/
theorem Tells.refuse (h : l.Tells roster) (hd : l.declare t = .error first) :
    l.Tells (roster ++ [t]) := h.again (declare_eq_error_iff.1 hd) rfl

theorem Tells.define (h : l.Tells roster) (t : Token) : (l.define t).Tells (roster ++ [t]) := by
  unfold Layer.define Table.contains
  cases hfind : l.declarers.find? t.lexeme with
  | none => exact h.insert hfind true
  | some first =>
    refine h.again hfind ?_
    have hmem : t.lexeme ∈ l.ready.keys := Table.contains_iff.1 (h.holds_iff.2 ⟨first, hfind⟩)
    rw [Table.keys_insert, if_pos hmem]

end Layer

/-! ## Globals -/

namespace Globals

variable {g : Globals}

theorem disjoint_declare (h : g.pending.Disjoint g.defined) (t : Token) :
    (g.declare t).pending.Disjoint (g.declare t).defined := by
  unfold declare
  split
  · exact h
  · next hnot =>
    intro name hpending hdefined
    rcases List.mem_insert_iff.1 hpending with rfl | hold
    · exact hnot hdefined
    · exact h hold hdefined

theorem disjoint_define (h : g.pending.Disjoint g.defined) (t : Token) :
    (g.define t).pending.Disjoint (g.define t).defined := by
  intro name hpending hdefined
  obtain ⟨hold, hother⟩ := List.mem_filter.1 hpending
  rcases List.mem_insert_iff.1 hdefined with rfl | hdefined
  · exact of_decide_eq_true hother rfl
  · exact h hold hdefined

end Globals

/-! ## Deeds -/

namespace Scopes

/-- What is done to scopes. -/
inductive Deed where
  | enter
  | leave
  | declare (name : Token)
  | define (name : Token)

/-- The scopes behind a deed. What is refused changes nothing: to leave what was not entered, and to
declare a name twice. -/
def after (s : Scopes) : Deed → Scopes
  | .enter => s.enter
  | .leave => s.leave?.getD s
  | .declare name => s.announce name
  | .define name => s.define name

/-- The scopes behind deeds. -/
def afterAll (s : Scopes) (deeds : List Deed) : Scopes := deeds.foldl after s

end Scopes

/-- For each scope the tokens that were declared or defined there, in order. -/
structure Rosters where
  /-- The rosters of the layers, the innermost first. -/
  layers : List (List Token)
  root : List Token

namespace Rosters

/-- Adds a token to the roster of the innermost scope. -/
def add (r : Rosters) (t : Token) : Rosters :=
  match r.layers with
  | [] => { r with root := r.root ++ [t] }
  | top :: outer => { r with layers := (top ++ [t]) :: outer }

/-- The rosters behind a deed. -/
def after (r : Rosters) : Scopes.Deed → Rosters
  | .enter => { r with layers := [] :: r.layers }
  | .leave => { r with layers := r.layers.tail }
  | .declare name | .define name => r.add name

/-- The rosters of a history. -/
def ofDeeds (deeds : List Scopes.Deed) : Rosters := deeds.foldl after ⟨[], []⟩

/-- The roster of the innermost scope. -/
def innermost (r : Rosters) : List Token := r.layers.headD r.root

end Rosters

/-- A root about which nothing is known but global names. -/
inductive Root.Fresh : Root → Prop
  | globals (known : List String) : Fresh (.globals (.knowing known))
  | layer : Fresh (.layer .empty)

/-- A root as it should be: a layer that has come of these tokens, or globals that are pending or
defined, but not both. -/
def Root.Tells (roster : List Token) : Root → Prop
  | .globals g => g.pending.Disjoint g.defined
  | .layer l => l.Tells roster

theorem Root.Fresh.tells {root : Root} (h : root.Fresh) : root.Tells [] := by
  cases h with
  | globals known => exact List.disjoint_nil_left known
  | layer => exact Layer.tells_empty

namespace Scopes

/-- Scope by scope, these are the rosters. -/
structure Tells (s : Scopes) (r : Rosters) : Prop where
  layers : List.Forall₂ Layer.Tells s.layers r.layers
  root : s.root.Tells r.root

variable {s : Scopes} {r : Rosters} {deeds : List Deed}

theorem Tells.announce (h : s.Tells r) (name : Token) : (s.announce name).Tells (r.add name) := by
  obtain ⟨layers, root⟩ := s
  obtain ⟨rosters, roster⟩ := r
  obtain ⟨hlayers, hroot⟩ := h
  unfold Scopes.announce Scopes.declare Rosters.add
  cases hlayers with
  | nil =>
    cases root with
    | globals g => exact ⟨.nil, Globals.disjoint_declare hroot name⟩
    | layer l =>
      simp only [Root.declare]
      cases hd : l.declare name with
      | ok l' => exact ⟨.nil, Layer.Tells.declare hroot hd⟩
      | error first => exact ⟨.nil, Layer.Tells.refuse hroot hd⟩
  | @cons top ts outer tss htop houter =>
    simp only
    cases hd : top.declare name with
    | ok top' => exact ⟨.cons (htop.declare hd) houter, hroot⟩
    | error first => exact ⟨.cons (htop.refuse hd) houter, hroot⟩

theorem Tells.define (h : s.Tells r) (name : Token) : (s.define name).Tells (r.add name) := by
  obtain ⟨layers, root⟩ := s
  obtain ⟨rosters, roster⟩ := r
  obtain ⟨hlayers, hroot⟩ := h
  unfold Scopes.define Rosters.add
  cases hlayers with
  | nil =>
    cases root with
    | globals g => exact ⟨.nil, Globals.disjoint_define hroot name⟩
    | layer l => exact ⟨.nil, Layer.Tells.define hroot name⟩
  | cons htop houter => exact ⟨.cons (htop.define name) houter, hroot⟩

/-- **One deed keeps the rosters.** -/
theorem Tells.after (h : s.Tells r) (deed : Deed) : (s.after deed).Tells (r.after deed) := by
  cases deed with
  | enter => exact ⟨.cons Layer.tells_empty h.layers, h.root⟩
  | leave =>
    obtain ⟨layers, root⟩ := s
    obtain ⟨rosters, roster⟩ := r
    obtain ⟨hlayers, hroot⟩ := h
    cases hlayers with
    | nil => exact ⟨.nil, hroot⟩
    | cons _ houter => exact ⟨houter, hroot⟩
  | declare name => exact h.announce name
  | define name => exact h.define name

theorem Tells.foldl (h : s.Tells r) (deeds : List Deed) :
    (s.afterAll deeds).Tells (deeds.foldl Rosters.after r) := by
  induction deeds generalizing s r with
  | nil => exact h
  | cons deed deeds ih => exact ih (h.after deed)

/-- **A history keeps the rosters.** -/
theorem tells_of_history {root : Root} (hroot : root.Fresh) (deeds : List Deed) :
    ((outermost root).afterAll deeds).Tells (.ofDeeds deeds) :=
  Tells.foldl ⟨.nil, hroot.tells⟩ deeds

/-! ## The stack -/

/-- All layers, the innermost first. A root that is a layer is the last of them. -/
def stack (s : Scopes) : List Layer :=
  s.layers ++ match s.root with
    | .globals _ => []
    | .layer l => [l]

/-- The innermost layer has come of the roster of the innermost scope. -/
theorem Tells.innermost (h : s.Tells r) : ∀ top ∈ s.stack.head?, top.Tells r.innermost := by
  obtain ⟨layers, root⟩ := s
  obtain ⟨rosters, roster⟩ := r
  obtain ⟨hlayers, hroot⟩ := h
  intro top htop
  cases hlayers with
  | nil =>
    cases root with
    | globals g => cases htop
    | layer l =>
      obtain rfl := Option.some.inj htop
      exact hroot
  | cons hl _ =>
    obtain rfl := Option.some.inj htop
    exact hl

/-- Both tables of a layer have the same names, in the same order. -/
theorem Tells.keys (h : s.Tells r) : ∀ l ∈ s.stack, l.declarers.keys = l.ready.keys := by
  intro l hl
  rcases List.mem_append.1 hl with hl | hl
  · have hlayers := h.layers.imp fun _ _ (ht : Layer.Tells _ _) => And.intro ht.keys ht
    exact ((List.forall₂_and_left _ _).1 hlayers).1 l hl
  · have hroot := h.root
    cases hr : s.root with
    | globals g =>
      rw [hr] at hl
      cases hl
    | layer l' =>
      rw [hr] at hl hroot
      obtain rfl := List.mem_singleton.1 hl
      exact Layer.Tells.keys hroot

/-- Whether a name is refused is up to the innermost layer. -/
theorem declare_eq_error_iff {name first : Token} : s.declare name = .error first ↔
    ∃ top ∈ s.stack.head?, top.declare name = .error first := by
  have hmap : ∀ {α β : Type} (f : α → β) (x : Except Token α),
      x.map f = .error first ↔ x = .error first := by
    intro α β f x
    cases x <;> simp [Except.map]
  obtain ⟨layers, root⟩ := s
  unfold Scopes.declare
  cases layers with
  | nil =>
    cases root with
    | globals g => exact ⟨nofun, nofun⟩
    | layer l =>
      simp only [Root.declare, hmap]
      exact ⟨fun h => ⟨l, rfl, h⟩, fun ⟨_, htop, h⟩ => Option.some.inj htop ▸ h⟩
  | cons top outer =>
    simp only [hmap]
    exact ⟨fun h => ⟨top, rfl, h⟩, fun ⟨_, htop, h⟩ => Option.some.inj htop ▸ h⟩

/-! ## Answers -/

/-- One place answers for a name how far out it is declared and whether it is pending: the first
layer that holds it, or else the globals, which have no depth. -/
inductive Answers (s : Scopes) (name : String) : Option Nat → Bool → Prop
  | layer {depth : Nat} {l : Layer} : s.stack[depth]? = some l → l.holds name = true →
      (∀ l' ∈ s.stack.take depth, l'.holds name = false) →
      Answers s name (some depth) (l.isPending name)
  | globals {g : Globals} : s.root = .globals g → (∀ l ∈ s.stack, l.holds name = false) →
      Answers s name none (g.isPending name)
  | nowhere {l : Layer} : s.root = .layer l → (∀ l ∈ s.stack, l.holds name = false) →
      Answers s name none false

variable {layers : List Layer} {root : Root} {name : String} {top : Layer}

/-- The innermost layer answers for a name that it holds. -/
theorem answers_of_holds (h : top.holds name = true) :
    Answers ⟨top :: layers, root⟩ name (some 0) (top.isPending name) := .layer rfl h nofun

/-- For a name that the innermost layer does not hold, what is around it answers. -/
theorem Answers.cons {depth : Option Nat} {pending : Bool} (h : top.holds name = false)
    (ha : Answers ⟨layers, root⟩ name depth pending) :
    Answers ⟨top :: layers, root⟩ name (depth.map (· + 1)) pending := by
  cases ha with
  | layer hl hholds hbefore => exact .layer hl hholds (List.forall_mem_cons.2 ⟨h, hbefore⟩)
  | globals hroot hnone => exact .globals hroot (List.forall_mem_cons.2 ⟨h, hnone⟩)
  | nowhere hroot hnone => exact .nowhere hroot (List.forall_mem_cons.2 ⟨h, hnone⟩)

/-- At the root, the root answers. -/
theorem answers_root (root : Root) (name : String) :
    Answers ⟨[], root⟩ name (root.depthOf name) (root.isPending name) := by
  cases root with
  | globals g => exact .globals rfl nofun
  | layer l =>
    show Answers _ name (if l.holds name then some 0 else none) (l.isPending name)
    by_cases hholds : l.holds name = true
    · rw [if_pos hholds]
      exact .layer rfl hholds nofun
    · have hpending : l.isPending name = false :=
        Bool.eq_false_iff.2 fun hpending => hholds (Layer.holds_of_isPending hpending)
      rw [if_neg hholds, hpending]
      exact .nowhere rfl (List.forall_mem_singleton.2 (Bool.eq_false_iff.2 hholds))

/-- **Both answers come from one place.** -/
theorem answers (s : Scopes) (name : String) :
    s.Answers name (s.depthOf name) (s.isPending name) := by
  obtain ⟨layers, root⟩ := s
  induction layers with
  | nil => exact answers_root root name
  | cons top outer ih =>
    unfold depthOf isPending at ih ⊢
    rw [depthIn, List.find?_cons]
    cases hholds : top.holds name with
    | true => exact answers_of_holds hholds
    | false => exact ih.cons hholds

/-! ## What is entered and left again -/

/-- A row of deeds that leaves the scopes that it enters, and no others. -/
inductive Balanced : List Deed → Prop
  | nil : Balanced []
  | declare (name : Token) {deeds : List Deed} : Balanced deeds → Balanced (.declare name :: deeds)
  | define (name : Token) {deeds : List Deed} : Balanced deeds → Balanced (.define name :: deeds)
  | nested {inner deeds : List Deed} : Balanced inner → Balanced deeds →
      Balanced (.enter :: (inner ++ .leave :: deeds))

theorem afterAll_append (s : Scopes) (deeds deeds' : List Deed) :
    s.afterAll (deeds ++ deeds') = (s.afterAll deeds).afterAll deeds' := List.foldl_append ..

/-- To declare a name changes the innermost layer alone. -/
theorem announce_cons (top : Layer) (layers : List Layer) (root : Root) (name : Token) :
    ∃ top', announce ⟨top :: layers, root⟩ name = ⟨top' :: layers, root⟩ := by
  unfold announce Scopes.declare
  cases hd : top.declare name with
  | ok top' => exact ⟨top', by simp only [hd, Except.map]⟩
  | error first => exact ⟨top, by simp only [hd, Except.map]⟩

/-- **Balanced deeds change the innermost layer alone.** -/
theorem Balanced.afterAll (hb : Balanced deeds) (top : Layer) (layers : List Layer) (root : Root) :
    ∃ top', Scopes.afterAll ⟨top :: layers, root⟩ deeds = ⟨top' :: layers, root⟩ := by
  induction hb generalizing top layers with
  | nil => exact ⟨top, rfl⟩
  | declare name _ ih =>
    obtain ⟨top', hdeclare⟩ := announce_cons top layers root name
    obtain ⟨top'', hrest⟩ := ih top' layers
    exact ⟨top'', by rw [← hrest, ← hdeclare]; rfl⟩
  | define name _ ih => exact ih (top.define name) layers
  | @nested inner deeds _ _ ihinner ihdeeds =>
    obtain ⟨new, hinner⟩ := ihinner .empty (top :: layers)
    obtain ⟨top', hrest⟩ := ihdeeds top layers
    refine ⟨top', ?_⟩
    show Scopes.afterAll ⟨.empty :: top :: layers, root⟩ (inner ++ .leave :: deeds) = _
    rw [afterAll_append, hinner]
    exact hrest

/-- **What is entered and left again leaves no trace.** -/
theorem Balanced.afterAll_enclosed (hb : Balanced deeds) (s : Scopes) :
    s.afterAll (.enter :: (deeds ++ [.leave])) = s := by
  obtain ⟨top, hdeeds⟩ := hb.afterAll .empty s.layers s.root
  show Scopes.afterAll ⟨.empty :: s.layers, s.root⟩ (deeds ++ [.leave]) = s
  rw [afterAll_append, hdeeds]
  rfl

/-! ## All of it together -/

/-- **What scopes answer.** Behind any history: the tables of a layer have the same names; no global
is pending and defined; depth and readiness of a name are answered from one place; a name is refused
if and only if the innermost layer holds it, on account of the first token of its roster, and all
stays as it was; and what is entered and left again leaves no trace. -/
theorem answers_of_history {root : Root} (hroot : root.Fresh) (deeds : List Deed) :
    let s := (outermost root).afterAll deeds
    (∀ l ∈ s.stack, l.declarers.keys = l.ready.keys) ∧
    (∀ g, s.root = .globals g → g.pending.Disjoint g.defined) ∧
    (∀ name, s.Answers name (s.depthOf name) (s.isPending name)) ∧
    (∀ name, (∃ first, s.declare name = .error first) ↔
      ∃ top ∈ s.stack.head?, top.holds name.lexeme = true) ∧
    (∀ name first, s.declare name = .error first →
      (Rosters.ofDeeds deeds).innermost.find? (·.lexeme == name.lexeme) = some first ∧
        s.after (.declare name) = s) ∧
    ∀ inner, Balanced inner → s.afterAll (.enter :: (inner ++ [.leave])) = s := by
  intro s
  have htells : s.Tells (.ofDeeds deeds) := tells_of_history hroot deeds
  refine ⟨htells.keys, fun g hg => ?_, s.answers, fun name => ?_, fun name first hd => ⟨?_, ?_⟩,
    fun inner hinner => hinner.afterAll_enclosed s⟩
  · have hglobals := htells.root
    rw [hg] at hglobals
    exact hglobals
  · constructor
    · rintro ⟨first, hd⟩
      obtain ⟨top, htop, hrefused⟩ := declare_eq_error_iff.1 hd
      have hheld := Layer.declare_eq_error_iff.1 hrefused
      exact ⟨top, htop, (htells.innermost top htop).holds_iff.2 ⟨first, hheld⟩⟩
    · rintro ⟨top, htop, hholds⟩
      obtain ⟨first, hheld⟩ := (htells.innermost top htop).holds_iff.1 hholds
      exact ⟨first, declare_eq_error_iff.2 ⟨top, htop, Layer.declare_eq_error_iff.2 hheld⟩⟩
  · obtain ⟨top, htop, hrefused⟩ := declare_eq_error_iff.1 hd
    rw [← (htells.innermost top htop).first]
    exact Layer.declare_eq_error_iff.1 hrefused
  · show s.announce name = s
    unfold announce
    rw [hd]

/-- A name that was defined without a declaration is refused on account of the token that defined
it, whatever is declared in a scope within. -/
theorem answers_of_history_refused :
    let a (line : Nat) : Token := ⟨.name, "a", .nil, line, 0⟩
    let root : Root := .globals (.knowing ["b"])
    let inner : List Deed := [.declare (a 3)]
    let deeds : List Deed :=
      .declare (a 1) :: .enter :: .define (a 2) :: .enter :: (inner ++ [.leave])
    let s := (outermost root).afterAll deeds
    root.Fresh ∧ Balanced inner ∧ s.declare (a 4) = .error (a 2) ∧
      s.afterAll (.enter :: (inner ++ [.leave])) = s := by
  intro a root inner deeds s
  have hroot : root.Fresh := .globals ["b"]
  have hinner : Balanced inner := .declare _ .nil
  obtain ⟨-, -, -, hrefused, hfirst, htrace⟩ := answers_of_history hroot deeds
  have hheld : s.stack.head?.any (·.holds "a") = true := by decide +kernel
  have hroster : (Rosters.ofDeeds deeds).innermost.find? (·.lexeme == "a") = some (a 2) := by
    decide +kernel
  obtain ⟨first, hd⟩ := (hrefused (a 4)).2 ((Option.any_eq_true _ _).1 hheld)
  obtain rfl := Option.some.inj ((hfirst (a 4) first hd).1.symm.trans hroster)
  exact ⟨hroot, hinner, hd, htrace inner hinner⟩

end Scopes

end Scriptlet

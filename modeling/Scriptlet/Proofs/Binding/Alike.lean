import Scriptlet.Proofs.Binding.Sites
import Scriptlet.Proofs.Table
import Scriptlet.Proofs.Tree.Alike

/-!
# Walks over trees that are alike

The walks over two trees that are alike come to the same references in the same order and find the
same depths for them. If the first walk finds no trouble, nor does the second
(`Binding.stmts_alike`). The layers of the scopes are alike, each under its own mark
(`Layers.Alike`). The globals need not be the same: it is enough that all that are known to be
defined in the first walk are known in the second (`Globals.Covers`).
-/

namespace Scriptlet

variable {K : Likeness} {marks ms : List Bool} {b : Bool} {n n' : Token}

/-! ## Scopes -/

/-- More globals are defined, and fewer pending. -/
structure Globals.Covers (g g' : Globals) : Prop where
  pending : g'.pending ⊆ g.pending
  defined : g.defined ⊆ g'.defined

/-- Layers hold the same names, mapped under a mark. -/
structure Layer.Alike (K : Likeness) (b : Bool) (l l' : Layer) : Prop where
  declarers : l.declarers.Like (K.name b) (fun _ _ => True) l'.declarers
  ready : l.ready.Like (K.name b) Eq l'.ready
  occurs : ∀ name, l.holds name = true → K.occurs name

/-- Layer by layer, names are mapped under these marks. -/
inductive Layers.Alike (K : Likeness) : List Bool → List Layer → List Layer → Prop
  | nil : Layers.Alike K [] [] []
  | cons {b : Bool} {marks : List Bool} {l l' : Layer} {ls ls' : List Layer} : l.Alike K b l' →
      Layers.Alike K marks ls ls' → Layers.Alike K (b :: marks) (l :: ls) (l' :: ls')

/-- Scopes are alike: the layers under these marks, and the globals of the second cover those of
the first. -/
inductive Scopes.Alike (K : Likeness) (marks : List Bool) : Scopes → Scopes → Prop
  | intro {layers layers' : List Layer} {g g' : Globals} : Layers.Alike K marks layers layers' →
      g.Covers g' → Scopes.Alike K marks ⟨layers, .globals g⟩ ⟨layers', .globals g'⟩

theorem Globals.Covers.refl (g : Globals) : g.Covers g := ⟨fun _ h => h, fun _ h => h⟩

namespace Globals.Covers

variable {g g' : Globals}

theorem declare (h : g.Covers g') (hn : n'.lexeme = n.lexeme) :
    (g.declare n).Covers (g'.declare n') := by
  unfold Globals.declare
  rw [hn]
  by_cases hd : n.lexeme ∈ g.defined
  · rw [if_pos hd, if_pos (h.defined hd)]
    exact h
  · rw [if_neg hd]
    split
    · exact ⟨fun k hk => List.mem_insert_iff.2 (.inr (h.pending hk)), h.defined⟩
    · refine ⟨fun k hk => ?_, h.defined⟩
      exact List.mem_insert_iff.2 ((List.mem_insert_iff.1 hk).imp_right (h.pending ·))

theorem define (h : g.Covers g') (hn : n'.lexeme = n.lexeme) :
    (g.define n).Covers (g'.define n') := by
  unfold Globals.define
  rw [hn]
  refine ⟨fun k hk => ?_, fun k hk => ?_⟩
  · obtain ⟨hmem, hne⟩ := List.mem_filter.1 hk
    exact List.mem_filter.2 ⟨h.pending hmem, hne⟩
  · exact List.mem_insert_iff.2 ((List.mem_insert_iff.1 hk).imp_right (h.defined ·))

end Globals.Covers

namespace Layer

variable {l l' : Layer}

theorem alike_empty : Layer.empty.Alike K b .empty :=
  ⟨Table.like_empty, Table.like_empty, nofun⟩

theorem Alike.holds (h : l.Alike K b l') (name : String) :
    l'.holds (K.name b name) = l.holds name := h.ready.contains (K.injective b) name

/-- A name that is not held is not held after it was mapped, under whatever mark. -/
theorem Alike.holds_eq_false (h : l.Alike K b l') {b' : Bool} {name : String}
    (hname : K.occurs name) (hl : l.holds name = false) : l'.holds (K.name b' name) = false := by
  refine Bool.eq_false_iff.2 fun hh => ?_
  have hkeys := Table.contains_iff.1 hh
  rw [h.ready.keys, List.mem_map] at hkeys
  obtain ⟨other, hother, heq⟩ := hkeys
  have hheld : l.holds other = true := Table.contains_iff.2 hother
  obtain rfl := K.apart (h.occurs other hheld) hname heq
  rw [hl] at hheld
  cases hheld

theorem Alike.isPending (h : l.Alike K b l') (name : String) :
    l'.isPending (K.name b name) = l.isPending name := by
  have hrel := h.ready.find? (K.injective b) name
  unfold Layer.isPending
  generalize l.ready.find? name = o at hrel
  generalize l'.ready.find? (K.name b name) = o' at hrel
  cases hrel with
  | none => rfl
  | some heq => rw [heq]

/-- Entering a name under the mark. -/
theorem Alike.insert (h : l.Alike K b l') (hn : K.Named b n n') (ready : Bool) :
    Layer.Alike K b ⟨l.declarers.insert n.lexeme n, l.ready.insert n.lexeme ready⟩
      ⟨l'.declarers.insert n'.lexeme n', l'.ready.insert n'.lexeme ready⟩ := by
  rw [hn.lexeme]
  refine ⟨h.declarers.insert (K.injective b) trivial, h.ready.insert (K.injective b) rfl, ?_⟩
  intro name hname
  rcases Table.contains_insert.1 hname with rfl | hold
  · exact hn.occurs
  · exact h.occurs name hold

end Layer

namespace Scopes.Alike

variable {s s' : Scopes}

/-- A name has the same depth under the mark of the region that it is found in. -/
theorem depthOf (h : s.Alike K marks s')
    (hn : K.Named (Likeness.mark marks (s.depthOf n.lexeme)) n n') :
    s'.depthOf n'.lexeme = s.depthOf n.lexeme := by
  cases h with
  | @intro layers layers' g g' hl _ =>
    change K.Named (Likeness.mark marks (depthIn (.globals g) n.lexeme layers)) n n' at hn
    show depthIn (.globals g') n'.lexeme layers' = depthIn (.globals g) n.lexeme layers
    induction hl with
    | nil => rfl
    | @cons b marks l l' ls ls' hl _ ih =>
      unfold depthIn at hn ⊢
      by_cases hholds : l.holds n.lexeme = true
      · rw [if_pos hholds] at hn ⊢
        have hmark : Likeness.mark (b :: marks) (some 0) = b := rfl
        rw [hmark] at hn
        rw [hn.lexeme, if_pos (by rw [hl.holds]; exact hholds)]
      · rw [if_neg hholds] at hn ⊢
        have hmark : Likeness.mark (b :: marks) ((depthIn (.globals g) n.lexeme ls).map (· + 1)) =
            Likeness.mark marks (depthIn (.globals g) n.lexeme ls) := by
          cases depthIn (.globals g) n.lexeme ls <;> rfl
        rw [hmark] at hn
        have hnot : l'.holds n'.lexeme = false := by
          rw [hn.lexeme]
          exact hl.holds_eq_false hn.occurs (Bool.eq_false_iff.2 hholds)
        rw [if_neg (by rw [hnot]; exact Bool.false_ne_true), ih hn]

/-- A name that is pending was pending before it was mapped. -/
theorem isPending (h : s.Alike K marks s')
    (hn : K.Named (Likeness.mark marks (s.depthOf n.lexeme)) n n')
    (hp : s.isPending n.lexeme = false) : s'.isPending n'.lexeme = false := by
  cases h with
  | @intro layers layers' g g' hl hg =>
    change K.Named (Likeness.mark marks (depthIn (.globals g) n.lexeme layers)) n n' at hn
    induction hl with
    | nil =>
      have hlexeme : n'.lexeme = n.lexeme := K.lexeme_false hn.token
      refine Bool.eq_false_iff.2 fun hpending => Bool.eq_false_iff.1 hp ?_
      rw [hlexeme] at hpending
      exact decide_eq_true (hg.pending (of_decide_eq_true hpending))
    | @cons b marks l l' ls ls' hl _ ih =>
      unfold depthIn at hn
      rw [isPending_cons] at hp ⊢
      by_cases hholds : l.holds n.lexeme = true
      · rw [if_pos hholds] at hn hp
        have hmark : Likeness.mark (b :: marks) (some 0) = b := rfl
        rw [hmark] at hn
        rw [hn.lexeme, hl.holds, if_pos hholds, hl.isPending]
        exact hp
      · rw [if_neg hholds] at hn hp
        have hmark : Likeness.mark (b :: marks) ((depthIn (.globals g) n.lexeme ls).map (· + 1)) =
            Likeness.mark marks (depthIn (.globals g) n.lexeme ls) := by
          cases depthIn (.globals g) n.lexeme ls <;> rfl
        rw [hmark] at hn
        have hnot : l'.holds n'.lexeme = false := by
          rw [hn.lexeme]
          exact hl.holds_eq_false hn.occurs (Bool.eq_false_iff.2 hholds)
        rw [if_neg (by rw [hnot]; exact Bool.false_ne_true)]
        exact ih hp hn

theorem enter (h : s.Alike K marks s') (b : Bool) : s.enter.Alike K (b :: marks) s'.enter := by
  cases h with
  | intro hl hg => exact .intro (.cons Layer.alike_empty hl) hg

theorem define (h : s.Alike K marks s') (hn : K.Declares marks n n') :
    (s.define n).Alike K marks (s'.define n') := by
  cases h with
  | intro hl hg =>
    cases hl with
    | nil => exact .intro .nil (hg.define (K.lexeme_false hn.token))
    | @cons b marks l l' ls ls' hl hls =>
      refine .intro (.cons ?_ hls) hg
      have hd := hl.declarers.contains (K.injective _) n.lexeme
      have hlexeme : n'.lexeme = K.name b n.lexeme := hn.lexeme
      rw [← hlexeme] at hd
      unfold Layer.define
      rw [hd]
      have hinsert := hl.insert hn true
      split
      · exact ⟨hl.declarers, hinsert.ready, hinsert.occurs⟩
      · exact hinsert

/-- Two declarations succeed, or neither does. -/
theorem declare (h : s.Alike K marks s') (hn : K.Declares marks n n') :
    (∃ s₁ s₁', s.declare n = .ok s₁ ∧ s'.declare n' = .ok s₁' ∧ s₁.Alike K marks s₁') ∨
      ∃ first first', s.declare n = .error first ∧ s'.declare n' = .error first' := by
  cases h with
  | intro hl hg =>
    cases hl with
    | nil =>
      exact .inl ⟨_, _, rfl, rfl, .intro .nil (hg.declare (K.lexeme_false hn.token))⟩
    | @cons b marks l l' ls ls' hl hls =>
      have hrel := hl.declarers.find? (K.injective _) n.lexeme
      have hlexeme : n'.lexeme = K.name b n.lexeme := hn.lexeme
      rw [← hlexeme] at hrel
      unfold Scopes.declare Layer.declare
      dsimp only
      generalize l.declarers.find? n.lexeme = o at hrel
      generalize l'.declarers.find? n'.lexeme = o' at hrel
      cases hrel with
      | some _ => exact .inr ⟨_, _, rfl, rfl⟩
      | none => exact .inl ⟨_, _, rfl, rfl, .intro (.cons (hl.insert hn false) hls) hg⟩

end Scopes.Alike

/-! ## Walks -/

namespace Binding

/-- What is found out about a reference, apart from its name. -/
def Reference.finding (r : Reference) : Nat × Bool × Option Nat := (r.serial, r.writes, r.depth)

/-- What is found out about the references of a log. -/
def findings (log : List Event) : List (Nat × Bool × Option Nat) :=
  (log.filterMap Event.reference?).map Reference.finding

/-- The states of two walks are alike, but for their logs. A walk that is inside of more functions
finds no more returns that are astray. -/
structure Walk.Alike (K : Likeness) (marks : List Bool) (w w' : Walk) : Prop where
  scopes : w.scopes.Alike K marks w'.scopes
  functions : w.functions ≤ w'.functions

/-- Two walks have gone on alike, from `w` to `w₁` and from `w'` to `w₁'`. -/
structure Paced (K : Likeness) (marks : List Bool) (w w' w₁ w₁' : Walk) : Prop where
  alike : w₁.Alike K marks w₁'
  log : ∃ new new', w₁.log.toList = w.log.toList ++ new ∧ w₁'.log.toList = w'.log.toList ++ new' ∧
    findings new' = findings new ∧
    ((∀ e ∈ new, e.isTrouble = false) → ∀ e ∈ new', e.isTrouble = false)

/-- The depths of sites are the ones that the likeness goes by. -/
def Informed (K : Likeness) (sites : List Site) : Prop :=
  ∀ site ∈ sites, K.depth site.serial = site.scopes.depthOf site.name.lexeme

variable {w w' w₁ w₁' w₂ w₂' : Walk} {sites sites' : List Site} {marks' : List Bool}

theorem Informed.left (h : Informed K (sites ++ sites')) : Informed K sites :=
  fun site hs => h site (List.mem_append_left _ hs)

theorem Informed.right (h : Informed K (sites ++ sites')) : Informed K sites' :=
  fun site hs => h site (List.mem_append_right _ hs)

theorem Paced.trans (h : Paced K marks w w' w₁ w₁') (h' : Paced K marks' w₁ w₁' w₂ w₂') :
    Paced K marks' w w' w₂ w₂' := by
  obtain ⟨new, new', hnew, hnew', hfound, htrouble⟩ := h.log
  obtain ⟨more, more', hmore, hmore', hfound', htrouble'⟩ := h'.log
  refine ⟨h'.alike, new ++ more, new' ++ more', ?_, ?_, ?_, fun hall e he => ?_⟩
  · rw [hmore, hnew, List.append_assoc]
  · rw [hmore', hnew', List.append_assoc]
  · unfold findings at hfound hfound' ⊢
    rw [List.filterMap_append, List.filterMap_append, List.map_append, List.map_append, hfound,
      hfound']
  · rcases List.mem_append.1 he with he | he
    · exact htrouble (fun e he => hall e (List.mem_append_left _ he)) e he
    · exact htrouble' (fun e he => hall e (List.mem_append_right _ he)) e he

/-- A step that leaves no entries. -/
theorem Paced.quiet (h : w₁.Alike K marks w₁') (hlog : w₁.log = w.log) (hlog' : w₁'.log = w'.log) :
    Paced K marks w w' w₁ w₁' :=
  ⟨h, [], [], by rw [hlog, List.append_nil], by rw [hlog', List.append_nil], rfl,
    fun _ => List.forall_mem_nil _⟩

theorem Paced.refl (h : w.Alike K marks w') : Paced K marks w w' w w' := .quiet h rfl rfl

theorem declare_alike (h : w.Alike K marks w') (hn : K.Declares marks n n') :
    Paced K marks w w' (w.declare n) (w'.declare n') := by
  unfold Walk.declare
  rcases h.scopes.declare hn with ⟨s₁, s₁', hs, hs', halike⟩ | ⟨first, first', hs, hs'⟩
  · rw [hs, hs']
    exact .quiet ⟨halike, h.functions⟩ rfl rfl
  · rw [hs, hs']
    refine ⟨⟨h.scopes, h.functions⟩, [.declaredBefore first, .issue (.blame n .redeclared)],
      [.declaredBefore first', .issue (.blame n' .redeclared)], ?_, ?_, rfl, fun htrouble => ?_⟩
    · simp [Walk.add]
    · simp [Walk.add]
    · have hissue := htrouble _ (List.mem_cons_of_mem _ List.mem_cons_self)
      simp [Event.isTrouble] at hissue

theorem define_alike (h : w.Alike K marks w') (hn : K.Declares marks n n') :
    Paced K marks w w' (w.define n) (w'.define n') :=
  .quiet ⟨h.scopes.define hn, h.functions⟩ rfl rfl

theorem settle_alike (h : w.Alike K marks w') (hn : K.Declares marks n n') :
    Paced K marks w w' ((w.declare n).define n) ((w'.declare n').define n') := by
  have hd := declare_alike h hn
  exact hd.trans (define_alike hd.alike hn)

theorem enter_alike (h : w.Alike K marks w') (b : Bool) :
    Paced K (b :: marks) w w' w.enter w'.enter :=
  .quiet ⟨h.scopes.enter b, h.functions⟩ rfl rfl

theorem leave_alike (h : w.Alike K (b :: marks) w') : Paced K marks w w' w.leave w'.leave := by
  obtain ⟨scopes, functions, log⟩ := w
  obtain ⟨scopes', functions', log'⟩ := w'
  obtain ⟨hscopes, hfunctions⟩ := h
  change scopes.Alike K (b :: marks) scopes' at hscopes
  cases hscopes with
  | intro hl hg =>
    cases hl with
    | cons _ hls => exact .quiet ⟨.intro hls hg, hfunctions⟩ rfl rfl

theorem params_alike {params params' : List Token} (h : w.Alike K (b :: marks) w')
    (hps : List.Forall₂ (K.Named b) params params') :
    Paced K (b :: marks) w w' (params.foldl (fun w p => (w.declare p).define p) w)
      (params'.foldl (fun w p => (w.declare p).define p) w') := by
  induction hps generalizing w w' with
  | nil => exact .refl h
  | cons hp _ ih =>
    have hsettle := settle_alike h hp
    exact hsettle.trans (ih hsettle.alike)

theorem refer_alike {serial : Nat} {writes : Bool} (h : w.Alike K marks w')
    (hn : K.Named (Likeness.mark marks (K.depth serial)) n n')
    (hdepth : K.depth serial = w.scopes.depthOf n.lexeme) :
    Paced K marks w w' (w.refer serial n writes) (w'.refer serial n' writes) := by
  rw [hdepth] at hn
  refine ⟨⟨h.scopes, h.functions⟩, [.reference ⟨serial, n, writes, w.scopes.depthOf n.lexeme⟩],
    [.reference ⟨serial, n', writes, w'.scopes.depthOf n'.lexeme⟩], ?_, ?_, ?_, ?_⟩
  · simp [Walk.refer, Walk.add]
  · simp [Walk.refer, Walk.add]
  · rw [h.scopes.depthOf hn]
    rfl
  · intro _ e he
    rw [List.mem_singleton.1 he]
    rfl

/-- An issue of the first walk, and maybe one of the second. -/
theorem complain_alike {p p' : Prop} [Decidable p] [Decidable p'] (i i' : Issue)
    (h : w.Alike K marks w') (hp : p' → p) :
    Paced K marks w w' (if p then w.add (.issue i) else w)
      (if p' then w'.add (.issue i') else w') := by
  by_cases hc : p
  · have htrouble : ¬ ∀ e ∈ [Event.issue i], e.isTrouble = false := fun hall => by
      cases hall _ List.mem_cons_self
    rw [if_pos hc]
    by_cases hc' : p'
    · rw [if_pos hc']
      exact ⟨⟨h.scopes, h.functions⟩, [.issue i], [.issue i'], by simp [Walk.add],
        by simp [Walk.add], rfl, fun hall => absurd hall htrouble⟩
    · rw [if_neg hc']
      exact ⟨⟨h.scopes, h.functions⟩, [.issue i], [], by simp [Walk.add],
        (List.append_nil _).symm, rfl, fun _ => List.forall_mem_nil _⟩
  · rw [if_neg hc, if_neg fun hc' => hc (hp hc')]
    exact .refl h

/-! ## Over trees -/

mutual

theorem expr_alike (rs : List Region) : ∀ (e e' : Expr) (w w' : Walk), Expr.Alike K marks e e' →
    w.Alike K marks w' → Informed K (Sites.expr rs w.scopes e) →
    Paced K marks w w' (expr e w) (expr e' w')
  | .literal _, _, w, w', he, h, _ => by
    cases he
    exact .refl h
  | .ref name serial, _, w, w', he, h, hsites => by
    cases he with
    | @ref _ n' _ hn =>
      have hdepth : K.depth serial = w.scopes.depthOf name.lexeme := hsites _ List.mem_cons_self
      have hpending : w'.scopes.isPending n'.lexeme = true →
          w.scopes.isPending name.lexeme = true := by
        intro hp
        by_contra hnot
        rw [hdepth] at hn
        rw [h.scopes.isPending hn (Bool.eq_false_iff.2 hnot)] at hp
        cases hp
      have hcomplain := complain_alike (.blame name .selfReference) (.blame n' .selfReference) h
        hpending
      refine hcomplain.trans (refer_alike hcomplain.alike hn ?_)
      rw [hdepth]
      split <;> rfl
  | .assign name value serial, _, w, w', he, h, hsites => by
    cases he with
    | assign hn hvalue =>
      have hv := expr_alike rs value _ w w' hvalue h hsites.left
      refine hv.trans (refer_alike hv.alike hn ?_)
      rw [(expr_walked rs value w).scopes]
      exact hsites.right _ List.mem_cons_self
  | .binary lhs _ rhs, _, w, w', he, h, hsites => by
    cases he with
    | binary hlhs _ hrhs =>
      have hl := expr_alike rs lhs _ w w' hlhs h hsites.left
      refine hl.trans (expr_alike rs rhs _ _ _ hrhs hl.alike ?_)
      rw [(expr_walked rs lhs w).scopes]
      exact hsites.right
  | .logical lhs _ rhs, _, w, w', he, h, hsites => by
    cases he with
    | logical hlhs _ hrhs =>
      have hl := expr_alike rs lhs _ w w' hlhs h hsites.left
      refine hl.trans (expr_alike rs rhs _ _ _ hrhs hl.alike ?_)
      rw [(expr_walked rs lhs w).scopes]
      exact hsites.right
  | .unary _ arg, _, w, w', he, h, hsites => by
    cases he with
    | unary _ harg =>
      have ha := expr_alike rs arg _ w w' harg h hsites
      exact ha
  | .grouping inner, _, w, w', he, h, hsites => by
    cases he with
    | grouping hinner =>
      have hi := expr_alike rs inner _ w w' hinner h hsites
      exact hi
  | .call callee _ args, _, w, w', he, h, hsites => by
    cases he with
    | call hcallee _ hargs =>
      have hc := expr_alike rs callee _ w w' hcallee h hsites.left
      refine hc.trans (exprs_alike rs args _ _ _ hargs hc.alike ?_)
      rw [(expr_walked rs callee w).scopes]
      exact hsites.right

theorem exprs_alike (rs : List Region) : ∀ (es es' : List Expr) (w w' : Walk),
    Exprs.Alike K marks es es' → w.Alike K marks w' → Informed K (Sites.exprs rs w.scopes es) →
    Paced K marks w w' (exprs es w) (exprs es' w')
  | [], _, w, w', hes, h, _ => by
    cases hes
    exact .refl h
  | e :: rest, _, w, w', hes, h, hsites => by
    cases hes with
    | cons he hrest =>
      have hfirst := expr_alike rs e _ w w' he h hsites.left
      refine hfirst.trans (exprs_alike rs rest _ _ _ hrest hfirst.alike ?_)
      rw [(expr_walked rs e w).scopes]
      exact hsites.right

end

theorem optional_alike (rs : List Region) {e e' : Option Expr}
    (he : Option.Rel (Expr.Alike K marks) e e') (h : w.Alike K marks w')
    (hsites : Informed K (Sites.optional rs w.scopes e)) :
    Paced K marks w w' (optional e w) (optional e' w') := by
  cases he with
  | none => exact .refl h
  | some he => exact expr_alike rs _ _ w w' he h hsites

mutual

theorem stmt_alike (rs : List Region) (marks : List Bool) : ∀ (st st' : Stmt) (w w' : Walk),
    Stmt.Alike K marks st st' → w.Alike K marks w' → Shape.stmt st →
    Informed K (Sites.stmt rs w.scopes st) → Paced K marks w w' (stmt st w) (stmt st' w')
  | .expr e, _, w, w', hst, h, _, hsites => by
    cases hst with
    | expr he => exact expr_alike rs e _ w w' he h hsites
  | .print _ e, _, w, w', hst, h, _, hsites => by
    cases hst with
    | print he => exact expr_alike rs e _ w w' he h hsites
  | .var name init, _, w, w', hst, h, _, hsites => by
    cases hst with
    | var hn hinit =>
      have hdeclare := declare_alike h hn
      have hi := optional_alike rs hinit hdeclare.alike (by
        rw [(declare_walked w name).scopes]
        exact hsites)
      exact (hdeclare.trans hi).trans (define_alike hi.alike hn)
  | .block body, _, w, w', hst, h, hshape, hsites => by
    cases hst with
    | block b hbody =>
      have henter := enter_alike h b
      have hb := stmts_alike (.block body :: rs) (b :: marks) body _ _ _ hbody henter.alike hshape
        hsites
      exact (henter.trans hb).trans (leave_alike hb.alike)
  | .branch condition yes none, _, w, w', hst, h, hshape, hsites => by
    cases hst with
    | branch hc hyes =>
      have hcondition := expr_alike rs condition _ w w' hc h hsites.left
      refine hcondition.trans (stmt_alike rs marks yes _ _ _ hyes hcondition.alike hshape.1 ?_)
      rw [(expr_walked rs condition w).scopes]
      exact hsites.right
  | .branch condition yes (some no), _, w, w', hst, h, hshape, hsites => by
    cases hst with
    | branches hc hyes hno =>
      have hwalked := expr_walked rs condition w
      have hwalked' := stmt_walked rs yes (expr condition w) hshape.1.1
      rw [behind_of_none hshape.1.2, hwalked.scopes] at hwalked'
      have hcondition := expr_alike rs condition _ w w' hc h hsites.left
      have hy := stmt_alike rs marks yes _ _ _ hyes hcondition.alike hshape.1.1 (by
        rw [hwalked.scopes]
        exact hsites.right.left)
      refine hcondition.trans (hy.trans (stmt_alike rs marks no _ _ _ hno hy.alike hshape.2.1 ?_))
      rw [hwalked'.scopes]
      exact hsites.right.right
  | .loop condition body, _, w, w', hst, h, hshape, hsites => by
    cases hst with
    | loop hc hbody =>
      have hcondition := expr_alike rs condition _ w w' hc h hsites.left
      refine hcondition.trans (stmt_alike rs marks body _ _ _ hbody hcondition.alike hshape.1 ?_)
      rw [(expr_walked rs condition w).scopes]
      exact hsites.right
  | .function name params body, _, w, w', hst, h, hshape, hsites => by
    cases hst with
    | @function _ b _ n' _ params' _ body' hn _ hparams hbody =>
      have hsettle := settle_alike h hn
      have henter : Paced K (b :: marks) ((w.declare name).define name)
          ((w'.declare n').define n') ((w.declare name).define name).enterFunction
          ((w'.declare n').define n').enterFunction :=
        .quiet ⟨hsettle.alike.scopes.enter b, Nat.succ_le_succ hsettle.alike.functions⟩ rfl rfl
      have hps := params_alike henter.alike hparams
      have hb := stmts_alike (.function ⟨name, params, body⟩ :: rs) (b :: marks) body _ _ _ hbody
        hps.alike hshape (by
          rw [(params_walked params _).scopes]
          have hscopes : ((w.declare name).define name).enterFunction.scopes =
              (w.scopes.settle name).enter := congrArg Scopes.enter (settle_walked w name).scopes
          rw [hscopes]
          exact hsites)
      have hleave := leave_alike hb.alike
      have hall := ((hsettle.trans henter).trans (hps.trans hb)).trans hleave
      exact ⟨⟨hall.alike.scopes, Nat.pred_le_pred hb.alike.functions⟩, hall.log⟩
  | .ret keyword value, _, w, w', hst, h, _, hsites => by
    cases hst with
    | @ret _ _ k' _ value' hvalue =>
      have hstray := complain_alike (.blame keyword .strayReturn) (.blame k' .strayReturn) h
        fun hw : w'.functions = 0 => Nat.le_zero.1 (hw ▸ h.functions)
      refine hstray.trans (optional_alike rs hvalue hstray.alike ?_)
      rw [(stray_walked w (.blame keyword .strayReturn)).scopes]
      exact hsites

/-- **Walks over programs that are alike go on alike.** -/
theorem stmts_alike (rs : List Region) (marks : List Bool) : ∀ (sts sts' : List Stmt) (w w' : Walk),
    Stmts.Alike K marks sts sts' → w.Alike K marks w' → Shape.stmts sts →
    Informed K (Sites.stmts rs w.scopes sts) → Paced K marks w w' (stmts sts w) (stmts sts' w')
  | [], _, w, w', hsts, h, _, _ => by
    cases hsts
    exact .refl h
  | st :: rest, _, w, w', hsts, h, hshape, hsites => by
    cases hsts with
    | cons hst hrest =>
      have hfirst := stmt_alike rs marks st _ w w' hst h hshape.1 hsites.left
      refine hfirst.trans (stmts_alike rs marks rest _ _ _ hrest hfirst.alike hshape.2 ?_)
      rw [(stmt_walked rs st w hshape.1).scopes]
      exact hsites.right

end

end Binding

end Scriptlet

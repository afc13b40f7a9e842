import Scriptlet.Proofs.Binding.Sites
import Scriptlet.Proofs.Table

/-!
# Names are declared once

If the walk over a program finds no trouble, no block and no function of the program declares a
name twice (`Binding.regions_distinct`). So within a region a name tells which declaration is
meant, and what a variable is called, no function is.
-/

namespace Scriptlet

mutual

/-- The regions of a statement, each before those within it. -/
def Regions.stmt : Stmt → List Region
  | .expr _ | .print _ _ | .var _ _ | .ret _ _ => []
  | .block body => .block body :: Regions.stmts body
  | .branch _ yes none => Regions.stmt yes
  | .branch _ yes (some no) => Regions.stmt yes ++ Regions.stmt no
  | .loop _ body => Regions.stmt body
  | .function name params body => .function ⟨name, params, body⟩ :: Regions.stmts body

/-- The regions of statements, in order. -/
def Regions.stmts : List Stmt → List Region
  | [] => []
  | st :: rest => Regions.stmt st ++ Regions.stmts rest

end

/-- No name is declared twice. -/
def Region.Distinct (r : Region) : Prop := (r.declarations.map Token.lexeme).Nodup

namespace Binding

/-- The walk has found no trouble so far. -/
def Walk.Clean (w : Walk) : Prop := ∀ e ∈ w.log.toList, e.isTrouble = false

variable {w w' : Walk} {s : Scopes} {sites : List Site} {l : Layer} {ls : List Layer} {n : Token}

/-- What was found before is still in the log. -/
theorem Walked.clean (h : Walked w w' s sites) (hclean : w'.Clean) : w.Clean := by
  obtain ⟨new, hlog, -⟩ := h.log
  intro e he
  exact hclean e (by rw [hlog]; exact List.mem_append_left _ he)

/-- A name is declared without trouble only if its layer has not declared it. -/
theorem declare_clean (hl : w.scopes.layers = l :: ls) (hclean : (w.declare n).Clean) :
    l.declarers.contains n.lexeme = false := by
  unfold Walk.declare Scopes.declare Layer.declare at hclean
  rw [hl] at hclean
  unfold Table.contains
  cases hfound : l.declarers.find? n.lexeme with
  | none => rfl
  | some first =>
    simp only [hfound, Except.map] at hclean
    have htrouble := hclean (.issue (.blame n .redeclared)) (by simp [Walk.add])
    cases htrouble

/-- Behind its declaration a name is declared in the layer, and so are those of before. -/
theorem settle_layers (hl : s.layers = l :: ls) (n : Token) :
    ∃ l', (s.settle n).layers = l' :: ls ∧ l'.declarers.contains n.lexeme = true ∧
      ∀ name, l.declarers.contains name = true → l'.declarers.contains name = true := by
  unfold Scopes.settle Scopes.announce Scopes.define Scopes.declare Layer.declare Layer.define
  rw [hl]
  cases hfound : l.declarers.find? n.lexeme with
  | some first =>
    have hcontains : l.declarers.contains n.lexeme = true := by
      unfold Table.contains
      rw [hfound]
      rfl
    simp only [hfound, Except.map, hl, hcontains, if_true]
    exact ⟨_, rfl, hcontains, fun _ h => h⟩
  | none =>
    have hcontains : (l.declarers.insert n.lexeme n).contains n.lexeme = true :=
      Table.contains_insert.2 (.inl rfl)
    simp only [hfound, Except.map, hcontains, if_true]
    exact ⟨_, rfl, hcontains, fun _ h => Table.contains_insert.2 (.inr h)⟩

/-- These names are different, and a layer has declared none of them. -/
structure Fresh (l : Layer) (names : List Token) : Prop where
  nodup : (names.map Token.lexeme).Nodup
  new : ∀ n ∈ names, l.declarers.contains n.lexeme = false

theorem Fresh.cons {l' : Layer} {names : List Token} (hn : l.declarers.contains n.lexeme = false)
    (hdeclared : l'.declarers.contains n.lexeme = true)
    (hmore : ∀ name, l.declarers.contains name = true → l'.declarers.contains name = true)
    (h : Fresh l' names) : Fresh l (n :: names) := by
  refine ⟨List.nodup_cons.2 ⟨fun hmem => ?_, h.nodup⟩, List.forall_mem_cons.2 ⟨hn, ?_⟩⟩
  · obtain ⟨n', hn', heq⟩ := List.mem_map.1 hmem
    have hnew := h.new n' hn'
    rw [heq, hdeclared] at hnew
    cases hnew
  · intro n' hn'
    refine Bool.eq_false_iff.2 fun hold => ?_
    have hnew := h.new n' hn'
    rw [hmore _ hold] at hnew
    cases hnew

theorem clean_of_leave (hclean : w.leave.Clean) : w.Clean := by
  unfold Walk.leave at hclean
  cases hs : w.scopes.leave? with
  | none =>
    rw [hs] at hclean
    exact fun e he => hclean e (by simp [Walk.add, he])
  | some scopes =>
    rw [hs] at hclean
    exact hclean

/-- The walk has come to the body of a function. -/
def Walk.within (w : Walk) (name : Token) (params : List Token) : Walk :=
  params.foldl (fun w p => (w.declare p).define p) ((w.declare name).define name).enterFunction

/-- A statement declares its name first of all. -/
theorem declares_clean {st : Stmt} (hst : st.declares? = some n) (hshape : Shape.stmt st)
    (hclean : (stmt st w).Clean) : (w.declare n).Clean := by
  cases st with
  | var name init =>
    obtain rfl := Option.some.inj hst
    have hinit := optional_walked [] init (w.declare name)
    exact (hinit.trans (define_walked _ name)).clean hclean
  | function name params body =>
    obtain rfl := Option.some.inj hst
    have hbody : (stmts body (w.within name params)).Clean := clean_of_leave hclean
    have hparams := (stmts_walked [] body _ hshape).clean hbody
    have henter : ((w.declare name).define name).enterFunction.Clean :=
      (params_walked params _).clean hparams
    exact henter
  | _ => cases hst

/-- Parameters are different, and from whatever else is declared behind them. -/
theorem params_fresh {params names : List Token} (hl : w.scopes.layers = l :: ls)
    (hclean : (params.foldl (fun w p => (w.declare p).define p) w).Clean)
    (hnames : ∀ l', (params.foldl (fun w p => (w.declare p).define p) w).scopes.layers = l' :: ls →
      Fresh l' names) : Fresh l (params ++ names) := by
  induction params generalizing w l with
  | nil => exact hnames l hl
  | cons p rest ih =>
    have hscopes := (settle_walked w p).scopes
    obtain ⟨l', hl', hdeclared, hmore⟩ := settle_layers hl p
    rw [← hscopes] at hl'
    have hp : (w.declare p).Clean :=
      (define_walked _ p).clean ((params_walked rest _).clean hclean)
    exact .cons (declare_clean hl hp) hdeclared hmore (ih hl' hclean hnames)

/-- The names that statements declare in their own scope are different. -/
theorem stmts_fresh {sts : List Stmt} (hl : w.scopes.layers = l :: ls) (hshape : Shape.stmts sts)
    (hclean : (stmts sts w).Clean) : Fresh l (sts.filterMap Stmt.declares?) := by
  induction sts generalizing w l with
  | nil => exact ⟨List.nodup_nil, List.forall_mem_nil _⟩
  | cons st rest ih =>
    have hscopes := (stmt_walked [] st w hshape.1).scopes
    have hst := (stmts_walked [] rest (stmt st w) hshape.2).clean hclean
    unfold Scopes.behind at hscopes
    cases hd : st.declares? with
    | none =>
      rw [hd] at hscopes
      rw [List.filterMap_cons_none hd]
      exact ih (by rw [hscopes]; exact hl) hshape.2 hclean
    | some n =>
      rw [hd] at hscopes
      obtain ⟨l', hl', hdeclared, hmore⟩ := settle_layers hl n
      have hn := declare_clean hl (declares_clean hd hshape.1 hst)
      rw [List.filterMap_cons_some hd]
      exact .cons hn hdeclared hmore (ih (by rw [hscopes]; exact hl') hshape.2 hclean)

mutual

theorem regions_distinct_stmt : ∀ (st : Stmt) (w : Walk), Shape.stmt st → (stmt st w).Clean →
    ∀ r ∈ Regions.stmt st, r.Distinct
  | .expr _, _, _, _, _, h | .print _ _, _, _, _, _, h | .var _ _, _, _, _, _, h
  | .ret _ _, _, _, _, _, h => absurd h List.not_mem_nil
  | .block body, w, hshape, hclean, r, h => by
    have hbody : (stmts body w.enter).Clean := clean_of_leave hclean
    rcases List.mem_cons.1 h with rfl | h
    · exact (stmts_fresh rfl hshape hbody).nodup
    · exact regions_distinct body w.enter hshape hbody r h
  | .branch condition yes none, w, hshape, hclean, r, h =>
    regions_distinct_stmt yes (expr condition w) hshape.1 hclean r h
  | .branch condition yes (some no), w, hshape, hclean, r, h => by
    rcases List.mem_append.1 h with h | h
    · have hyes := (stmt_walked [] no _ hshape.2.1).clean hclean
      exact regions_distinct_stmt yes (expr condition w) hshape.1.1 hyes r h
    · exact regions_distinct_stmt no _ hshape.2.1 hclean r h
  | .loop condition body, w, hshape, hclean, r, h =>
    regions_distinct_stmt body (expr condition w) hshape.1 hclean r h
  | .function name params body, w, hshape, hclean, r, h => by
    have hbody : (stmts body (w.within name params)).Clean := clean_of_leave hclean
    rcases List.mem_cons.1 h with rfl | h
    · have hparams := (stmts_walked [] body _ hshape).clean hbody
      exact (params_fresh rfl hparams fun l' hl' => stmts_fresh hl' hshape hbody).nodup
    · exact regions_distinct body _ hshape hbody r h

/-- **Names are declared once** in each region of a program in which no trouble is found. -/
theorem regions_distinct : ∀ (sts : List Stmt) (w : Walk), Shape.stmts sts → (stmts sts w).Clean →
    ∀ r ∈ Regions.stmts sts, r.Distinct
  | [], _, _, _, _, h => absurd h List.not_mem_nil
  | st :: rest, w, hshape, hclean, r, h => by
    rcases List.mem_append.1 h with h | h
    · have hst := (stmts_walked [] rest _ hshape.2).clean hclean
      exact regions_distinct_stmt st w hshape.1 hst r h
    · exact regions_distinct rest (stmt st w) hshape.2 hclean r h

end

end Binding

end Scriptlet

import Scriptlet.Proofs.Eval.Limits
import Scriptlet.Proofs.Tree.Tokens

/-!
# What crashes are blamed on

The token that a crash is blamed on is one of the program, or of a function that was on the heap
before (`Machine.run_blames`).
-/

namespace Scriptlet

variable {P Q : Token → Prop}

/-- Trees whose tokens satisfy a condition. -/
def Limits.keeping (P : Token → Prop) : Limits where
  expr e := ∀ t ∈ Tokens.expr e, P t
  stmt st := ∀ t ∈ Tokens.stmt st, P t
  native _ := True
  name _ _ := True
  token := P
  fault _ := True
  blamed {e t} h ht := by
    cases e <;> cases ht <;> exact h _ List.mem_cons_self
  assign h := (List.forall_mem_cons.1 h).2
  binary h := List.forall_mem_append.1 (List.forall_mem_cons.1 h).2
  operator _ _ := trivial
  logical h := List.forall_mem_append.1 (List.forall_mem_cons.1 h).2
  unary h := (List.forall_mem_cons.1 h).2
  grouping h := h
  call h :=
    have ⟨hcallee, hargs⟩ := List.forall_mem_append.1 (List.forall_mem_cons.1 h).2
    ⟨hcallee, fun e he t ht => hargs t (Tokens.mem_exprs.2 ⟨e, he, ht⟩)⟩
  simple h := h
  print h := (List.forall_mem_cons.1 h).2
  var h := (List.forall_mem_cons.1 h).2
  block h st hst t ht := h t (Tokens.mem_stmts.2 ⟨st, hst, ht⟩)
  branch {e yes no} h := by
    obtain ⟨he, hrest⟩ : (∀ t ∈ Tokens.expr e, P t) ∧
        ∀ t ∈ Tokens.stmt yes ++ Tokens.stmts no.toList, P t := by
      cases no <;> simpa [Tokens.stmt, Tokens.stmts, or_imp, forall_and] using h
    obtain ⟨hyes, hno⟩ := List.forall_mem_append.1 hrest
    exact ⟨he, hyes, fun st hst t ht =>
      hno t (Tokens.mem_stmts.2 ⟨st, Option.mem_toList.2 hst, ht⟩)⟩
  loop h := List.forall_mem_append.1 h
  function h st hst t ht :=
    h t (List.mem_cons_of_mem _ (List.mem_append_right _ (Tokens.mem_stmts.2 ⟨st, hst, ht⟩)))
  ret h := (List.forall_mem_cons.1 h).2

theorem Limits.keeping_heap_mono (hPQ : ∀ t, P t → Q t) {h : Heap Value}
    (hh : (keeping P).heap h) : (keeping Q).heap h :=
  hh.mono (fun _ hst t ht => hPQ t (hst t ht)) fun _ hn => hn

/-- **Crashes are blamed on tokens** of the program, or of what was on the heap. The functions that
are on the heap then have no other tokens either. -/
theorem Machine.run_blames {s : Setting} (hs : s.Within (.keeping P)) {m : Machine}
    {program : List Stmt} (hheap : (Limits.keeping P).heap m.heap)
    (hprogram : ∀ t ∈ Tokens.stmts program, P t) (fuel room : Nat) :
    (Limits.keeping P).heap (m.run s fuel room program).2.heap ∧
      ∀ c, (m.run s fuel room program).1 = .stopped (.crash c) → P c.token := by
  have hkeeps : Left (.keeping P) m (m.run s fuel room program).2 ∧
      ∀ stop, (m.run s fuel room program).1 = .stopped stop → (Limits.keeping P).stop stop :=
    Machine.run_keeps hs hheap
      (fun st hst t ht => hprogram t (Tokens.mem_stmts.2 ⟨st, hst, ht⟩))
      fun _ _ _ _ _ _ _ _ => ⟨fun _ _ _ => trivial, fun _ _ _ _ _ _ => trivial⟩
  exact ⟨hkeeps.1.heap, fun c hc => hkeeps.2 _ hc⟩

end Scriptlet

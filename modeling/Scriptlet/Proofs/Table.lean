import Mathlib.Logic.Function.Basic
import Mathlib.Data.List.Forall2
import Scriptlet.Table

/-!
# Tables that are alike

Two tables are alike along a map of names if the second has the names of the first, mapped, in the
same places, and related values (`Table.Like`). If no two names are mapped to one, related tables
give related answers (`Table.Like.find?`), and binding related values keeps them alike
(`Table.Like.insert`).
-/

namespace Scriptlet.Table

variable {α β : Type}

/-- Tables are alike along a map of names and a relation of values. -/
def Like (f : String → String) (R : α → β → Prop) (t : Table α) (t' : Table β) : Prop :=
  List.Forall₂ (fun e e' => e'.1 = f e.1 ∧ R e.2 e'.2) t.entries t'.entries

variable {f : String → String} {R S : α → β → Prop} {t : Table α} {t' : Table β}

theorem like_empty : Like f R .empty .empty := .nil

theorem Like.mono (h : Like f R t t') (hRS : ∀ v v', R v v' → S v v') : Like f S t t' :=
  h.imp fun _ _ he => ⟨he.1, hRS _ _ he.2⟩

theorem Like.keys (h : Like f R t t') : t'.keys = t.keys.map f := by
  obtain ⟨entries⟩ := t
  obtain ⟨entries'⟩ := t'
  change List.Forall₂ _ entries entries' at h
  show entries'.map (·.1) = (entries.map (·.1)).map f
  induction h with
  | nil => rfl
  | cons he _ ih => rw [List.map_cons, List.map_cons, List.map_cons, ih, he.1]

/-- A name has related values in tables that are alike, or in neither a value. -/
theorem Like.find? (hf : Function.Injective f) (h : Like f R t t') (name : String) :
    Option.Rel R (t.find? name) (t'.find? (f name)) := by
  obtain ⟨entries⟩ := t
  obtain ⟨entries'⟩ := t'
  change List.Forall₂ _ entries entries' at h
  show Option.Rel R (entries.lookup name) (entries'.lookup (f name))
  induction h with
  | nil => exact .none
  | @cons e e' l l' he _ ih =>
    obtain ⟨n, v⟩ := e
    obtain ⟨n', v'⟩ := e'
    obtain ⟨rfl, hv⟩ := he
    rw [List.lookup_cons, List.lookup_cons]
    by_cases hn : name = n
    · subst hn
      rw [beq_self_eq_true, beq_self_eq_true]
      exact .some hv
    · rw [beq_eq_false_iff_ne.2 hn, beq_eq_false_iff_ne.2 fun heq => hn (hf heq)]
      exact ih

theorem contains_iff {name : String} : t.contains name = true ↔ name ∈ t.keys := by
  unfold contains Table.find? Table.keys
  rw [List.lookup_isSome_iff, List.mem_map]
  constructor
  · rintro ⟨e, he, heq⟩
    exact ⟨e, he, (beq_iff_eq.1 heq).symm⟩
  · rintro ⟨e, he, rfl⟩
    exact ⟨e, he, beq_self_eq_true _⟩

theorem contains_insert {name key : String} {value : α} :
    (t.insert name value).contains key = true ↔ key = name ∨ t.contains key = true := by
  unfold contains
  rw [find?_insert]
  by_cases hk : key = name
  · simp [hk]
  · simp [hk]

theorem Like.contains (hf : Function.Injective f) (h : Like f R t t') (name : String) :
    t'.contains (f name) = t.contains name := by
  rw [Bool.eq_iff_iff, contains_iff, contains_iff, h.keys]
  exact List.mem_map_of_injective hf

/-- Binding related values keeps tables alike. -/
theorem Like.insert (hf : Function.Injective f) (h : Like f R t t') {name : String} {v : α}
    {v' : β} (hv : R v v') : Like f R (t.insert name v) (t'.insert (f name) v') := by
  obtain ⟨entries⟩ := t
  obtain ⟨entries'⟩ := t'
  change List.Forall₂ _ entries entries' at h
  show List.Forall₂ _ (place name v entries) (place (f name) v' entries')
  induction h with
  | nil => exact .cons ⟨rfl, hv⟩ .nil
  | @cons e e' l l' he hl ih =>
    obtain ⟨n, w⟩ := e
    obtain ⟨n', w'⟩ := e'
    obtain ⟨rfl, hw⟩ := he
    unfold place
    by_cases hn : name = n
    · subst hn
      rw [if_pos (beq_self_eq_true _), if_pos (beq_self_eq_true _)]
      exact .cons ⟨rfl, hv⟩ hl
    · have hne : ¬ f name = f n := fun heq => hn (hf heq)
      rw [if_neg (by simpa using hn), if_neg (by simpa using hne)]
      exact .cons ⟨rfl, hw⟩ ih

end Scriptlet.Table

/-!
# Tables that remember the order of first entry

A table binds texts to values. Binding a name that is there already replaces its value and keeps
its place; a new name goes to the end. So the names of a table stand in the order in which they
were first bound, which is the order in which a listing of variables shows them.

**The view.** `entries` is the table itself. Every operation is told by what it does to
`find?` (`find?_insert`) and to `keys` (`keys_insert`).
-/

namespace Scriptlet

/-- Values by name, the names in the order in which they were first bound. -/
structure Table (α : Type) where
  entries : List (String × α)

namespace Table

variable {α : Type}

/-- The table that binds nothing. -/
def empty : Table α := ⟨[]⟩

/-- The value of a name. -/
def find? (t : Table α) (name : String) : Option α := t.entries.lookup name

/-- Whether a name is bound. -/
def contains (t : Table α) (name : String) : Bool := (t.find? name).isSome

/-- The names, in the order in which they were first bound. -/
def keys (t : Table α) : List String := t.entries.map (·.1)

/-- Replaces the value of a name in its place, or adds the name at the end. -/
def place (name : String) (value : α) : List (String × α) → List (String × α)
  | [] => [(name, value)]
  | (n, v) :: rest => if name == n then (n, value) :: rest else (n, v) :: place name value rest

/-- Binds a name, for the first time or again. -/
def insert (t : Table α) (name : String) (value : α) : Table α := ⟨place name value t.entries⟩

/-! ## What binding changes -/

theorem lookup_place (name key : String) (value : α) (l : List (String × α)) :
    (place name value l).lookup key = if key = name then some value else l.lookup key := by
  induction l with
  | nil =>
    by_cases h : key = name
    · simp [place, h]
    · simp [place, List.lookup_cons, h, beq_eq_false_iff_ne.2 h]
  | cons e rest ih =>
    obtain ⟨n, v⟩ := e
    by_cases hn : name = n
    · subst hn
      by_cases h : key = name
      · simp [place, h]
      · simp [place, List.lookup_cons, h, beq_eq_false_iff_ne.2 h]
    · by_cases hk : key = n
      · subst hk
        have hne : ¬ key = name := fun h => hn h.symm
        simp [place, hn, hne]
      · simp [place, List.lookup_cons, hn, beq_eq_false_iff_ne.2 hk, ih]

/-- Binding a name changes the answer for that name alone. -/
@[simp] theorem find?_insert (t : Table α) (name key : String) (value : α) :
    (t.insert name value).find? key = if key = name then some value else t.find? key :=
  lookup_place name key value t.entries

@[simp] theorem find?_empty (key : String) : (empty : Table α).find? key = none := rfl

theorem map_fst_place (name : String) (value : α) (l : List (String × α)) :
    (place name value l).map (·.1) =
      if name ∈ l.map (·.1) then l.map (·.1) else l.map (·.1) ++ [name] := by
  induction l with
  | nil => simp [place]
  | cons e rest ih =>
    obtain ⟨n, v⟩ := e
    by_cases hn : name = n
    · simp [place, hn]
    · by_cases hr : name ∈ rest.map (·.1) <;> simp_all [place]

/-- A bound name keeps its place, and a new one goes to the end. -/
theorem keys_insert (t : Table α) (name : String) (value : α) :
    (t.insert name value).keys = if name ∈ t.keys then t.keys else t.keys ++ [name] :=
  map_fst_place name value t.entries

end Table

end Scriptlet

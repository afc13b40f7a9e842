import Scriptlet.Proofs.Heap

/-!
# Tables and heaps of other values

When every value of a table or of a heap is mapped, names, frames and links stay as they are, so
everything is found in the same place, and what is found is mapped. Binding commutes with mapping.
-/

namespace Scriptlet

variable {α β : Type} (f : α → β)

namespace Table

/-- Maps all values. -/
def map (t : Table α) : Table β := ⟨t.entries.map fun e => (e.1, f e.2)⟩

@[simp] theorem keys_map (t : Table α) : (t.map f).keys = t.keys := by
  unfold keys map
  rw [List.map_map]
  rfl

@[simp] theorem find?_map (t : Table α) (name : String) :
    (t.map f).find? name = (t.find? name).map f := by
  obtain ⟨entries⟩ := t
  show (entries.map _).lookup name = (entries.lookup name).map f
  induction entries with
  | nil => rfl
  | cons e rest ih =>
    obtain ⟨n, v⟩ := e
    rw [List.map_cons, List.lookup_cons, List.lookup_cons]
    cases name == n with
    | true => rfl
    | false => exact ih

theorem place_map (name : String) (v : α) (l : List (String × α)) :
    place name (f v) (l.map fun e => (e.1, f e.2)) =
      (place name v l).map fun e => (e.1, f e.2) := by
  induction l with
  | nil => rfl
  | cons e rest ih =>
    obtain ⟨n, w⟩ := e
    simp only [List.map_cons, place]
    cases name == n with
    | true => rfl
    | false => exact congrArg ((n, f w) :: ·) ih

theorem insert_map (t : Table α) (name : String) (v : α) :
    (t.map f).insert name (f v) = (t.insert name v).map f :=
  congrArg Table.mk (place_map f name v t.entries)

end Table

/-- Maps the values of a frame. -/
def Frame.map (frame : Frame α) : Frame β := ⟨frame.bindings.map f, frame.link⟩

namespace Heap

/-- Maps all values. -/
def map (h : Heap α) : Heap β := ⟨h.frames.map (Frame.map f)⟩

@[simp] theorem size_map (h : Heap α) : (h.map f).size = h.size := Array.size_map ..

@[simp] theorem frames_map (h : Heap α) (e : Nat) :
    (h.map f).frames[e]? = h.frames[e]?.map (Frame.map f) := Array.getElem?_map ..

@[simp] theorem link?_map (h : Heap α) (e : Nat) : (h.map f).link? e = h.link? e := by
  unfold link?
  rw [frames_map]
  cases h.frames[e]? <;> rfl

@[simp] theorem local?_map (h : Heap α) (e : Nat) (name : String) :
    (h.map f).local? e name = (h.local? e name).map f := by
  unfold local?
  rw [frames_map]
  cases h.frames[e]? with
  | none => rfl
  | some frame => exact Table.find?_map f frame.bindings name

@[simp] theorem holds_map (h : Heap α) (e : Nat) (name : String) :
    (h.map f).holds e name = h.holds e name := by
  unfold holds
  rw [local?_map, Option.isSome_map]

theorem add_map (h : Heap α) (link : Option Nat) : (h.map f).add link = (h.add link).map f := by
  unfold map add
  rw [Array.map_push]
  rfl

theorem define_map (h : Heap α) (e : Nat) (name : String) (v : α) :
    (h.map f).define e name (f v) = (h.define e name v).map f := by
  refine congrArg Heap.mk (Array.ext_getElem? fun i => ?_)
  unfold map define
  simp only [Array.getElem?_modify, Array.getElem?_map]
  split
  · cases h.frames[i]? with
    | none => rfl
    | some frame =>
      show some (Frame.mk _ frame.link) = some (Frame.mk _ frame.link)
      rw [← Table.insert_map]
      rfl
  · rfl

/-! ## Looking outward -/

theorem chain_map (h : Heap α) (e : Nat) : (h.map f).chain e = h.chain e := by
  induction e using Nat.strongRecOn with
  | ind e ih =>
    rw [chain, chain, link?_map]
    cases h.link? e with
    | none => rfl
    | some outer =>
      show (if outer < e then _ else _) = if outer < e then _ else _
      by_cases hlt : outer < e
      · rw [if_pos hlt, if_pos hlt, ih outer hlt]
      · rw [if_neg hlt, if_neg hlt]

@[simp] theorem holder?_map (h : Heap α) (e : Nat) (name : String) :
    (h.map f).holder? e name = h.holder? e name := by
  unfold holder?
  rw [chain_map]
  exact congrArg (List.find? · (h.chain e)) (funext fun e' => holds_map f h e' name)

@[simp] theorem get?_map (h : Heap α) (e : Nat) (name : String) :
    (h.map f).get? e name = (h.get? e name).map f := by
  unfold get?
  rw [holder?_map]
  cases h.holder? e name with
  | none => rfl
  | some holder => exact local?_map f h holder name

theorem assign?_map (h : Heap α) (e : Nat) (name : String) (v : α) :
    (h.map f).assign? e name (f v) = (h.assign? e name v).map (map f) := by
  unfold assign?
  rw [holder?_map]
  cases h.holder? e name with
  | none => rfl
  | some holder => exact congrArg some (define_map f h holder name v)

/-! ## Going outward -/

@[simp] theorem outward?_map (h : Heap α) (depth e : Nat) :
    (h.map f).outward? depth e = h.outward? depth e := by
  unfold outward?
  generalize some e = start
  congr 1
  induction depth generalizing start with
  | zero => rfl
  | succ depth ih =>
    cases start with
    | none => rfl
    | some e =>
      show (h.map f).ancestor depth _ = h.ancestor depth _
      rw [link?_map, ih]

theorem getAt_map (h : Heap α) (depth e : Nat) (name : String) :
    (h.map f).getAt depth e name = (h.getAt depth e name).map f := by
  unfold getAt
  rw [outward?_map]
  cases h.outward? depth e with
  | none => rfl
  | some target =>
    simp only [local?_map]
    cases h.local? target name <;> rfl

theorem assignAt?_map (h : Heap α) (depth e : Nat) (name : String) (v : α) :
    (h.map f).assignAt? depth e name (f v) = (h.assignAt? depth e name v).map (map f) := by
  unfold assignAt?
  rw [outward?_map]
  cases h.outward? depth e with
  | none => rfl
  | some target => exact congrArg some (define_map f h target name v)

/-! ## Maps that agree -/

/-- Maps that agree on all values of a heap. -/
theorem map_congr {f f' : α → β} {h : Heap α}
    (hf : ∀ (e : Nat) (frame : Frame α), h.frames[e]? = some frame →
      ∀ entry ∈ frame.bindings.entries, f entry.2 = f' entry.2) : h.map f = h.map f' := by
  refine congrArg Heap.mk (Array.map_congr_left fun frame hframe => ?_)
  obtain ⟨e, he⟩ := Array.mem_iff_getElem?.1 hframe
  refine congrArg (Frame.mk · frame.link) (congrArg Table.mk ?_)
  exact List.map_congr_left fun entry hentry => congrArg (entry.1, ·) (hf e frame he entry hentry)

end Heap

end Scriptlet

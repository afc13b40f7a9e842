import Scriptlet.Proofs.Binding.Relabeling
import Scriptlet.Proofs.Eval.Relabeling
import Scriptlet.Proofs.Grammar.Shifting
import Scriptlet.Proofs.Session.Grown

/-!
# Sessions without serials

A serial tells a reference from all others, but what a run asks of it is a depth. With depths in
the place of serials (`Relabeling.outline`), a program runs as before, in a setting that reads the
depth off the serial (`Machine.run_outline`). So of two machines with the same outline, each running
a program with the same outline, one does what the other does.

The outline of a session does not change when a text is prepared, because no function on its heap
has a serial that was not given out before (`Session.outline_prepare`).
-/

namespace Scriptlet

namespace Binding

/-- A depth as a serial. -/
def coded : Option Nat → Nat
  | none => 0
  | some depth => depth + 1

/-- The depth that a serial stands for. -/
def decoded : Nat → Option Nat
  | 0 => none
  | depth + 1 => some depth

@[simp] theorem decoded_coded (depth : Option Nat) : decoded (coded depth) = depth := by
  cases depth <;> rfl

end Binding

/-- The setting in which the serial of a reference is its depth. -/
def Setting.outlined (host : Host) : Setting := ⟨fun k => .ofDepth (Binding.decoded k), host⟩

namespace Relabeling

variable {g : Relabeling} {depths : Binding.Depths}

/-- The relabeling of the same tokens that puts the depths of references in the place of their
serials. -/
def outline (g : Relabeling) (depths : Binding.Depths) : Relabeling :=
  g.through fun k => Binding.coded (Binding.depthOf depths k)

theorem relabels_outline (g : Relabeling) (depths : Binding.Depths) (times : Nat → Float) :
    Setting.Relabels (g.outline depths) (.following depths (Host.telling times))
      (.outlined (Host.telling times)) := by
  refine ⟨fun k => ?_, fun answers n args => ?_⟩
  · show Route.ofDepth (Binding.decoded (Binding.coded _)) = _
    rw [Binding.decoded_coded]
    rfl
  · show (if n = Host.clock ∧ (args.map _).isEmpty = true then _ else _) =
      Option.map _ (if n = Host.clock ∧ args.isEmpty = true then _ else _)
    rw [List.isEmpty_map]
    split <;> rfl

/-! ## Relabelings that agree on a heap -/

variable {f f' : Nat → Nat} {Q : Nat → Prop}

theorem value_congr (h : ∀ k, Q k → f k = f' k) {v : Value} (hv : (Limits.grown Q).value v) :
    (g.through f).value v = (g.through f').value v := by
  cases v with
  | closure identity d home =>
    have hbody : ∀ k ∈ Serials.stmts d.body, f k = f' k := fun k hk => by
      obtain ⟨st, hst, hk⟩ := Serials.mem_stmts.1 hk
      exact h k ((hv st hst).2 k hk)
    show Value.closure identity ⟨_, _, (g.through f).stmts d.body⟩ home =
      Value.closure identity ⟨_, _, (g.through f').stmts d.body⟩ home
    rw [stmts_congr d.body hbody]
    rfl
  | _ => rfl

theorem machine_congr (h : ∀ k, Q k → f k = f' k) {m : Machine}
    (hm : (Limits.grown Q).heap m.heap) : (g.through f).machine m = (g.through f').machine m := by
  unfold machine
  rw [Heap.map_congr fun e frame hframe entry hentry =>
    value_congr h (hm e frame hframe entry hentry)]

end Relabeling

/-! ## Runs -/

/-- The names of the globals on a machine. -/
def Machine.globalNames (m : Machine) : List String :=
  ((m.heap.frames[Heap.root]?.map Frame.bindings).getD .empty).keys

/-- **A run looks at depths alone.** -/
theorem Machine.run_outline (g : Relabeling) (depths : Binding.Depths) (times : Nat → Float)
    (fuel room : Nat) (program : List Stmt) (m : Machine) :
    ((g.outline depths).machine m).run (.outlined (Host.telling times)) fuel room
        ((g.outline depths).stmts program) =
      ((g.outline depths).ending
          (m.run (.following depths (Host.telling times)) fuel room program).1,
        (g.outline depths).machine
          (m.run (.following depths (Host.telling times)) fuel room program).2) :=
  Machine.run_relabeled (Relabeling.relabels_outline g depths times) fuel room program m

/-- Machines with the same outline that run programs with the same outline end with the same
outline. -/
theorem Machine.run_of_outline {g : Relabeling} {depths depths' : Binding.Depths} {m m' : Machine}
    {program program' : List Stmt} (times : Nat → Float)
    (hm : (g.outline depths).machine m = (g.outline depths').machine m')
    (hp : (g.outline depths).stmts program = (g.outline depths').stmts program')
    (fuel room : Nat) :
    (g.outline depths).ending
        (m.run (.following depths (Host.telling times)) fuel room program).1 =
      (g.outline depths').ending
        (m'.run (.following depths' (Host.telling times)) fuel room program').1 ∧
    (g.outline depths).machine
        (m.run (.following depths (Host.telling times)) fuel room program).2 =
      (g.outline depths').machine
        (m'.run (.following depths' (Host.telling times)) fuel room program').2 := by
  have h := Machine.run_outline g depths times fuel room program m
  rw [hm, hp, Machine.run_outline g depths' times fuel room program' m'] at h
  exact ⟨(congrArg Prod.fst h).symm, (congrArg Prod.snd h).symm⟩

/-! ## The depths of a program -/

namespace Session

variable {s s' t t' : Session} {r r' : Report} {text : String} {program program' : List Stmt}

/-- What was found out about the references of a program is on record when it is ready. -/
theorem Ready.depth (h : Ready s text program s') :
    ∀ ref ∈ s.references program, Binding.depthOf s'.depths ref.serial = ref.depth := by
  intro ref href
  unfold references at href
  rw [(Binding.log_walked s.globals.keys h.derives.wellformed.shape).1] at href
  obtain ⟨site, hsite, rfl⟩ := List.mem_map.1 href
  exact (h.found site hsite).depth

theorem references_relabeled (s : Session) (g : Relabeling) (program : List Stmt) :
    s.references (g.stmts program) = (s.references program).map g.reference := by
  unfold references
  rw [Binding.log_relabeled, List.filterMap_map, List.map_filterMap]
  congr 1
  funext e
  cases e <;> rfl

theorem references_congr (h : s.globals.keys = t.globals.keys) (program : List Stmt) :
    s.references program = t.references program := by
  unfold references
  rw [h]

/-- The tokens of a text are read in all sessions alike, but for the serials. -/
theorem reading_shifted (s : Session) (text : String) :
    s.reading text = ⟨(Grammar.shift s.serial).stmts (fresh.reading text).statements,
      (fresh.reading text).issues, (fresh.reading text).serial + s.serial⟩ := by
  have hshift := Grammar.Program.read_shifted Grammar.maxDepth fresh.serial s.serial
    (Scan.ofText text).tokens.toList (Scan.ofText text).stop
  have hserial : fresh.serial + s.serial = s.serial := Nat.zero_add _
  rw [hserial] at hshift
  exact hshift

/-- What is ready is what is read of the text in a fresh session, with the serials shifted. -/
theorem Ready.shifted (h : Ready s text program s') :
    (Grammar.shift s.serial).stmts (fresh.reading text).statements = program :=
  congrArg Grammar.Program.statements ((reading_shifted s text).symm.trans h.read)

/-- The references that are read of a text in a fresh session have their depths on record when the
text is ready, with the serials shifted. -/
theorem Ready.depth_shifted (h : Ready s text program s') :
    ∀ ref ∈ s.references (fresh.reading text).statements,
      Binding.depthOf s'.depths (ref.serial + s.serial) = ref.depth := by
  intro ref href
  refine h.depth ((Grammar.shift s.serial).reference ref) ?_
  rw [← h.shifted, references_relabeled]
  exact List.mem_map_of_mem href

/-- The machine of a session, with the depths of references in the place of their serials. -/
def outline (s : Session) : Machine :=
  ((Relabeling.keeping id).outline s.depths).machine s.machine

@[simp] theorem printed_outline (s : Session) : s.outline.printed = s.machine.printed := rfl

@[simp] theorem here_outline (s : Session) : s.outline.here = s.machine.here := rfl

/-- If a text is ready in two sessions with the same globals, the outlines of the two programs are
the same. -/
theorem Ready.outline_eq (h : Ready s text program s') (h' : Ready t text program' t')
    (hkeys : s.globals.keys = t.globals.keys) :
    ((Relabeling.keeping id).outline s'.depths).stmts program =
      ((Relabeling.keeping id).outline t'.depths).stmts program' := by
  have hshape := (Grammar.GrownStmt.all (reading_grown fresh text)).2.1
  have hagree : ∀ k ∈ Serials.stmts (fresh.reading text).statements,
      Binding.depthOf s'.depths (k + s.serial) = Binding.depthOf t'.depths (k + t.serial) := by
    intro k hk
    rw [← Binding.map_serial_log s.globals.keys hshape] at hk
    obtain ⟨ref, href, rfl⟩ := List.mem_map.1 hk
    exact (h.depth_shifted ref href).trans
      (h'.depth_shifted ref (references_congr hkeys _ ▸ href)).symm
  rw [← h.shifted, ← h'.shifted]
  refine (Relabeling.stmts_keeping _ _ _).trans (Eq.trans ?_ (Relabeling.stmts_keeping _ _ _).symm)
  exact Relabeling.stmts_congr (g := .keeping id) _ fun k hk =>
    congrArg Binding.coded (hagree k hk)

/-- Relabeling the values of a session leaves the names of its globals. -/
theorem keys_relabeled (g : Relabeling) (s : Session) :
    s.globals.keys = (g.machine s.machine).globalNames := by
  have hroot : (g.machine s.machine).heap.frames[Heap.root]? =
      s.machine.heap.frames[Heap.root]?.map (Frame.map g.value) := Heap.frames_map ..
  unfold Machine.globalNames globals
  rw [hroot]
  cases s.machine.heap.frames[Heap.root]? with
  | none => rfl
  | some frame => exact (Table.keys_map _ frame.bindings).symm

/-- The globals are the same in sessions with the same outline. -/
theorem keys_of_outline (h : s.outline = t.outline) : s.globals.keys = t.globals.keys := by
  rw [keys_relabeled _ s, keys_relabeled _ t]
  exact congrArg Machine.globalNames h

/-- Preparing a text leaves the outline of a session as it is. -/
theorem outline_prepare {p : Prepared}
    (hgrown : (Limits.grown (· < s.serial)).heap s.machine.heap)
    (hp : s.prepare r text = (p, s', r')) : s'.outline = s.outline := by
  unfold outline
  rw [prepare_machine hp]
  exact Relabeling.machine_congr
    (fun k hk => congrArg Binding.coded ((prepare_older hp).2 k hk)) hgrown

end Session

end Scriptlet

import Scriptlet.Proofs.Binding.Lands
import Scriptlet.Proofs.Eval.Globals
import Scriptlet.Proofs.Eval.Lockstep
import Scriptlet.Proofs.Session.Lines

/-!
# Sessions that are alike

What lockstep asks of a run (`Moment.Sure`) is given by the soundness of the binding: at a moment
that is in its place, a reference has a site, its depth is that of the site, and what it reads is
there (`Moment.Sound.sure`). By the same token no assignment with a depth goes to the globals
(`Moment.Sound.aside`).
-/

namespace Scriptlet

variable {c : Chronicle} {K : Likeness} {s s' : Setting} {m m' : Machine} {site : Site}
  {marks : List (List Bool)}

/-- The reference of a site is found in both runs by the depth that the likeness goes by. -/
structure Site.Routed (site : Site) (K : Likeness) (s s' : Setting) : Prop where
  found : site.Found K.depth
  route : s.route site.serial = .ofDepth (K.depth site.serial)
  route' : s'.route site.serial = .ofDepth (K.depth site.serial)

theorem Moment.Sound.sure {a : Moment} (ha : a.Sound c)
    (hsites : ∀ site, c.site site → site.Routed K s s') : a.Sure K s s' := by
  obtain ⟨fuel, room, task, m⟩ := a
  obtain ⟨rs, layers, g, hp, hknown⟩ := ha.stands
  refine ⟨fun name serial htask => ?_, fun name serial depth htask hd => ?_⟩
  · rcases htask with htask | ⟨value, htask⟩
    · obtain rfl : task = .expr (.ref name serial) := htask
      have hsite := hsites _ (hknown ⟨serial, name, false, ⟨layers, .globals g⟩, rs⟩
        (List.mem_singleton_self _))
      exact ⟨hsite.route, hsite.route'⟩
    · obtain rfl : task = .expr (.assign name value serial) := htask
      have hsite := hsites _ (hknown ⟨serial, name, true, ⟨layers, .globals g⟩, rs⟩
        (List.mem_append_right _ (List.mem_singleton_self _)))
      exact ⟨hsite.route, hsite.route'⟩
  · obtain rfl : task = .expr (.ref name serial) := htask
    have hsite := hsites _ (hknown ⟨serial, name, false, ⟨layers, .globals g⟩, rs⟩
      (List.mem_singleton_self _))
    exact (hsite.found.lands hp hd).reads rfl

theorem Route.depth_of_outward {d : Option Nat} {depth : Nat} (h : ofDepth d = .outward depth) :
    d = some depth := by
  cases d with
  | none => cases h
  | some d => exact congrArg some (Route.outward.inj h)

theorem Moment.Sound.aside {a : Moment} (ha : a.Sound c)
    (hsites : ∀ site, c.site site → site.Routed K s s') : a.Aside s := by
  obtain ⟨fuel, room, task, m⟩ := a
  obtain ⟨rs, layers, g, hp, hknown⟩ := ha.stands
  intro name value serial depth htask hroute
  obtain rfl : task = .expr (.assign name value serial) := htask
  have hsite := hsites _ (hknown ⟨serial, name, true, ⟨layers, .globals g⟩, rs⟩
    (List.mem_append_right _ (List.mem_singleton_self _)))
  have hd := Route.depth_of_outward (hsite.route.symm.trans hroute)
  obtain ⟨frame, _, _, _, _, hout, hne, -⟩ := (hsite.found.lands hp hd).target
  exact ⟨frame, hout, hne⟩

/-- A clock gives all runs the same times. -/
theorem Setting.agree_telling (depths depths' : Binding.Depths) (times : Nat → Float) :
    (following depths (Host.telling times)).Agree (following depths' (Host.telling times)) := by
  have hempty : ∀ args args' : List Value, args'.length = args.length →
      args'.isEmpty = args.isEmpty := by
    intro args args' h
    cases args <;> cases args' <;> first | rfl | cases h
  refine ⟨fun answers n args args' h => ?_, fun answers n args v hv K marks => ?_⟩
  · show (if n = Host.clock ∧ args'.isEmpty = true then _ else _) = if _ then _ else _
    rw [hempty args args' h]
  · change (if _ then _ else _) = some v at hv
    split at hv
    · obtain rfl := Option.some.inj hv
      exact .number
    · cases hv

/-! ## Globals -/

theorem Session.globals_eq {s : Session} {frame : Frame Value}
    (h : s.machine.heap.frames[Heap.root]? = some frame) : s.globals = frame.bindings := by
  unfold Session.globals
  rw [h]

/-- The globals are the names that the outermost frame holds. -/
theorem Session.mem_keys {s : Session} {name : String} :
    name ∈ s.globals.keys ↔ s.machine.heap.holds Heap.root name = true := by
  unfold Heap.holds Heap.local?
  cases hf : s.machine.heap.frames[Heap.root]? with
  | none =>
    have hglobals : s.globals = .empty := by
      unfold Session.globals
      rw [hf]
    rw [hglobals]
    exact ⟨fun h => absurd h List.not_mem_nil, nofun⟩
  | some frame =>
    rw [Session.globals_eq hf]
    exact Table.contains_iff.symm

/-- On machines that are alike, the same globals are defined in the same order, with values that are
alike. -/
theorem Session.globals_alike {s s' : Session} (h : s.machine.Alike K marks s'.machine) :
    s.globals.Like id (Value.Alike K marks) s'.globals := by
  obtain ⟨f, f', hf, hf', hlike⟩ := h.heap.frames Heap.root [] h.heap.root
  rw [Session.globals_eq hf, Session.globals_eq hf']
  have hname : K.frameName [] = id := funext K.name_false
  rw [← hname]
  exact hlike

theorem Session.keys_alike {s s' : Session} (h : s.machine.Alike K marks s'.machine) :
    s'.globals.keys = s.globals.keys := by
  rw [(Session.globals_alike h).keys, List.map_id]

/-- A machine without closures is alike to itself. -/
theorem Session.alike_fresh : fresh.machine.Alike K [[]] fresh.machine := by
  refine ⟨⟨rfl, rfl, fun _ => rfl, rfl, rfl, ?_, ?_⟩, rfl, rfl, rfl, rfl⟩
  · intro e link ms hl he
    have hlt := Heap.lt_of_link? hl
    obtain rfl : e = 0 := Nat.lt_one_iff.1 hlt
    cases hl
  · intro e ms he
    obtain ⟨hlt, hms⟩ := List.getElem?_eq_some_iff.1 he
    obtain rfl : e = 0 := Nat.lt_one_iff.1 hlt
    obtain rfl : [] = ms := hms
    refine ⟨_, _, rfl, rfl, ?_⟩
    exact .cons ⟨(K.name_false _).symm, .native⟩ .nil

end Scriptlet

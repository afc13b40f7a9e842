import Scriptlet.Proofs.Eval.Limits
import Scriptlet.Proofs.Grammar.Meaning
import Scriptlet.Proofs.Session.Alike
import Scriptlet.Proofs.Session.References

/-!
# What a session has grown

All functions on the heap of a session come from trees that were read of its lines. So behind every
line their operators have a meaning, and their references have serials that were given out before
(`Session.grown_afterLines`), none of which has a depth on record unless it was prepared
(`Session.depthOf_afterLines`).

**Depths lead somewhere.** A program may run in a session although its names were not bound. Its
references have no depths then, and those of the functions from before lead to frames that are
there. So no moment of such a run goes beyond the outermost frame (`Machine.Outside.abides`).
-/

namespace Scriptlet

/-! ## Limits of what was read -/

/-- Trees as the grammar builds them, with these serials, and no native function but the clock.
Then no fault may happen. -/
def Limits.grown (Q : Nat → Prop) : Limits where
  expr e := Built.expr (fun _ => True) e ∧ ∀ k ∈ Serials.expr e, Q k
  stmt st := Built.stmt (fun _ => True) st ∧ ∀ k ∈ Serials.stmt st, Q k
  native n := n = Host.clock
  name _ _ := True
  token _ := True
  fault _ := False
  blamed _ _ := trivial
  assign h := ⟨h.1, fun k hk => h.2 k (List.mem_append_left _ hk)⟩
  binary h := ⟨⟨h.1.2.1, fun k hk => h.2 k (List.mem_append_left _ hk)⟩,
    h.1.2.2, fun k hk => h.2 k (List.mem_append_right _ hk)⟩
  operator h hr := Operator.binary_ne_fault h.1.1 _ _ _ hr
  logical h := ⟨⟨h.1.1, fun k hk => h.2 k (List.mem_append_left _ hk)⟩,
    h.1.2, fun k hk => h.2 k (List.mem_append_right _ hk)⟩
  unary h := h
  grouping h := h
  call h := ⟨⟨h.1.1, fun k hk => h.2 k (List.mem_append_left _ hk)⟩, fun e he =>
    ⟨Built.exprs_iff.1 h.1.2 e he, fun k hk =>
      h.2 k (List.mem_append_right _ (Serials.mem_exprs.2 ⟨e, he, hk⟩))⟩⟩
  simple h := h
  print h := h
  var h := h
  block h st hst :=
    ⟨Built.stmts_iff.1 h.1 st hst, fun k hk => h.2 k (Serials.mem_stmts.2 ⟨st, hst, hk⟩)⟩
  branch {e yes no} h := by
    cases no with
    | none =>
      exact ⟨⟨h.1.1, fun k hk => h.2 k (List.mem_append_left _ hk)⟩,
        ⟨h.1.2, fun k hk => h.2 k (List.mem_append_right _ hk)⟩, nofun⟩
    | some no =>
      refine ⟨⟨h.1.1, fun k hk => h.2 k (List.mem_append_left _ hk)⟩, ⟨h.1.2.1, fun k hk =>
        h.2 k (List.mem_append_right _ (List.mem_append_left _ hk))⟩, ?_⟩
      rintro _ ⟨⟩
      exact ⟨h.1.2.2, fun k hk => h.2 k (List.mem_append_right _ (List.mem_append_right _ hk))⟩
  loop h := ⟨⟨h.1.1, fun k hk => h.2 k (List.mem_append_left _ hk)⟩,
    h.1.2, fun k hk => h.2 k (List.mem_append_right _ hk)⟩
  function h st hst :=
    ⟨Built.stmts_iff.1 h.1 st hst, fun k hk => h.2 k (Serials.mem_stmts.2 ⟨st, hst, hk⟩)⟩
  ret h := h

namespace Limits

variable {Q Q' : Nat → Prop}

theorem grown_heap_mono (hQ : ∀ k, Q k → Q' k) {h : Heap Value} (hh : (grown Q).heap h) :
    (grown Q').heap h :=
  hh.mono (fun _ hst => ⟨hst.1, fun k hk => hQ k (hst.2 k hk)⟩) fun _ hn => hn

end Limits

/-- The clock answers with numbers. -/
theorem Setting.answer_telling {depths : Binding.Depths} {times : Nat → Float} {answers : Nat}
    {n : Native} {args : List Value} {v : Value}
    (hv : (Setting.following depths (Host.telling times)).answer answers n args = some v) :
    ∃ x, v = .number x := by
  change (if _ then _ else _) = some v at hv
  split at hv
  · exact ⟨_, (Option.some.inj hv).symm⟩
  · cases hv

theorem Setting.within_telling (Q : Nat → Prop) (depths : Binding.Depths) (times : Nat → Float) :
    (Setting.following depths (Host.telling times)).Within (.grown Q) := by
  refine ⟨fun hv => ?_, fun {answers n args} hn hlen hv => ?_⟩
  · obtain ⟨x, rfl⟩ := answer_telling hv
    exact trivial
  · change (if n = Host.clock ∧ args.isEmpty = true then _ else none) = none at hv
    obtain rfl : n = Host.clock := hn
    rw [if_pos ⟨rfl, List.isEmpty_iff.2 (List.eq_nil_of_length_eq_zero hlen)⟩] at hv
    cases hv

/-! ## Depths lead somewhere -/

/-- If references either have no depth or are found, no moment of a program goes beyond the
outermost frame. -/
theorem Machine.Outside.abides {c : Chronicle} {m : Machine} {program : List Stmt} {host : Host}
    {depths : Binding.Depths} {g : Globals} (Q : Nat → Prop) (fuel room : Nat)
    (hplain : (Setting.following depths host).Plain) (hm : m.Outside c)
    (hshape : Shape.stmts program)
    (hsites : ∀ site, c.site site ∨ site ∈ Sites.stmts [] (.outermost (.globals g)) program →
      Binding.depthOf depths site.serial = none ∨ site.Found (Binding.depthOf depths)) :
    ∀ front st rest m₁, program = front ++ st :: rest →
      m.run (.following depths host) fuel room front = (.finished, m₁) →
      ∀ b, Reaches (.following depths host) ⟨fuel, room, .stmt st, m₁⟩ b →
        b.Abides (.grown Q) (.following depths host) := by
  -- What the session has come to, and this program on top of it.
  let c' : Chronicle :=
    ⟨fun site => c.site site ∨ site ∈ Sites.stmts [] (.outermost (.globals g)) program,
      fun a => c.moment a ∨ ∃ front st rest m₁, program = front ++ st :: rest ∧
        m.run (.following depths host) fuel room front = (.finished, m₁) ∧
        Reaches (.following depths host) ⟨fuel, room, .stmt st, m₁⟩ a⟩
  have hupto : c.Upto c' := ⟨fun _ => .inl, fun _ => .inl⟩
  have hm' : m.Outside c' := ⟨hm.heap.mono hupto, hm.here⟩
  intro front st rest m₁ heq hrun b hb
  have hsound := hm'.moments fuel room g hplain hshape (fun _ => .inr)
    (fun front st rest m₁ heq hrun b hb => .inr ⟨front, st, rest, m₁, heq, hrun, hb⟩)
    front st rest m₁ heq hrun b hb
  have hleads : ∀ rs layers g site, Placed c' b.machine.heap b.machine.here layers rs →
      c'.site site → site.scopes = ⟨layers, .globals g⟩ → site.regions = rs → ∀ depth,
      Binding.depthOf depths site.serial = some depth →
      b.machine.heap.outward? depth b.machine.here ≠ none := by
    rintro rs layers g site hp hsite hscopes rfl depth hd hout
    rcases hsites site hsite with hnone | hfound
    · rw [hd] at hnone
      cases hnone
    · have hp : Placed c' b.machine.heap b.machine.here site.scopes.layers site.regions := by
        rw [hscopes]
        exact hp
      obtain ⟨frame, _, _, _, _, hframe, -⟩ := (hfound.lands hp hd).target
      rw [hframe] at hout
      cases hout
  refine ⟨fun _ _ _ => trivial, fun name serial depth htask hroute hout => ?_⟩
  have hd := Route.depth_of_outward hroute
  obtain ⟨_, _, task, machine⟩ := b
  obtain ⟨rs, layers, g, hp, hknown⟩ := hsound.stands
  rcases htask with htask | ⟨value, htask⟩
  · obtain rfl : task = .expr (.ref name serial) := htask
    exact hleads rs layers g ⟨serial, name, false, ⟨layers, .globals g⟩, rs⟩ hp
      (hknown _ (List.mem_singleton_self _)) rfl rfl depth hd hout
  · obtain rfl : task = .expr (.assign name value serial) := htask
    exact hleads rs layers g ⟨serial, name, true, ⟨layers, .globals g⟩, rs⟩ hp
      (hknown _ (List.mem_append_right _ (List.mem_singleton_self _))) rfl rfl depth hd hout

/-- Such a program stays within the limits, and does not fault. -/
theorem Machine.Outside.run_grown {c : Chronicle} {m : Machine} {program : List Stmt}
    {times : Nat → Float} {depths : Binding.Depths} {g : Globals} {Q : Nat → Prop}
    (hm : m.Outside c) (hheap : (Limits.grown Q).heap m.heap)
    (hbuilt : Built.stmts (fun _ => True) program) (hshape : Shape.stmts program)
    (hserials : ∀ k ∈ Serials.stmts program, Q k)
    (hsites : ∀ site, c.site site ∨ site ∈ Sites.stmts [] (.outermost (.globals g)) program →
      Binding.depthOf depths site.serial = none ∨ site.Found (Binding.depthOf depths))
    (fuel room : Nat) :
    Left (.grown Q) m (m.run (.following depths (Host.telling times)) fuel room program).2 ∧
      ∀ stop, (m.run (.following depths (Host.telling times)) fuel room program).1 =
        .stopped stop → (Limits.grown Q).stop stop :=
  Machine.run_keeps (Setting.within_telling Q depths times) hheap
    (fun st hst => ⟨Built.stmts_iff.1 hbuilt st hst,
      fun k hk => hserials k (Serials.mem_stmts.2 ⟨st, hst, hk⟩)⟩)
    (hm.abides Q fuel room (Setting.plain_telling depths times) hshape hsites)

namespace Session

variable {r : Report} {times : Nat → Float} {s s' : Session} {program : List Stmt} {text : String}

/-! ## What is not on record -/

/-- Serials that have not been given out are not on record. -/
theorem prepare_newer {p : Prepared} {r₀ r' : Report} (h : s.prepare r₀ text = (p, s', r'))
    (hnew : ∀ k, s.serial ≤ k → Binding.depthOf s.depths k = none) :
    ∀ k, s'.serial ≤ k → Binding.depthOf s'.depths k = none := by
  have hle := (prepare_older h).1
  have hcases := prepare_cases s r₀ text
  rw [h] at hcases
  cases hcases with
  | early _ => exact hnew
  | unbound _ => exact fun k hk => hnew k (Nat.le_trans hle hk)
  | @bound _ r₁ _ intake _ hissues hintake _ =>
    intro k hk
    change Binding.depthOf (intake.references.foldl Binding.record s.depths) k = none
    obtain ⟨es, hes, href⟩ := Intake.take_references ⟨r₁, #[], none⟩
      (Binding.log s.globals.keys (s.reading text).statements).toList
    have htaken : intake.references.toList = es.filterMap Binding.Event.reference? := by
      rw [hintake]
      exact href
    rw [← Array.foldl_toList, htaken, Binding.depthOf_foldl_of_not_mem]
    · exact hnew k (Nat.le_trans hle hk)
    · intro hmem
      have hall :=
        ((hes.sublist.filterMap Binding.Event.reference?).map Binding.Reference.serial).subset hmem
      exact absurd ((serials_reading (reading_sound hissues)).high k hall) (Nat.not_lt.2 hk)

theorem depthOf_afterLines (host : Host) (lines : List String) (k : Nat)
    (hk : (afterLines host r lines).1.serial ≤ k) :
    Binding.depthOf (afterLines host r lines).1.depths k = none := by
  induction lines using List.reverseRecOn generalizing k with
  | nil => exact rfl
  | append_singleton lines line ih =>
    rw [afterLines_append] at hk ⊢
    rcases hp : (afterLines host r lines).1.prepare (afterLines host r lines).2.reset line
      with ⟨p, s', r'⟩
    rw [runLine_of_prepare hp] at hk ⊢
    have hnew := prepare_newer hp ih
    cases p <;> exact hnew k hk

/-! ## What is on the heap -/

/-- What is read of a text is grown, from the next serial on. -/
theorem reading_grown (s : Session) (text : String) :
    ∀ st ∈ (s.reading text).statements, Grammar.GrownStmt (fun _ => True) s.serial st :=
  Grammar.Program.read_grown (fun _ => trivial) trivial _ _ _ fun _ _ _ => trivial

/-- A program that a session accepts behind some lines stays within the limits, and does not
fault. -/
theorem run_accepted {lines : List String} {r₀ r' : Report}
    (hp : (afterLines (Host.telling times) r lines).1.prepare r₀ text = (.ready program, s, r'))
    (hheap : (Limits.grown (· < (afterLines (Host.telling times) r lines).1.serial)).heap
      (afterLines (Host.telling times) r lines).1.machine.heap) (fuel room : Nat) :
    Left (.grown (· < s.serial)) s.machine
        (s.machine.run (.following s.depths (Host.telling times)) fuel room program).2 ∧
      ∀ stop, (s.machine.run (.following s.depths (Host.telling times)) fuel room program).1 =
        .stopped stop → (Limits.grown (· < s.serial)).stop stop := by
  have hready := ready_of_prepare hp
  have hbetween := hready.derives.between
  have hgrown := Grammar.GrownStmt.all
    (reading_grown (afterLines (Host.telling times) r lines).1 text)
  rw [hready.read] at hgrown
  have hm : s.machine.Outside (chronicle (Host.telling times) r lines) := by
    rw [hready.machine]
    exact outside_afterLines lines
  refine hm.run_grown (g := .knowing s.globals.keys) ?_ hgrown.1 hready.derives.wellformed.shape
    hbetween.high ?_ fuel room
  · rw [hready.machine]
    exact Limits.grown_heap_mono (fun k hk => Nat.lt_of_lt_of_le hk hbetween.le) hheap
  · rintro site (hsite | hsite)
    · exact .inr (known_of_prepare (known_afterLines lines site hsite) hp).found
    · exact .inr (known_of_ready hready hsite).found

/-- The heap of a fresh session is within all limits that allow the clock. -/
theorem heap_fresh {L : Limits} (hclock : L.native Host.clock) : L.heap fresh.machine.heap := by
  have hempty : L.heap (Heap.empty : Heap Value) := by
    intro e frame hframe
    cases hframe.symm.trans (Array.getElem?_empty ..)
  exact (hempty.add none).define (v := .native Host.clock) hclock Heap.root "clock"

theorem grown_fresh (Q : Nat → Prop) : (Limits.grown Q).heap fresh.machine.heap := heap_fresh rfl

/-- **What a session has grown.** The functions on its heap are as the grammar builds them, with
serials that have been given out, and its only native function is the clock. -/
theorem grown_afterLines (lines : List String) :
    (Limits.grown (· < (afterLines (Host.telling times) r lines).1.serial)).heap
      (afterLines (Host.telling times) r lines).1.machine.heap := by
  induction lines using List.reverseRecOn with
  | nil => exact grown_fresh _
  | append_singleton lines line ih =>
    rw [afterLines_append]
    rcases hp : (afterLines (Host.telling times) r lines).1.prepare
      (afterLines (Host.telling times) r lines).2.reset line with ⟨p, s', r'⟩
    rw [runLine_of_prepare hp]
    cases p with
    | ready program => exact (run_accepted hp ih enoughFuel maxCalls).1.heap
    | trouble _ | halted _ =>
      show (Limits.grown (· < s'.serial)).heap s'.machine.heap
      rw [prepare_machine hp]
      exact Limits.grown_heap_mono (fun k hk => Nat.lt_of_lt_of_le hk (prepare_older hp).1) ih

/-- What is read of any text, whether it fits the grammar or not, may run behind some lines although
its names were not bound: it does not fault either. -/
theorem run_read (lines : List String) (text : String) (fuel room : Nat) :
    ∀ stop, ((afterLines (Host.telling times) r lines).1.machine.run
      (.following (afterLines (Host.telling times) r lines).1.depths (Host.telling times)) fuel room
      ((afterLines (Host.telling times) r lines).1.reading text).statements).1 = .stopped stop →
      (Limits.grown fun _ => True).stop stop := by
  obtain ⟨hbuilt, hshape, hserials⟩ := Grammar.GrownStmt.all
    (reading_grown (afterLines (Host.telling times) r lines).1 text)
  refine ((outside_afterLines lines).run_grown (g := .knowing []) ?_ hbuilt hshape
    (fun _ _ => trivial) ?_ fuel room).2
  · exact Limits.grown_heap_mono (fun _ _ => trivial) (grown_afterLines lines)
  · rintro site (hsite | hsite)
    · exact .inr (known_afterLines lines site hsite).found
    · refine .inl (depthOf_afterLines _ lines _ (hserials _ ?_))
      rw [← Sites.map_serial_stmts [] (.outermost (.globals (.knowing [])))]
      exact List.mem_map_of_mem hsite

end Session

end Scriptlet

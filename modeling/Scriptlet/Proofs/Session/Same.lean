import Scriptlet.Proofs.Session.Outline
import Scriptlet.Proofs.Tree.Same

/-!
# Programs that are the same

Programs that are the same run in the same way, if no truth value stands in one of them where the
other has a number (`Session.same_runs`). A truth value may be the same as a number, but is not
printed like it (`Session.same_prints_otherwise`).

Nothing else is told apart by a run. Names are bound in the same way, so the references of the two
programs have the same depths in the same places, and the programs have the same outline once their
tokens are without literals. The literals that are left are one, because a text has no number with a
minus sign.
-/

namespace Scriptlet

/-! ## Literals of texts -/

namespace Scan

theorem finding_unsigned {p : Token.Piece} {kind : Kind} {literal : Literal}
    (h : p.finding = .token kind literal) : literal.Unsigned := by
  unfold Token.Piece.finding at h
  split at h <;> cases h
  any_goals exact trivial
  exact Decimal.unsigned_ofDigits ..

theorem read_unsigned {s : Scan} (h : ∀ t ∈ s.tokens, t.literal.Unsigned) (p : Token.Piece) :
    ∀ t ∈ (s.read p).tokens, t.literal.Unsigned := by
  unfold read
  dsimp only
  split
  · exact h
  · next hfinding =>
    intro t ht
    rcases Array.mem_push.1 ht with ht | rfl
    · exact h t ht
    · exact finding_unsigned hfinding
  · exact h

/-- No token of a text has a number with a minus sign. -/
theorem ofText_unsigned (text : String) : ∀ t ∈ (ofText text).tokens, t.literal.Unsigned := by
  unfold ofText
  have hall : ∀ (ps : List Token.Piece) (s : Scan), (∀ t ∈ s.tokens, t.literal.Unsigned) →
      ∀ t ∈ (ps.foldl read s).tokens, t.literal.Unsigned := by
    intro ps
    induction ps with
    | nil => exact fun _ h => h
    | cons p rest ih => exact fun s h => ih (s.read p) (read_unsigned h p)
  exact hall _ start nofun

end Scan

namespace Session

variable {s t : Session} {text text' : String} {p q : List Stmt}

/-- No literal of a program that is ready is a number with a minus sign. -/
theorem Ready.unsigned (h : Ready s text p t) : ∀ l ∈ Literals.stmts p, l.Unsigned := by
  have hgrown := Grammar.Program.read_grown (P := Literal.Unsigned) (fun _ => trivial) trivial
    Grammar.maxDepth s.serial (Scan.ofText text).stop fun t ht _ =>
      Scan.ofText_unsigned text t (Array.mem_toList_iff.1 ht)
  have hread : (s.reading text).statements = p := congrArg Grammar.Program.statements h.read
  exact Literals.built_stmts p (hread ▸ (Grammar.GrownStmt.all hgrown).1)

/-! ## Outlines -/

/-- The depths of a program that is ready are on record in the order of its references. -/
theorem Ready.depths (h : Ready s text p t) :
    (Serials.stmts p).map (Binding.depthOf t.depths) =
      (s.references p).map Binding.Reference.depth := by
  rw [← Binding.map_serial_log s.globals.keys h.derives.wellformed.shape, List.map_map]
  exact List.map_congr_left h.depth

/-- Programs that are ready and the same have the same outline, apart from the literals of their
tokens, if their truth values stand in the same places. -/
theorem Ready.outline_same (h : Ready fresh text p s) (h' : Ready fresh text' q t)
    (hsame : Stmt.sameAll p q = true)
    (htruths : (Literals.stmts p).map Literal.isTruth = (Literals.stmts q).map Literal.isTruth) :
    (Relabeling.bare.outline s.depths).stmts p = (Relabeling.bare.outline t.depths).stmts q := by
  have hfit := Relabeling.fit_stmts p q hsame
  have hliterals := Literal.eq_of_same_all hfit.literals h.unsigned h'.unsigned htruths
  -- Without serials the programs are one, so the binding finds the same depths in both.
  have hbare := hfit.tree (fun _ => 0) (fun _ => 0) hliterals
    (by rw [List.map_const', List.map_const', hfit.serials])
  have hreferences : (fresh.references p).map (Relabeling.bare.through fun _ => 0).reference =
      (fresh.references q).map (Relabeling.bare.through fun _ => 0).reference := by
    rw [← references_relabeled, ← references_relabeled, hbare]
  have hdepths : (Serials.stmts p).map (Binding.depthOf s.depths) =
      (Serials.stmts q).map (Binding.depthOf t.depths) := by
    have hmap := congrArg (List.map Binding.Reference.depth) hreferences
    rw [List.map_map, List.map_map] at hmap
    exact h.depths.trans (hmap.trans h'.depths.symm)
  refine hfit.tree _ _ hliterals ?_
  have hcoded := congrArg (List.map Binding.coded) hdepths
  rwa [List.map_map, List.map_map] at hcoded

/-! ## Runs -/

/-- Two programs, each in its session, run in the same way, with any amount of fuel and any room for
calls. -/
structure RunsSame (host : Host) (s t : Session) (p q : List Stmt) : Prop where
  /-- They print the same. -/
  printed : ∀ fuel room, (s.machine.run (.following s.depths host) fuel room p).2.printed =
    (t.machine.run (.following t.depths host) fuel room q).2.printed
  /-- They leave the same frames, with the same values but for the serials and for the literals of
  tokens in their functions. -/
  machine : ∀ fuel room,
    (Relabeling.bare.outline s.depths).machine
        (s.machine.run (.following s.depths host) fuel room p).2 =
      (Relabeling.bare.outline t.depths).machine
        (t.machine.run (.following t.depths host) fuel room q).2
  /-- They end in the same way. A crash has the same cause, and its tokens differ at most in their
  literals. -/
  ending : ∀ fuel room,
    Relabeling.bare.ending (s.machine.run (.following s.depths host) fuel room p).1 =
      Relabeling.bare.ending (t.machine.run (.following t.depths host) fuel room q).1
  /-- They leave the same globals in the same order. -/
  globals : ∀ r, (s.interpret host r p).2.1.globals.keys = (t.interpret host r q).2.1.globals.keys
  /-- There is the same to complain about. -/
  messages : ∀ r, (s.interpret host r p).2.2.messages = (t.interpret host r q).2.2.messages

/-- What is entered in a report does not show the literals of tokens. -/
theorem messages_interpret (host : Host) (s : Session) (r : Report) (p : List Stmt) :
    (s.interpret host r p).2.2.messages =
      match Relabeling.bare.ending (s.interpret host r p).1 with
      | .stopped (.crash c) => r.issues.map Issue.text ++ #[c.text]
      | _ => r.messages := by
  unfold interpret
  dsimp only
  rcases s.machine.run (.following s.depths host) enoughFuel maxCalls p with ⟨ending, m⟩
  cases ending with
  | finished => rfl
  | stopped stop => cases stop <;> rfl

/-- Machines with the same outline whose programs have the same outline do the same. -/
theorem RunsSame.of_outline {times : Nat → Float}
    (hm : (Relabeling.bare.outline s.depths).machine s.machine =
      (Relabeling.bare.outline t.depths).machine t.machine)
    (hp : (Relabeling.bare.outline s.depths).stmts p =
      (Relabeling.bare.outline t.depths).stmts q) :
    RunsSame (Host.telling times) s t p q := by
  have hruns := Machine.run_of_outline times hm hp
  refine ⟨fun fuel room => ?_, fun fuel room => (hruns fuel room).2,
    fun fuel room => (hruns fuel room).1, fun r => ?_, fun r => ?_⟩
  · have hprinted := congrArg Machine.printed (hruns fuel room).2
    exact hprinted
  · rw [keys_relabeled (Relabeling.bare.outline s.depths) (s.interpret _ r p).2.1,
      keys_relabeled (Relabeling.bare.outline t.depths) (t.interpret _ r q).2.1]
    exact congrArg Machine.globalNames (hruns enoughFuel maxCalls).2
  · have hending : Relabeling.bare.ending (s.interpret _ r p).1 =
        Relabeling.bare.ending (t.interpret _ r q).1 := (hruns enoughFuel maxCalls).1
    rw [messages_interpret, messages_interpret, hending]

/-- **Programs that are the same run in the same way**, if their truth values stand in the same
places. -/
theorem same_runs (times : Nat → Float) {r r' r₁ r₁' : Report} {text text' : String}
    {p q : List Stmt} {s t : Session} (hp : fresh.prepare r text = (.ready p, s, r₁))
    (hq : fresh.prepare r' text' = (.ready q, t, r₁')) (hsame : Stmt.sameAll p q = true)
    (htruths : (Literals.stmts p).map Literal.isTruth = (Literals.stmts q).map Literal.isTruth) :
    RunsSame (Host.telling times) s t p q := by
  have hready := ready_of_prepare hp
  have hready' := ready_of_prepare hq
  refine .of_outline ?_ (hready.outline_same hready' hsame htruths)
  -- On a fresh heap there is no function, so there are no serials.
  rw [hready.machine, hready'.machine]
  exact Relabeling.machine_congr (Q := fun _ => False) nofun (grown_fresh _)

/-- Two ways to write a number make no difference to what is printed, nor to the crash. -/
theorem same_runs_spelling : ∃ p q s t r r',
    fresh.prepare (.fresh 10 false) "var a = 1.50; print a; b;" = (.ready p, s, r) ∧
    fresh.prepare (.fresh 10 false) "var a = 1.5;  print a; b;" = (.ready q, t, r') ∧
    RunsSame (Host.telling fun _ => 0) s t p q ∧
    (t.interpret (Host.telling fun _ => 0) r' q).2.1.machine.printed = #["1.5"] ∧
    (t.interpret (Host.telling fun _ => 0) r' q).2.2.messages =
      #["Undefined variable 'b'.\n[line: 1]"] := by
  obtain ⟨s, r, hp, -⟩ := exists_ready (Host.telling fun _ => 0) (.fresh 10 false)
    "var a = 1.50; print a; b;" (by decide +kernel)
  obtain ⟨t, r', hq, hrun⟩ := exists_ready (Host.telling fun _ => 0) (.fresh 10 false)
    "var a = 1.5;  print a; b;" (by decide +kernel)
  refine ⟨_, _, s, t, r, r', hp, hq,
    same_runs (fun _ => 0) hp hq (by decide +kernel) (by decide +kernel), ?_, ?_⟩
  · rw [hrun]
    decide +kernel
  · rw [hrun]
    decide +kernel

/-- The number one and the truth value make the same program, and are not printed alike. -/
theorem same_prints_otherwise : ∃ p q s t r r',
    fresh.prepare (.fresh 10 false) "print 1;" = (.ready p, s, r) ∧
    fresh.prepare (.fresh 10 false) "print true;" = (.ready q, t, r') ∧
    Stmt.sameAll p q = true ∧
    (s.interpret (Host.telling fun _ => 0) r p).2.1.machine.printed = #["1"] ∧
    (t.interpret (Host.telling fun _ => 0) r' q).2.1.machine.printed = #["true"] := by
  obtain ⟨s, r, hp, hrun⟩ := exists_ready (Host.telling fun _ => 0) (.fresh 10 false) "print 1;"
    (by decide +kernel)
  obtain ⟨t, r', hq, hrun'⟩ := exists_ready (Host.telling fun _ => 0) (.fresh 10 false)
    "print true;" (by decide +kernel)
  refine ⟨_, _, s, t, r, r', hp, hq, by decide +kernel, ?_, ?_⟩
  · rw [hrun]
    decide +kernel
  · rw [hrun']
    decide +kernel

end Session

end Scriptlet

import Enquanto.Proofs.Divergence
import Enquanto.Proofs.ReadBack

/-!
# The machine does what the rules say

For every source that is read, every state and every limit of calls, the machine running the flat
module and the rules on the trees agree: on whether the run ends, on how it ends, and on the state
that it leaves behind.

* `Machine.serves_of_parse`: the machine of a source that is read;
* `Machine.Serves.run_ends_iff` and `Machine.Serves.run_exhausts_iff`: its runs are those of the
  rules;
* `Module.parse_run_iff`: the same from the text of a source on.
-/

namespace Enquanto

open Run

/-- The module of a source lays out the program of its tokens. -/
theorem Module.exists_program_of_parse {source : String} {names names' : Names} {m : Module}
    (h : Module.parse source names = (.ok m, names')) :
    ∃ program, m = .ofProgram program ∧
      Program.parse names' (lex source names).1 = .ok program := by
  obtain ⟨hm, rfl⟩ := Prod.ext_iff.mp h
  simp only [Module.parse] at hm ⊢
  cases hp : Program.parse (lex source names).2 (lex source names).1 with
  | error e =>
    rw [hp] at hm
    cases hm
  | ok program =>
    rw [hp] at hm
    cases hm
    exact ⟨program, rfl, rfl⟩

namespace Machine

/-- The machine with the module of a program that was read serves the program. -/
theorem serves_ofProgram {names names' : Names} {tokens : List (Token Name)} {program : Program}
    (h : Program.parse names tokens = .ok program) (maxDepth : Nat) :
    Serves ⟨names', .ofProgram program, maxDepth⟩ ⟨names', program, maxDepth⟩ :=
  ⟨rfl, rfl, Module.ofProgram_represents program, Program.parse_resolved h⟩

/-- The machine with the module of a source serves the program of the source. -/
theorem serves_of_parse {source : String} {names names' : Names} {m : Module}
    (h : Module.parse source names = (.ok m, names')) :
    ∃ program, m = .ofProgram program ∧
      ∀ maxDepth, Serves ⟨names', m, maxDepth⟩ ⟨names', program, maxDepth⟩ := by
  obtain ⟨program, rfl, hp⟩ := Module.exists_program_of_parse h
  exact ⟨program, rfl, serves_ofProgram hp⟩

namespace Serves

variable {m : Machine} {w : Setting} {s s' : State} {r : Except Fault Unit}

/-- The run of a module is the run of its top-level commands. -/
theorem implements_run (hm : m.Serves w) :
    m.Implements .root (.sequence w.program.commands) fun fuel => m.run fuel :=
  .sequence hm.module.commands

/-- Whatever the fuel, the run is out of fuel or ends as the rules say. -/
theorem run_yields (hm : m.Serves w) (fuel : Nat) (s : State) :
    (m.run fuel).Yields s (Executes w .root (.sequence w.program.commands) s) :=
  hm.implements_run.yields hm w.program.commands_within fuel s

/-- With enough fuel, the run ends as the rules say. -/
theorem run_ends_iff (hm : m.Serves w) :
    Ends m.run s r s' ↔ Executes w .root (.sequence w.program.commands) s r s' := by
  constructor
  · intro h
    obtain ⟨fuel, hfuel⟩ := h.exists
    exact (hm.run_yields fuel s).of_ended hfuel
  · intro h
    exact Implements.ends hm h hm.implements_run w.program.commands_within

/-- The run never ends exactly if the program diverges. -/
theorem run_exhausts_iff (hm : m.Serves w) :
    (∀ fuel, (m.run fuel).Exhausts s) ↔ Diverges w .root (.sequence w.program.commands) s :=
  (hm.implements_run.diverges_iff hm w.program.commands_within s).symm

/-- The run ends, or is out of fuel however much there was. -/
theorem run_ends_or_exhausts (hm : m.Serves w) (s : State) :
    (∃ r s', Ends m.run s r s') ∨ ∀ fuel, (m.run fuel).Exhausts s := by
  by_cases h : Finishes w .root (.sequence w.program.commands) s
  · obtain ⟨r, s', h⟩ := h
    exact .inl ⟨r, s', hm.run_ends_iff.mpr h⟩
  · refine .inr (hm.run_exhausts_iff.mpr ?_)
    exact diverges_of_not_finishes hm.resolved w.program.commands_within h

end Serves

end Machine

/-- A source that is read is run as its trees say: the machine ends as the rules end, in the same
state, and never ends where they diverge; whatever the fuel, it gives no other answer. -/
theorem Module.parse_run_iff (source : String) (names names' : Names) (m : Module)
    (h : Module.parse source names = (.ok m, names')) :
    ∃ program, m.program? = some program ∧ ∀ (maxDepth : Nat) (s : State),
      let machine : Machine := ⟨names', m, maxDepth⟩
      let w : Setting := ⟨names', program, maxDepth⟩
      (∀ r s', Ends machine.run s r s' ↔
        Executes w .root (.sequence program.commands) s r s') ∧
      ((∀ fuel, (machine.run fuel).Exhausts s) ↔
        Diverges w .root (.sequence program.commands) s) ∧
      ∀ fuel, (machine.run fuel).Yields s (Executes w .root (.sequence program.commands) s) := by
  obtain ⟨program, rfl, hserves⟩ := Machine.serves_of_parse h
  refine ⟨program, Module.program?_ofProgram program, fun maxDepth s => ?_⟩
  have hm := hserves maxDepth
  exact ⟨fun r s' => hm.run_ends_iff, hm.run_exhausts_iff, fun fuel => hm.run_yields fuel s⟩

/-- A source whose only loop never ends is run for as long as there is fuel. -/
theorem Module.parse_run_iff_forever : ∃ m : Module,
    Module.parse "enquanto verdadeiro faca skip" .initial = (.ok m, .initial) ∧
    ∀ (s : State) (fuel : Nat), (Machine.run ⟨.initial, m, 10⟩ fuel).Exhausts s := by
  have h : Module.parse "enquanto verdadeiro faca skip" .initial =
      (.ok (.ofProgram [.command (.loop (.lit true ⟨9, 19⟩) (.skip ⟨25, 29⟩) ⟨0, 29⟩)]),
        .initial) := by
    decide +kernel
  refine ⟨_, h, fun s => ?_⟩
  obtain ⟨program, hp, hrun⟩ := Module.parse_run_iff _ _ _ _ h
  rw [Module.program?_ofProgram, Option.some_inj] at hp
  subst hp
  refine (hrun 10 s).2.1.mpr (Diverges.awaits _ _ .sequence_first ?_)
  refine Diverges.coinduct _ _ (fun work t => t = s ∧
    work = .command (.loop (.lit true ⟨9, 19⟩) (.skip ⟨25, 29⟩) ⟨0, 29⟩)) ?_ _ _ ⟨rfl, rfl⟩
  rintro _ _ ⟨rfl, rfl⟩
  exact ⟨_, _, .loop_turn .lit .skip, rfl, rfl⟩

end Enquanto

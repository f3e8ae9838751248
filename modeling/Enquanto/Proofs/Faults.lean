import Enquanto.Proofs.Adequacy
import Enquanto.Proofs.TextInput

/-!
# Where faults come from

A run of a source that was read finds all that it looks up, and a fault that ends it was raised by a
node of the arena: a division, a read or a call.

* `Fault.RaisedIn`: the fault tells of a node that can raise it;
* `Machine.Serves.runsSafely_exec` and `Machine.Serves.runsSafely_run`: runs end with no other
  fault;
* `Module.parse_runsSafely`: the same from the text of a source on.
-/

namespace Enquanto

/-! ## Nodes that raise faults -/

/-- The fault was raised by a node of the arena, whose span it has: a division, a read, or a call
beyond the limit. -/
inductive Fault.RaisedIn (a : Arena) (maxDepth : Nat) : Fault → Prop
  | division {id l r : ExprId} {span : Span} :
    a.expr? id = some ⟨.arith .div l r, span⟩ →
    Fault.RaisedIn a maxDepth ⟨.divisionByZero, some span⟩
  | read {id : ExprId} {span : Span} {error : ReadError} :
    a.expr? id = some ⟨.read, span⟩ → Fault.RaisedIn a maxDepth ⟨.read error, some span⟩
  | limit {id : ExprId} {function : FunctionId} {args : Slice} {span : Span} :
    a.expr? id = some ⟨.call function args, span⟩ →
    Fault.RaisedIn a maxDepth ⟨.stackOverflow maxDepth, some span⟩

/-- The fault is not that a line of the input is no text. -/
def Fault.OfText (f : Fault) : Prop := ∀ message, f.cause ≠ .read (.failed message)

theorem Arena.Laid.exists_exprId {a : Arena} {f : Flattening} (h : Laid {} a f) {scope : ScopeId}
    {e : Expr} (he : (scope, e) ∈ f.exprs) : ∃ id, a.HoldsExpr scope e id := by
  obtain ⟨i, hi⟩ := List.getElem?_of_mem he
  exact ⟨_, h.exprs.get hi⟩

namespace Setting

/-- Whatever the state, a fault is raised by a node of the arena. -/
theorem keeps_raisedIn {w : Setting} {a : Arena} (h : Arena.Laid {} a w.program.flat) :
    w.Keeps (fun _ => True) (Fault.RaisedIn a w.maxDepth) where
  store := fun _ _ _ _ _ => trivial
  print := fun _ _ _ => trivial
  read := fun _ _ _ _ _ => trivial
  read_fault := by
    intro s error input scope span he _ _
    obtain ⟨id, hn⟩ := h.exists_exprId he
    exact ⟨trivial, .read hn⟩
  division := by
    intro scope l r span he
    obtain ⟨id, i, j, hn, -⟩ := h.exists_exprId he
    exact .division hn
  limit := by
    intro scope function args span he
    obtain ⟨id, slice, ids, hn, -⟩ := h.exists_exprId he
    exact .limit hn

/-- A text stays a text while it is read, and raises no fault of its own. -/
theorem keeps_isText (w : Setting) : w.Keeps (·.input.IsText) Fault.OfText where
  store := fun _ _ _ _ hs => hs
  print := fun _ _ hs => hs
  read := fun _ _ _ hs hr => (hs.readInt hr).1
  read_fault := by
    intro s error input scope span _ hs hr
    obtain ⟨hinput, hne⟩ := hs.readInt hr
    refine ⟨hinput, fun message he => ?_⟩
    cases he
    exact hne message rfl
  division := fun _ _ _ _ _ _ => nofun
  limit := fun _ _ _ _ _ _ => nofun

end Setting

/-! ## Runs -/

namespace Machine

/-- From every state, the run comes to an end, is out of fuel, or is ended by a fault that a node of
the arena raised; if the input is text, it is not to blame. -/
def RunsSafely (m : Machine) (run : Run Unit) : Prop :=
  ∀ s halt s', run s = .error halt s' → halt = .outOfFuel ∨
    ∃ f, halt = .fault f ∧ f.RaisedIn m.module.arena m.maxDepth ∧ (s.input.IsText → f.OfText)

variable {m : Machine} {w : Setting} {scope : ScopeId}

/-- What the machine does for work among the subtrees of the program is safe. -/
theorem Implements.runsSafely (hm : m.Serves w) {work : Work} {run : Nat → Run Unit}
    (hi : m.Implements scope work run) (hw : (work.flat scope).Within w.program.flat)
    (fuel : Nat) : m.RunsSafely (run fuel) := by
  intro s halt s' hrun
  rcases (hi.yields hm hw fuel s).exists_ended with ⟨t, he⟩ | ⟨r, t, he, hexec⟩
  · rw [hrun] at he
    cases he
    exact .inl rfl
  · rw [hrun] at he
    cases r with
    | ok _ => cases he
    | error f =>
      cases he
      refine .inr ⟨f, rfl, ?_, fun htext => ?_⟩
      · rw [hm.maxDepth]
        exact (hexec.keeps (Setting.keeps_raisedIn hm.module.arena) hw trivial).2
      · exact (hexec.keeps w.keeps_isText hw htext).2

namespace Serves

theorem runsSafely_run (hm : m.Serves w) (fuel : Nat) : m.RunsSafely (m.run fuel) :=
  hm.implements_run.runsSafely hm w.program.commands_within fuel

/-- Every command of the arena can be run on its own. -/
theorem runsSafely_exec (hm : m.Serves w) {id : CommandId}
    (hid : id.index < m.module.arena.commands.size) (fuel : Nat) :
    m.RunsSafely (m.exec fuel id) := by
  obtain ⟨scope, c, hholds, hw⟩ := hm.module.exists_command hid
  exact Implements.runsSafely hm (.command hholds) hw fuel

end Serves

end Machine

/-- Running a source that was read, or any of its commands, looks up nothing that is not there, and
faults only at divisions, reads and calls. -/
theorem Module.parse_runsSafely (source : String) (names names' : Names) (m : Module)
    (h : Module.parse source names = (.ok m, names')) (maxDepth fuel : Nat) :
    let machine : Machine := ⟨names', m, maxDepth⟩
    machine.RunsSafely (machine.run fuel) ∧
      ∀ id : CommandId, id.index < m.arena.commands.size →
        machine.RunsSafely (machine.exec fuel id) := by
  obtain ⟨program, -, hserves⟩ := Machine.serves_of_parse h
  have hm := hserves maxDepth
  exact ⟨hm.runsSafely_run fuel, fun id hid => hm.runsSafely_exec hid fuel⟩

/-- A division by zero is told of the division. -/
theorem Module.parse_runsSafely_division : ∃ m : Module,
    Module.parse "escreva 1 / 0" .initial = (.ok m, .initial) ∧
    ∀ s : State, ∃ f, Machine.exec ⟨.initial, m, 10⟩ 3 ⟨0⟩ s = .error (.fault f) s ∧
      f.cause = .divisionByZero ∧ f.RaisedIn m.arena 10 ∧
        ∀ text, s.input = .ofString text → f.OfText := by
  have h : Module.parse "escreva 1 / 0" .initial =
      (.ok (.ofProgram [.command (.printInt
        (.arith .div (.int 1 ⟨8, 9⟩) (.int 0 ⟨12, 13⟩) ⟨8, 13⟩) ⟨0, 13⟩)]), .initial) := by
    decide +kernel
  refine ⟨_, h, fun s => ?_⟩
  have hsafe := (Module.parse_runsSafely _ _ _ _ h 10 3).2 ⟨0⟩ (by decide)
  obtain hf | ⟨f, hf, hraised, htext⟩ :=
    hsafe s (.fault ⟨.divisionByZero, some ⟨8, 13⟩⟩) s rfl
  · cases hf
  · cases hf
    refine ⟨_, rfl, rfl, hraised, fun text hs => htext ?_⟩
    rw [hs]
    exact Input.isText_ofString text

end Enquanto

import Enquanto.Interpret
import Enquanto.Proofs.NodeCalls

/-!
# What evaluation and commands leave alone

Evaluating an expression or a predicate prints nothing and touches neither the root frame nor the
links between frames. All that it changes, in whatever way it ends, are parameters, each in the
frame of a function that the expression reaches. So the global variables that a command changes are
those that it assigns or counts with.

* `State.ChangesOnly`: two states differ in some bindings below the root, and in the input;
* `Evaluates.changesOnly` and `Decides.changesOnly`: the bindings that evaluation changes;
* `Executes.getLocal?_root_eq`: a global variable that is no target of a command stays as it is;
* `Module.parse_frame`: the same of the nodes of a source.
-/

namespace Enquanto

open Run

/-- Nothing is printed, all frames keep their links, the root frame is unchanged, and no binding
without `allowed` differs. -/
structure State.ChangesOnly (allowed : ScopeId → Name → Prop) (s s' : State) : Prop where
  output : s'.output = s.output
  size : s'.env.size = s.env.size
  legacy : ∀ scope, s'.env.legacy scope = s.env.legacy scope
  root : s'.env.root? = s.env.root?
  changed : ∀ scope x, s'.env.getLocal? scope x ≠ s.env.getLocal? scope x → allowed scope x

namespace State.ChangesOnly

variable {allowed allowed' : ScopeId → Name → Prop} {s s₁ s₂ s' : State}

theorem refl (s : State) : s.ChangesOnly allowed s :=
  ⟨rfl, rfl, fun _ => rfl, rfl, fun _ _ h => absurd rfl h⟩

theorem trans (h₁ : s.ChangesOnly allowed s₁) (h₂ : s₁.ChangesOnly allowed s₂) :
    s.ChangesOnly allowed s₂ where
  output := h₂.output.trans h₁.output
  size := h₂.size.trans h₁.size
  legacy := fun scope => (h₂.legacy scope).trans (h₁.legacy scope)
  root := h₂.root.trans h₁.root
  changed := by
    intro scope x h
    by_cases he : s₁.env.getLocal? scope x = s.env.getLocal? scope x
    · exact h₂.changed scope x (he ▸ h)
    · exact h₁.changed scope x he

/-- A store in a frame below the root. -/
theorem store {scope : ScopeId} {x : Name} {value : Int32} (hs : scope.index < s.env.size)
    (hne : scope ≠ .root) (ha : allowed scope x) :
    s.ChangesOnly allowed (s.store scope x value) where
  output := rfl
  size := Environment.size_store ..
  legacy := fun _ => Environment.legacy_store
  root := Environment.root?_store_of_ne hs hne
  changed := by
    intro scope' y h
    by_contra hna
    refine h (Environment.getLocal?_store_of_ne ?_)
    rw [Environment.clamp_of_lt hs]
    rintro ⟨rfl, rfl⟩
    exact hna ha

theorem imp (h : s.ChangesOnly allowed s') (hi : ∀ scope x, allowed scope x → allowed' scope x) :
    s.ChangesOnly allowed' s' :=
  ⟨h.output, h.size, h.legacy, h.root, fun scope x hx => hi scope x (h.changed scope x hx)⟩

theorem getLocal?_root (h : s.ChangesOnly allowed s') (x : Name) :
    s'.env.getLocal? .root x = s.env.getLocal? .root x := by
  rw [Environment.getLocal?_root, Environment.getLocal?_root, h.root]

end State.ChangesOnly

/-! ## By the rules -/

/-- The scope is that of a function with `reached`, which has the variable as a parameter. -/
def Program.Owns (program : Program) (reached : FunctionId → Prop) (scope : ScopeId) (x : Name) :
    Prop :=
  ∃ g d, reached g ∧ program.declarations[g.index]? = some d ∧ g.scope = scope ∧ x ∈ d.params

section
variable {w : Setting} {scope : ScopeId} {s s' : State}

/-- With a frame for every function, what evaluation does is to change parameters. -/
theorem Program.effects_changesOnly (program : Program) (reached : FunctionId → Prop) :
    program.Effects reached fun s s' => program.declarations.length < s.env.size →
      s.ChangesOnly (program.Owns reached) s' where
  refl := fun s _ => .refl s
  trans := by
    intro s₁ s₂ s₃ h₁ h₂ hs
    have h₁ := h₁ hs
    exact h₁.trans (h₂ (h₁.size ▸ hs))
  read := fun s input _ => ⟨rfl, rfl, fun _ => rfl, rfl, fun _ _ h => absurd rfl h⟩
  store := by
    intro g d p s value hd hp hg hs
    have hlt : g.scope.index < s.env.size :=
      Nat.lt_of_le_of_lt (List.getElem?_eq_some_iff.mp hd).1 hs
    exact .store hlt g.scope_ne_root ⟨g, d, hg, hd, rfl, hp⟩

theorem Evaluates.changesOnly {depth : Nat} {e : Expr} {r : Except Fault Int32}
    (h : Evaluates w depth scope e s r s') (hs : w.program.declarations.length < s.env.size) :
    s.ChangesOnly (w.program.Owns (e.Reaches w.program)) s' :=
  h.effects (w.program.effects_changesOnly _) (fun _ hg => hg) hs

theorem Decides.changesOnly {p : Pred} {r : Except Fault Bool} (h : Decides w scope p s r s')
    (hs : w.program.declarations.length < s.env.size) :
    s.ChangesOnly (w.program.Owns (p.Reaches w.program)) s' :=
  h.effects (w.program.effects_changesOnly _) (fun _ hg => hg) hs

/-- A store of another variable, and evaluation, leave a global variable as it is. -/
theorem Setting.keepsIn_getLocal?_root (w : Setting) (scope : ScopeId) (x : Name)
    (value : Option Int32) : w.KeepsIn scope (· ≠ x)
      (fun t => w.program.declarations.length < t.env.size ∧ t.env.getLocal? .root x = value)
      fun _ => True where
  evaluates := by
    rintro e t t' r h - ⟨ht, hx⟩
    have hc := h.changesOnly ht
    refine ⟨⟨hc.size ▸ ht, (hc.getLocal?_root x).trans hx⟩, ?_⟩
    cases r <;> trivial
  store := by
    rintro t y v hne ⟨ht, hx⟩
    refine ⟨by rwa [State.store, Environment.size_store], ?_⟩
    rw [← hx]
    exact Environment.getLocal?_store_of_ne fun h => hne h.2.symm
  print := fun _ ht => ht

theorem Executes.getLocal?_root_eq {work : Work} {r : Except Fault Unit} {x : Name}
    (h : Executes w scope work s r s') (hw : (work.flat scope).Within w.program.flat)
    (hs : w.program.declarations.length < s.env.size) (hx : x ∉ work.targets) :
    s'.env.getLocal? .root x = s.env.getLocal? .root x := by
  have hk := w.keepsIn_getLocal?_root scope x (s.env.getLocal? .root x)
  have ha : ∀ y ∈ work.targets, y ≠ x := by
    rintro y hy rfl
    exact hx hy
  exact (h.keepsIn hk hw ha ⟨hs, rfl⟩).1.2

end

/-! ## On the machine -/

/-- The scope is that of a function that is reached below the node, which has the variable as a
parameter. -/
def Module.OwnsBelow (m : Module) (n : Node) (scope : ScopeId) (x : Name) : Prop :=
  ∃ g f, m.ReachesBelow n g ∧ m.functions.get? g = some f ∧ f.scope = scope ∧ x ∈ f.params

theorem Module.Represents.ownsBelow {m : Module} {program : Program} (h : m.Represents program)
    {reached : FunctionId → Prop} {n : Node} (hr : ∀ g, reached g → m.ReachesBelow n g)
    {scope : ScopeId} {x : Name} (hx : program.Owns reached scope x) : m.OwnsBelow n scope x := by
  obtain ⟨g, d, hg, hd, hscope, hp⟩ := hx
  obtain ⟨body, hf, -⟩ := h.function hd
  exact ⟨g, _, hr g hg, hf, hscope, hp⟩

/-- In a source that was read, with a frame for every scope: expressions and predicates change
parameters of functions that they reach, and commands change global variables that they assign or
count with. -/
theorem Module.parse_frame (source : String) (names names' : Names) (m : Module)
    (h : Module.parse source names = (.ok m, names')) (maxDepth : Nat) (s : State)
    (hs : m.scopes.size ≤ s.env.size) :
    let machine : Machine := ⟨names', m, maxDepth⟩
    (∀ (id : ExprId) (fuel depth : Nat) (r : Except Fault Int32) (s' : State),
      id.index < m.arena.exprs.size → machine.evalExpr fuel depth id s = ended r s' →
      s.ChangesOnly (m.OwnsBelow (.expr id)) s') ∧
    (∀ (id : PredId) (fuel : Nat) (r : Except Fault Bool) (s' : State),
      id.index < m.arena.preds.size → machine.evalPred fuel id s = ended r s' →
      s.ChangesOnly (m.OwnsBelow (.pred id)) s') ∧
    ∀ (id : CommandId) (fuel : Nat) (r : Except Fault Unit) (s' : State) (x : Name),
      id.index < m.arena.commands.size → machine.exec fuel id s = ended r s' →
      s'.env.getLocal? .root x ≠ s.env.getLocal? .root x → m.StoresBelow (.command id) x := by
  obtain ⟨program, -, hserves⟩ := Machine.serves_of_parse h
  have hm := hserves maxDepth
  have hsize : program.declarations.length < s.env.size := by
    rw [hm.module.scopes_size, hm.module.functions_size] at hs
    exact hs
  refine ⟨fun id fuel depth r s' hid he => ?_, fun id fuel r s' hid he => ?_,
    fun id fuel r s' x hid he hx => ?_⟩
  · obtain ⟨scope, e, hholds, hw⟩ := hm.module.exists_expr hid
    have hev := (Machine.evalExpr_yields hm fuel depth hholds hw s).of_ended he
    exact (hev.changesOnly hsize).imp fun _ _ =>
      hm.module.ownsBelow fun _ => (hm.module.reachesBelow_expr hholds).mpr
  · obtain ⟨scope, p, hholds, hw⟩ := hm.module.exists_pred hid
    have hdec := (Machine.evalPred_yields hm fuel hholds hw s).of_ended he
    exact (hdec.changesOnly hsize).imp fun _ _ =>
      hm.module.ownsBelow fun _ => (hm.module.reachesBelow_pred hholds).mpr
  · obtain ⟨scope, c, hholds, hw⟩ := hm.module.exists_command hid
    have hexec := ((Machine.Implements.command hholds).yields hm hw fuel s).of_ended he
    by_contra hns
    exact hx (hexec.getLocal?_root_eq hw hsize fun ht => hns (hholds.storesBelow ht))

/-- A call, and an assignment of its value. -/
def Module.assigned : String := "def f(a) = 7; x := f(5)"

/-- The program of `assigned`. -/
def Module.assignedProgram : Program :=
  [.declare ⟨⟨1⟩, [⟨2⟩], .int 7 ⟨11, 12⟩, ⟨0, 10⟩⟩,
    .command (.assign ⟨3⟩ (.call ⟨0⟩ [.int 5 ⟨21, 22⟩] ⟨19, 23⟩) ⟨14, 23⟩)]

/-- The call leaves its argument in the frame of the function, and the assignment changes its own
target. -/
theorem Module.parse_frame_assigned : ∃ (m : Module) (names : Names),
    Module.parse assigned .initial = (.ok m, names) ∧
    let machine : Machine := ⟨names, m, 10⟩
    let s := Machine.start m (.ofString "")
    m.scopes.size ≤ s.env.size ∧
    (∃ s', machine.evalExpr 10 0 ⟨2⟩ s = ended (.ok 7) s' ∧
      s'.env.getLocal? ⟨1⟩ ⟨2⟩ = some 5 ∧ s.ChangesOnly (m.OwnsBelow (.expr ⟨2⟩)) s') ∧
    ∃ s', machine.exec 10 ⟨0⟩ s = ended (.ok ()) s' ∧
      s'.env.getLocal? .root ⟨3⟩ = some 7 ∧ m.StoresBelow (.command ⟨0⟩) ⟨3⟩ := by
  have h : Module.parse assigned .initial =
      (.ok (.ofProgram assignedProgram), ⟨#["", "f", "a", "x"]⟩) := by
    decide +kernel
  have hs : (ofProgram assignedProgram).scopes.size ≤
      (Machine.start (ofProgram assignedProgram) (.ofString "")).env.size :=
    (Environment.fits_ofScopes _).size
  obtain ⟨hexpr, -, hcommand⟩ := Module.parse_frame _ _ _ _ h 10 _ hs
  refine ⟨_, _, h, hs, ⟨_, rfl, ?_, hexpr ⟨2⟩ 10 0 (.ok 7) _ (by decide) rfl⟩, _, rfl, ?_,
    hcommand ⟨0⟩ 10 (.ok ()) _ ⟨3⟩ (by decide) rfl ?_⟩
  · decide +kernel
  · decide +kernel
  · decide +kernel

end Enquanto

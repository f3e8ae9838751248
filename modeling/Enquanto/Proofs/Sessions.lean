import Enquanto.Proofs.Isolation
import Mathlib

/-!
# Sessions

In a session, sources are read with one table of names and run one after the other on one
environment. Functions of different modules that have the same number share a frame, and a body that
looks up a global variable may find in its frame a parameter that another function left there.

* `Session`: the environments that a session leads to;
* `Session.bindsOnly`: a frame holds parameters of the functions of its number only;
* `Environment.Stale`: a body of the next module would find a variable that is none of its
  parameters;
* `Session.sameAnswer_of_not_stale`: without that the module runs as with empty frames, and
  `Session.stale_shows`: with it, it may not.
-/

namespace Enquanto

open Run

/-! ## Empty frames -/

namespace Environment

/-- The environment with nothing in the frames of functions. -/
def withoutLocals (env : Environment) : Environment :=
  ⟨env.frames.mapIdx fun i frame => if i = 0 then frame else { frame with vars := [] }⟩

variable (env : Environment)

@[simp] theorem size_withoutLocals : env.withoutLocals.size = env.size := by
  simp [withoutLocals, size]

@[simp] theorem root?_withoutLocals : env.withoutLocals.root? = env.root? := by
  simp [withoutLocals, root?, Array.getElem?_mapIdx]

@[simp] theorem legacy_withoutLocals (scope : ScopeId) :
    env.withoutLocals.legacy scope = env.legacy scope := by
  unfold legacy withoutLocals
  rw [Array.getElem?_mapIdx]
  cases env.frames[scope.index]? with
  | none => rfl
  | some frame =>
    simp only [Option.map_some]
    split <;> rfl

theorem getLocal?_withoutLocals {scope : ScopeId} (h : scope ≠ .root) (name : Name) :
    env.withoutLocals.getLocal? scope name = none := by
  have hi : scope.index ≠ 0 := fun e => h (congrArg TableId.mk e)
  unfold getLocal? withoutLocals
  rw [Array.getElem?_mapIdx]
  cases env.frames[scope.index]? with
  | none => rfl
  | some frame =>
    simp only [Option.map_some, if_neg hi]
    rfl

variable {env}

theorem Fits.withoutLocals {m : Module} (h : env.Fits m) : env.withoutLocals.Fits m where
  size := by
    rw [size_withoutLocals]
    exact h.size
  legacy := by
    intro scope hs
    rw [legacy_withoutLocals]
    exact h.legacy scope hs

/-- Some function of the module looks up a name that is none of its parameters and that is held by
its frame. -/
def Stale (env : Environment) (m : Module) : Prop :=
  ∃ id f x, m.functions.get? id = some f ∧ m.Reads f.scope x ∧ x ∉ f.params ∧
    (env.getLocal? f.scope x).isSome

end Environment

/-- Nothing stale makes the frames of functions as good as empty. -/
theorem State.sameView_withoutLocals {m : Module} {program : Program}
    (hm : m.Represents program) {env : Environment} (hfits : env.Fits m) (hstale : ¬ env.Stale m)
    (input : Input) (output : String) :
    SameView m ∅ ⟨env, input, output⟩ ⟨env.withoutLocals, input, output⟩ := by
  refine ⟨⟨env.root?_withoutLocals.symm, rfl, rfl⟩, hfits, hfits.withoutLocals, ?_⟩
  intro id f x hf hb hx
  have hp : x ∉ f.params := fun hp => Set.notMem_empty _ (hb hp)
  have hread : m.Reads f.scope x := hx.resolve_left hp
  have hnone : env.getLocal? f.scope x = none := by
    by_contra hne
    exact hstale ⟨id, f, x, hf, hread, hp, Option.isSome_iff_ne_none.mpr hne⟩
  simp only [hnone, Environment.getLocal?_withoutLocals env (hm.scope_ne_root hf)]

/-! ## Sessions -/

/-- Sources can be run one after the other so that these modules have been run, the latest first,
and these names and this environment are handed on. The environment has the frames of some module;
a source that is not read leaves it alone, and a run hands on its environment also when it ends with
a fault. -/
inductive Session : List Module → Names → Environment → Prop
  | start {source : String} {names names' : Names} {m : Module} :
    Module.parse source names = (.ok m, names') → Session [] names (.ofScopes m.scopes)
  | refused {earlier : List Module} {names names' : Names} {env : Environment} {source : String}
      {error : ParseError} :
    Session earlier names env → Module.parse source names = (.error error, names') →
    Session earlier names' env
  | run {earlier : List Module} {names names' : Names} {env : Environment} {source : String}
      {m : Module} {maxDepth fuel : Nat} {input : Input} {r : Except Fault Unit} {s : State} :
    Session earlier names env → Module.parse source names = (.ok m, names') →
    Machine.run ⟨names', m, maxDepth⟩ fuel ⟨env, input, ""⟩ = ended r s →
    Session (m :: earlier) names' s.env

/-- The name is a parameter of the function with number `k` of one of the modules. -/
def IsParam (modules : List Module) (k : Nat) (name : Name) : Prop :=
  ∃ m ∈ modules, ∃ f, m.functions.get? ⟨k⟩ = some f ∧ name ∈ f.params

theorem Environment.BindsOnly.mono {env : Environment} {allowed allowed' : Nat → Name → Prop}
    (h : env.BindsOnly allowed) (hi : ∀ k name, allowed k name → allowed' k name) :
    env.BindsOnly allowed' :=
  fun k name value hv => hi k name (h k name value hv)

theorem Machine.finalState_ended {r : Except Fault Unit} {s : State} :
    finalState (ended r s) = s := by
  cases r <;> rfl

namespace Session

variable {earlier : List Module} {names names' : Names} {env : Environment}

/-- What no run of a module breaks is kept by a session. -/
theorem run_keeps {m : Module} {source : String} {maxDepth fuel : Nat} {input : Input}
    {r : Except Fault Unit} {s : State} (inv : State → Prop)
    (hp : Module.parse source names = (.ok m, names'))
    (hr : Machine.run ⟨names', m, maxDepth⟩ fuel ⟨env, input, ""⟩ = ended r s)
    (hk : ∀ program, m.Represents program → Machine.Keeps ⟨names', m, maxDepth⟩ inv)
    (hs : inv ⟨env, input, ""⟩) : inv s := by
  obtain ⟨program, rfl, hserves⟩ := Machine.serves_of_parse hp
  have hm := hserves maxDepth
  have hrun := (hk program hm.module).run hm.module hm.implements_run fuel hs
  simp only [hr, Machine.finalState_ended] at hrun
  exact hrun

/-- A frame holds nothing but parameters of the functions that had its number. -/
theorem bindsOnly (h : Session earlier names env) : env.BindsOnly (IsParam earlier) := by
  induction h with
  | start _ => exact Environment.bindsOnly_ofScopes _ _
  | refused _ _ ih => exact ih
  | @run earlier _ names' env _ m maxDepth _ input _ s _ hp hr ih =>
    refine run_keeps (fun s => s.env.BindsOnly (IsParam (m :: earlier))) hp hr
      (fun program hm => Machine.keeps_bindsOnly hm fun id f hf p hx => ?_) ?_
    · exact ⟨m, List.mem_cons_self, f, hf, hx⟩
    · refine ih.mono fun k name => ?_
      rintro ⟨m', hm', hparam⟩
      exact ⟨m', List.mem_cons_of_mem m hm', hparam⟩

/-- All links lead to the root. -/
theorem legacy_eq (h : Session earlier names env) (scope : ScopeId) :
    env.legacy scope = .root := by
  induction h with
  | @start _ _ _ m hp =>
    obtain ⟨program, rfl, hserves⟩ := Machine.serves_of_parse hp
    rw [← (hserves 0).module.legacy_eq scope]
    exact Environment.legacy_ofScopes _ scope
  | refused _ _ ih => exact ih
  | run _ hp hr ih =>
    refine run_keeps (fun s => s.env.legacy scope = .root) hp hr (fun program hm => ?_) ih
    constructor <;> simp [State.store, State.print, State.withInput]

theorem fits (h : Session earlier names env) {m : Module} {program : Program}
    (hm : m.Represents program) (hsize : m.scopes.size ≤ env.size) : env.Fits m := by
  refine ⟨hsize, fun scope _ => ?_⟩
  rw [h.legacy_eq, hm.legacy_eq]

/-- A module that is run in a session, on an environment with enough frames, gives the same answer
as with empty frames, unless one of its functions looks up a name that is not its parameter and was
a parameter of a function of the same number, run before. -/
theorem sameAnswer_of_not_stale (h : Session earlier names env) (source : String) (m : Module)
    (hp : Module.parse source names = (.ok m, names')) (hsize : m.scopes.size ≤ env.size) :
    (env.Stale m → ∃ id f x, m.functions.get? id = some f ∧ m.Reads f.scope x ∧ x ∉ f.params ∧
      IsParam earlier id.index x) ∧
    (¬ env.Stale m → ∀ (maxDepth fuel : Nat) (input : Input),
      SameAnswer (Machine.run ⟨names', m, maxDepth⟩ fuel ⟨env, input, ""⟩)
        (Machine.run ⟨names', m, maxDepth⟩ fuel ⟨env.withoutLocals, input, ""⟩)) := by
  obtain ⟨program, rfl, hserves⟩ := Machine.serves_of_parse hp
  have hm := Module.ofProgram_represents program
  constructor
  · rintro ⟨id, f, x, hf, hread, hx, hlocal⟩
    obtain ⟨v, hv⟩ := Option.isSome_iff_exists.mp hlocal
    rw [hm.scope_eq hf] at hv
    exact ⟨id, f, x, hf, hread, hx, h.bindsOnly id.index x v hv⟩
  · intro hstale maxDepth fuel input
    have hview := State.sameView_withoutLocals hm (h.fits hm hsize) hstale input ""
    have hagree := (State.compares_sameView (hserves maxDepth).module).agree hm
      (hserves maxDepth).implements_run fuel hview
    exact hagree.imp (fun _ _ h => h.surface) fun _ _ h => h.surface

/-! ## A parameter left behind -/

/-- The module of `def f(a) = a; x := f(5)`. -/
def firstModule : Module :=
  .ofProgram [.declare ⟨⟨1⟩, [⟨2⟩], .var ⟨2⟩ ⟨11, 12⟩, ⟨0, 10⟩⟩,
    .command (.assign ⟨3⟩ (.call ⟨0⟩ [.int 5 ⟨21, 22⟩] ⟨19, 23⟩) ⟨14, 23⟩)]

/-- Once it has been run, its frame holds the parameter. -/
theorem session_firstModule : Session [firstModule] ⟨#["", "f", "a", "x"]⟩
    ⟨#[⟨.root, [(⟨3⟩, 5)]⟩, ⟨.root, [(⟨2⟩, 5)]⟩]⟩ := by
  have hp : Module.parse "def f(a) = a; x := f(5)" .initial =
      (.ok firstModule, ⟨#["", "f", "a", "x"]⟩) := by
    decide +kernel
  have hr : Machine.run ⟨⟨#["", "f", "a", "x"]⟩, firstModule, 10⟩ 20
      ⟨.ofScopes firstModule.scopes, default, ""⟩ =
        ended (.ok ()) ⟨⟨#[⟨.root, [(⟨3⟩, 5)]⟩, ⟨.root, [(⟨2⟩, 5)]⟩]⟩, default, ""⟩ := by
    cbv
  exact (Session.start hp).run hp hr

/-- A later function that looks up the global variable `x` and its own parameter is not disturbed
by it. -/
theorem sameAnswer_of_not_stale_global : ∃ (m : Module) (names : Names),
    Module.parse "def g(b) = x + b; escreva g(1)" ⟨#["", "f", "a", "x"]⟩ = (.ok m, names) ∧
    ∀ (fuel : Nat) (input : Input),
      SameAnswer
        (Machine.run ⟨names, m, 10⟩ fuel
          ⟨⟨#[⟨.root, [(⟨3⟩, 5)]⟩, ⟨.root, [(⟨2⟩, 5)]⟩]⟩, input, ""⟩)
        (Machine.run ⟨names, m, 10⟩ fuel ⟨⟨#[⟨.root, [(⟨3⟩, 5)]⟩, ⟨.root, []⟩]⟩, input, ""⟩) := by
  have hp : Module.parse "def g(b) = x + b; escreva g(1)" ⟨#["", "f", "a", "x"]⟩ =
      (.ok (.ofProgram [.declare ⟨⟨4⟩, [⟨5⟩], .arith .add (.var ⟨3⟩ ⟨11, 12⟩) (.var ⟨5⟩ ⟨15, 16⟩)
          ⟨11, 16⟩, ⟨0, 10⟩⟩,
        .command (.printInt (.call ⟨0⟩ [.int 1 ⟨28, 29⟩] ⟨26, 30⟩) ⟨18, 30⟩)]),
        ⟨#["", "f", "a", "x", "g", "b"]⟩) := by
    decide +kernel
  refine ⟨_, _, hp, fun fuel input => ?_⟩
  refine (session_firstModule.sameAnswer_of_not_stale _ _ hp (by decide +kernel)).2 ?_ 10 fuel input
  rintro ⟨⟨_ | k⟩, f, y, hf, ⟨⟨i⟩, span, hi⟩, hy, hlocal⟩
  · cases hf
    match i with
    | 0 | 1 =>
      cases hi
      revert hlocal hy
      decide +kernel
    | 2 | 3 | 4 => cases hi
    | i + 5 => cases hi
  · cases hf

/-- A later function that looks up the global variable `a`, which was never stored, finds what is
left of a parameter of an earlier one: it prints 6, and with empty frames 1. -/
theorem stale_shows : ∃ (earlier : List Module) (names names' : Names) (env : Environment)
    (m : Module), Session earlier names env ∧
    Module.parse "def g(b) = a + b; escreva g(1)" names = (.ok m, names') ∧
    m.scopes.size ≤ env.size ∧
    (Machine.finalState (Machine.run ⟨names', m, 10⟩ 20 ⟨env, default, ""⟩)).output = "6\n" ∧
    (Machine.finalState
      (Machine.run ⟨names', m, 10⟩ 20 ⟨env.withoutLocals, default, ""⟩)).output = "1\n" := by
  have hp : Module.parse "def g(b) = a + b; escreva g(1)" ⟨#["", "f", "a", "x"]⟩ =
      (.ok (.ofProgram [.declare ⟨⟨4⟩, [⟨5⟩], .arith .add (.var ⟨2⟩ ⟨11, 12⟩) (.var ⟨5⟩ ⟨15, 16⟩)
          ⟨11, 16⟩, ⟨0, 10⟩⟩,
        .command (.printInt (.call ⟨0⟩ [.int 1 ⟨28, 29⟩] ⟨26, 30⟩) ⟨18, 30⟩)]),
        ⟨#["", "f", "a", "x", "g", "b"]⟩) := by
    decide +kernel
  exact ⟨_, _, _, _, _, session_firstModule, hp, by decide +kernel, by cbv, by cbv⟩

end Session

end Enquanto

import Enquanto.Interpret
import Enquanto.Proofs.Adequacy
import Enquanto.Proofs.Frames

/-!
# Calls are isolated

The frame of a function is shared by all calls and never cleared. Within one module this cannot be
observed: a call stores every parameter before the body is evaluated, and a frame holds nothing but
parameters. So what earlier calls left behind makes no difference to a run.

* `State.SameView`: two states differ at most in what no body looks up before it is stored;
* `State.compares_sameView`: a machine sees no such difference;
* `Module.parse_isolates`: the same from the text of a source on.
-/

namespace Enquanto

open Run

namespace State

/-- Two states look the same from outside: the root frame, the input left and the output. -/
structure SameSurface (s t : State) : Prop where
  root : s.env.root? = t.env.root?
  input : s.input = t.input
  output : s.output = t.output

/-- Two states that look the same also hold the same in the frames of functions, but for parameters
that are not bound yet and for names that the function never looks up. -/
structure SameView (m : Module) (bound : Set (ScopeId × Name)) (s t : State) : Prop where
  surface : SameSurface s t
  left : s.env.Fits m
  right : t.env.Fits m
  locals : ∀ id f x, m.functions.get? id = some f → (x ∈ f.params → (f.scope, x) ∈ bound) →
    (x ∈ f.params ∨ m.Reads f.scope x) →
    s.env.getLocal? f.scope x = t.env.getLocal? f.scope x

namespace SameView

variable {m : Module} {program : Program} {bound : Set (ScopeId × Name)} {s t : State}

theorem lookup_root (h : SameView m bound s t) (hm : m.Represents program) (x : Name) :
    s.env.lookup .root x = t.env.lookup .root x := by
  rw [Environment.lookup_root (h.left.legacy_root hm) (h.left.pos hm),
    Environment.lookup_root (h.right.legacy_root hm) (h.right.pos hm), h.surface.root]

theorem lookup_local (h : SameView m bound s t) (hm : m.Represents program) {id : FunctionId}
    {f : Function} {x : Name} (hf : m.functions.get? id = some f)
    (hp : boundBy f.scope f.params ⊆ bound) (hx : m.Reads f.scope x) :
    s.env.lookup f.scope x = t.env.lookup f.scope x := by
  have hlocal := h.locals id f x hf (fun hx => hp ⟨rfl, hx⟩) (.inr hx)
  rw [h.left.lookup_function hm hf, h.right.lookup_function hm hf, hlocal, h.lookup_root hm]

theorem store_root (h : SameView m bound s t) (hm : m.Represents program) (x : Name) (v : Int32) :
    SameView m bound (s.store .root x v) (t.store .root x v) where
  surface := by
    refine ⟨?_, h.surface.input, h.surface.output⟩
    simp only [State.store, Environment.root?_store_root, h.surface.root]
  left := h.left.store .root x v
  right := h.right.store .root x v
  locals := by
    intro id f y hf hb hy
    have hroot (env : Environment) : ¬ (f.scope = env.clamp .root ∧ y = x) := by
      rintro ⟨hs, -⟩
      refine hm.scope_ne_root hf (hs.trans ?_)
      unfold Environment.clamp
      split <;> rfl
    simp only [State.store]
    rw [Environment.getLocal?_store_of_ne (hroot _), Environment.getLocal?_store_of_ne (hroot _)]
    exact h.locals id f y hf hb hy

theorem store_param (h : SameView m bound s t) (hm : m.Represents program) {id : FunctionId}
    {f : Function} {p : Name} (hf : m.functions.get? id = some f) (v : Int32) :
    SameView m (insert (f.scope, p) bound) (s.store f.scope p v) (t.store f.scope p v) := by
  have hs : f.scope.index < s.env.size := h.left.scope_lt hm hf
  have ht : f.scope.index < t.env.size := h.right.scope_lt hm hf
  have hne := hm.scope_ne_root hf
  refine ⟨⟨?_, h.surface.input, h.surface.output⟩, h.left.store f.scope p v,
    h.right.store f.scope p v, fun id' f' x hf' hb hx => ?_⟩
  · simp only [State.store]
    rw [Environment.root?_store_of_ne hs hne, Environment.root?_store_of_ne ht hne,
      h.surface.root]
  · simp only [State.store]
    by_cases hq : f'.scope = f.scope ∧ x = p
    · obtain ⟨hscope, rfl⟩ := hq
      rw [hscope, Environment.getLocal?_store_self hs, Environment.getLocal?_store_self ht]
    · rw [Environment.getLocal?_store_of_ne (by rwa [Environment.clamp_of_lt hs]),
        Environment.getLocal?_store_of_ne (by rwa [Environment.clamp_of_lt ht])]
      refine h.locals id' f' x hf' (fun hx => ?_) hx
      refine (hb hx).resolve_left fun e => hq ?_
      exact Prod.ext_iff.mp e

end SameView

/-- A machine does not tell states apart that are the same in what it can look up. -/
theorem compares_sameView {m : Machine} {program : Program}
    (hm : m.module.Represents program) : m.Compares (SameView m.module) where
  anti := by
    intro bound bound' s t hb h
    exact ⟨h.surface, h.left, h.right, fun id f x hf hx => h.locals id f x hf fun hp => hb (hx hp)⟩
  lookup_root := fun x h => h.lookup_root hm x
  lookup_local := by
    intro bound s t id f i x span hf hp hi h
    exact h.lookup_local hm hf hp ⟨i, span, hi⟩
  store_root := fun x v h => h.store_root hm x v
  store_param := fun v hf _ h => h.store_param hm hf v
  print := by
    intro bound s t line h
    refine ⟨⟨h.surface.root, h.surface.input, ?_⟩, h.left, h.right, h.locals⟩
    simp only [State.print, h.surface.output]
  input_eq := fun h => h.surface.input
  read := by
    intro bound s t input h
    exact ⟨⟨h.surface.root, rfl, h.surface.output⟩, h.left, h.right, h.locals⟩

/-- Where each frame holds own parameters only, states that look the same are the same in what can
be looked up. -/
theorem SameSurface.sameView {m : Module} {s t : State} (h : SameSurface s t)
    (hs : s.env.Fits m) (ht : t.env.Fits m) (hs' : s.env.BindsOwn m) (ht' : t.env.BindsOwn m) :
    SameView m ∅ s t := by
  refine ⟨h, hs, ht, fun id f x hf hb _ => ?_⟩
  have hx : x ∉ f.params := fun hp => Set.notMem_empty _ (hb hp)
  have hnone (env : Environment) (ho : env.BindsOwn m) : env.getLocal? f.scope x = none := by
    rw [Option.eq_none_iff_forall_ne_some]
    exact fun v hv => hx (ho id f hf x v hv)
  rw [hnone s.env hs', hnone t.env ht']

end State

/-- Two runs give the same answer: both come to their end or stop for the same reason, in states
that look the same from outside. -/
def Run.SameAnswer {α : Type} : EStateM.Result Halt State α → EStateM.Result Halt State α → Prop :=
  Agree State.SameSurface State.SameSurface

/-! ## Parts of a program -/

namespace Arena

variable {a : Arena} {scope : ScopeId}

theorem HoldsCommands.of_mem {id : CommandId} : ∀ {cs : List Command} {ids : List CommandId},
    a.HoldsCommands scope cs ids → id ∈ ids → ∃ c, a.HoldsCommand scope c id
  | [], [], _, hid => nomatch hid
  | c :: _, _ :: _, ⟨h, hs⟩, hid => by
    rcases List.mem_cons.mp hid with rfl | hid
    · exact ⟨c, h⟩
    · exact hs.of_mem hid

theorem HoldsCommands.of_suffix {rest : List CommandId} : ∀ {cs : List Command}
    {ids : List CommandId}, a.HoldsCommands scope cs ids → rest <:+ ids →
    ∃ cs', a.HoldsCommands scope cs' rest
  | [], [], h, hr => by
    rw [List.suffix_nil.mp hr]
    exact ⟨[], h⟩
  | c :: cs, id :: ids, h, hr => by
    rcases List.suffix_cons_iff.mp hr with rfl | hr
    · exact ⟨c :: cs, h⟩
    · exact h.2.of_suffix hr

end Arena

namespace Machine

/-- What runs at the top of a program: one of its commands, or the rest of it from some command
on. -/
inductive TopRun (m : Machine) : (Nat → Run Unit) → Prop
  | command {id : CommandId} : id ∈ m.module.commands → TopRun m fun fuel => m.exec fuel id
  | rest {ids : List CommandId} : ids <:+ m.module.commands →
    TopRun m fun fuel => m.execAll fuel ids

theorem TopRun.implements {m : Machine} {run : Nat → Run Unit} (h : m.TopRun run)
    {program : Program} (hm : m.module.Represents program) :
    ∃ work, m.Implements .root work run := by
  cases h with
  | command hid =>
    obtain ⟨c, hc⟩ := hm.commands.of_mem hid
    exact ⟨_, .command hc⟩
  | rest hids =>
    obtain ⟨cs, hcs⟩ := hm.commands.of_suffix hids
    exact ⟨_, .sequence hcs⟩

end Machine

/-- What calls left in the frames of functions cannot be observed by a source that was read. In
environments with its frames that hold no names but the parameters of each function, and look the
same from outside, a command and the rest of the program give the same answer. A fresh environment
is such a one, and runs lead to no other. -/
theorem Module.parse_isolates (source : String) (names names' : Names) (m : Module)
    (h : Module.parse source names = (.ok m, names')) (maxDepth : Nat) :
    let machine : Machine := ⟨names', m, maxDepth⟩
    (∀ run, machine.TopRun run → ∀ s t : State,
      s.env.Fits m → t.env.Fits m → s.env.BindsOwn m → t.env.BindsOwn m → s.SameSurface t →
      ∀ fuel, Run.SameAnswer (run fuel s) (run fuel t)) ∧
    (∀ input, (Machine.start m input).env.Fits m ∧ (Machine.start m input).env.BindsOwn m) ∧
    ∀ run, machine.TopRun run → ∀ s : State, s.env.Fits m → s.env.BindsOwn m →
      ∀ fuel, (Machine.finalState (run fuel s)).env.Fits m ∧
        (Machine.finalState (run fuel s)).env.BindsOwn m := by
  obtain ⟨program, rfl, -⟩ := Machine.serves_of_parse h
  have hm := Module.ofProgram_represents program
  intro machine
  refine ⟨?_, ?_, ?_⟩
  · intro run hrun s t hs ht hs' ht' hst fuel
    obtain ⟨work, hi⟩ := hrun.implements hm
    have hagree := (State.compares_sameView (m := machine) hm).agree hm hi fuel
      (hst.sameView hs ht hs' ht')
    exact hagree.imp (fun _ _ h => h.surface) fun _ _ h => h.surface
  · intro input
    exact ⟨Environment.fits_ofScopes _,
      (Environment.bindsOwn_iff hm).mpr (Environment.bindsOnly_ofScopes _ _)⟩
  · intro run hrun s hs hs' fuel
    obtain ⟨work, hi⟩ := hrun.implements hm
    exact ⟨(Machine.keeps_fits machine _).run hm hi fuel hs,
      (Machine.keeps_bindsOwn (m := machine) hm).run hm hi fuel hs'⟩

/-- A parameter that an earlier call left behind does not show, though the environments differ. -/
theorem Module.parse_isolates_stale : ∃ (m : Module) (names : Names),
    Module.parse "def f(a) = a + b; escreva f(5)" .initial = (.ok m, names) ∧
    ∀ (input : Input) (fuel : Nat), let s := Machine.start m input
      let t := s.store ⟨1⟩ ⟨2⟩ 9
      s.env.getLocal? ⟨1⟩ ⟨2⟩ = none ∧ t.env.getLocal? ⟨1⟩ ⟨2⟩ = some 9 ∧
      Run.SameAnswer (Machine.run ⟨names, m, 10⟩ fuel s) (Machine.run ⟨names, m, 10⟩ fuel t) := by
  have h : Module.parse "def f(a) = a + b; escreva f(5)" .initial =
      (.ok (.ofProgram [.declare ⟨⟨1⟩, [⟨2⟩], .arith .add (.var ⟨2⟩ ⟨11, 12⟩) (.var ⟨3⟩ ⟨15, 16⟩)
          ⟨11, 16⟩, ⟨0, 10⟩⟩,
        .command (.printInt (.call ⟨0⟩ [.int 5 ⟨28, 29⟩] ⟨26, 30⟩) ⟨18, 30⟩)]),
        ⟨#["", "f", "a", "b"]⟩) := by
    decide +kernel
  refine ⟨_, _, h, fun input fuel => ?_⟩
  obtain ⟨hsame, hstart, -⟩ := Module.parse_isolates _ _ _ _ h 10
  obtain ⟨hfits, hown⟩ := hstart input
  intro s t
  have hsize : 1 < s.env.size := Nat.lt_of_lt_of_le (by decide +kernel) hfits.size
  have hroot : t.env.root? = s.env.root? := Environment.root?_store_of_ne hsize (by decide)
  refine ⟨Environment.getLocal?_ofScopes _ _ _, Environment.getLocal?_store_self hsize,
    hsame _ (.rest (List.suffix_refl _)) s t hfits (hfits.store _ _ _) hown ?_
      ⟨hroot.symm, rfl, rfl⟩ fuel⟩
  rw [Environment.bindsOwn_iff (Module.ofProgram_represents _)] at hown ⊢
  refine hown.store_function ⟨0⟩ 9 fun f hf => ?_
  cases hf
  decide

end Enquanto

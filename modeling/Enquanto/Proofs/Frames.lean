import Enquanto.Proofs.PairedRuns

/-!
# The frames of a module

In an environment for a module, the root frame is its own legacy and that of every function. So a
variable of a body is looked up in two frames: that of its function, and the root.

* `Environment.Fits`: an environment has the frames of a module, with their links;
* `Environment.lookup_function`: what a body sees;
* `Environment.BindsOnly` and `Environment.BindsOwn`: which names the frames of functions hold;
* `Machine.Keeps.run`: a property that no store breaks is one of whole runs, so the frames of
  functions hold parameters only: `Machine.keeps_bindsOnly` and `Machine.keeps_bindsOwn`.
-/

namespace Enquanto

namespace Environment

variable {env : Environment} {scope other : ScopeId} {name key : Name} {value : Int32}

/-- The frame of the global variables. -/
def root? (env : Environment) : Option Frame := env.frames[0]?

theorem getLocal?_root : env.getLocal? .root name = env.root?.bind (·.get? name) := rfl

theorem clamp_of_lt (h : scope.index < env.size) : env.clamp scope = scope := if_pos h

theorem getLocal?_eq_none (h : ¬ scope.index < env.size) : env.getLocal? scope name = none := by
  unfold getLocal?
  rw [Array.getElem?_eq_none (Nat.le_of_not_lt h)]
  rfl

theorem getLocal?_store_self (h : scope.index < env.size) :
    (env.store scope name value).getLocal? scope name = some value := by
  rw [getLocal?_store env scope scope name name value h, clamp_of_lt h]
  simp

theorem getLocal?_store_of_ne (h : ¬ (other = env.clamp scope ∧ key = name)) :
    (env.store scope name value).getLocal? other key = env.getLocal? other key := by
  by_cases ho : other.index < env.size
  · rw [getLocal?_store env scope other name key value ho, if_neg h]
  · rw [getLocal?_eq_none ho, getLocal?_eq_none (by simpa using ho)]

@[simp] theorem legacy_store : (env.store scope name value).legacy other = env.legacy other := by
  unfold legacy store
  rw [Array.getElem?_modify]
  by_cases h : (env.clamp scope).index = other.index
  · rw [if_pos h]
    cases env.frames[other.index]? <;> rfl
  · rw [if_neg h]

theorem root?_store_root :
    (env.store .root name value).root? = env.root?.map (·.set name value) := by
  have hc : (env.clamp .root).index = 0 := by
    unfold clamp
    split <;> rfl
  simp [root?, store, Array.getElem?_modify, hc]

theorem root?_store_of_ne (h : scope.index < env.size) (hne : scope ≠ .root) :
    (env.store scope name value).root? = env.root? := by
  have hi : scope.index ≠ 0 := fun e => hne (congrArg TableId.mk e)
  simp [root?, store, clamp_of_lt h, Array.getElem?_modify, hi]

/-! ## What is seen of two frames -/

theorem lookupFrom_succ {steps : Nat} : env.lookupFrom name (steps + 1) scope =
    match env.getLocal? scope name with
    | some value => value
    | none => if env.legacy scope = scope then 0 else
      if scope.index < env.size then env.lookupFrom name steps (env.legacy scope) else 0 := by
  unfold getLocal? legacy
  rw [lookupFrom]
  by_cases h : scope.index < env.size
  · rw [Array.getElem?_eq_getElem h, if_pos h]
    cases hx : (env.frames[scope.index]).get? name <;> simp [hx]
  · simp [Array.getElem?_eq_none (Nat.le_of_not_lt h), h]

/-- At the root, a variable that is not stored reads as 0. -/
theorem lookup_root (h : env.legacy .root = .root) (hs : 0 < env.size) :
    env.lookup .root name = (env.root?.bind (·.get? name)).getD 0 := by
  obtain ⟨n, hn⟩ : ∃ n, env.frames.size = n + 1 :=
    ⟨env.frames.size - 1, by unfold size at hs; omega⟩
  rw [lookup, clamp_of_lt (show ScopeId.root.index < env.size from hs), hn, lookupFrom_succ,
    getLocal?_root, if_pos h]
  cases env.root?.bind (·.get? name) <;> rfl

/-- Below the root, a variable that is not stored reads as at the root. -/
theorem lookup_function (h : env.legacy .root = .root) (hl : env.legacy scope = .root)
    (hs : scope.index < env.size) (hne : scope ≠ .root) :
    env.lookup scope name = (env.getLocal? scope name).getD (env.lookup .root name) := by
  have hi : scope.index ≠ 0 := fun e => hne (congrArg TableId.mk e)
  obtain ⟨n, hn⟩ : ∃ n, env.frames.size = n + 2 :=
    ⟨env.frames.size - 2, by unfold size at hs; omega⟩
  rw [lookup, clamp_of_lt hs, hn, lookupFrom_succ, hl, if_neg (Ne.symm hne), if_pos hs]
  cases env.getLocal? scope name with
  | some value => rfl
  | none =>
    rw [lookup_root h (Nat.zero_lt_of_lt hs), lookupFrom_succ, getLocal?_root, if_pos h]
    cases env.root?.bind (·.get? name) <;> rfl

end Environment

/-! ## Environments for a module -/

namespace Module

variable {m : Module} {program : Program}

theorem Represents.scopes_size (h : m.Represents program) :
    m.scopes.size = m.functions.size + 1 := by
  rw [h.functions_size, Scopes.size, ← Array.length_toList, h.scopes, List.length_replicate]

theorem Represents.legacy_eq (h : m.Represents program) (scope : ScopeId) :
    m.scopes.legacy scope = .root := by
  unfold Scopes.legacy
  rw [Array.getD_eq_getD_getElem?, ← Array.getElem?_toList, h.scopes, List.getElem?_replicate]
  split <;> rfl

theorem Represents.scope_eq (h : m.Represents program) {id : FunctionId} {f : Function}
    (hf : m.functions.get? id = some f) : f.scope = id.scope := by
  have hi : id.index < m.functions.size := (Array.getElem?_eq_some_iff.mp hf).1
  rw [h.functions_size] at hi
  obtain ⟨body, hf', -⟩ := h.function (List.getElem?_eq_getElem hi)
  cases hf.symm.trans hf'
  rfl

theorem Represents.scope_lt (h : m.Represents program) {id : FunctionId} {f : Function}
    (hf : m.functions.get? id = some f) : f.scope.index < m.scopes.size := by
  have hi : id.index < m.functions.size := (Array.getElem?_eq_some_iff.mp hf).1
  rw [h.scope_eq hf, h.scopes_size]
  exact Nat.succ_lt_succ hi

theorem Represents.scope_ne_root (h : m.Represents program) {id : FunctionId} {f : Function}
    (hf : m.functions.get? id = some f) : f.scope ≠ .root := by
  rw [h.scope_eq hf]
  exact fun e => Nat.succ_ne_zero id.index (congrArg TableId.index e)

/-- A variable of that name is looked up in the scope. -/
def Reads (m : Module) (scope : ScopeId) (name : Name) : Prop :=
  ∃ id span, m.arena.expr? id = some ⟨.var name scope, span⟩

end Module

namespace Environment

/-- There is a frame for every scope of the module, with the same legacy. -/
structure Fits (env : Environment) (m : Module) : Prop where
  size : m.scopes.size ≤ env.size
  legacy : ∀ scope : ScopeId, scope.index < m.scopes.size →
    env.legacy scope = m.scopes.legacy scope

section
variable {env : Environment} {m : Module} {program : Program}

theorem Fits.store (h : env.Fits m) (scope : ScopeId) (name : Name) (value : Int32) :
    (env.store scope name value).Fits m where
  size := by
    rw [size_store]
    exact h.size
  legacy := by
    intro other ho
    rw [legacy_store]
    exact h.legacy other ho

/-- A fresh environment has the links of the scopes. -/
theorem legacy_ofScopes (scopes : Scopes) (scope : ScopeId) :
    (ofScopes scopes).legacy scope = scopes.legacy scope := by
  unfold Environment.legacy Scopes.legacy ofScopes
  rw [Array.getD_eq_getD_getElem?, Array.getElem?_map]
  cases scopes.links[scope.index]? <;> rfl

theorem fits_ofScopes (m : Module) : (ofScopes m.scopes).Fits m where
  size := by simp [ofScopes, Environment.size, Scopes.size]
  legacy := fun scope _ => legacy_ofScopes m.scopes scope

theorem Fits.pos (h : env.Fits m) (hm : m.Represents program) : 0 < env.size := by
  have := h.size
  rw [hm.scopes_size] at this
  omega

theorem Fits.legacy_root (h : env.Fits m) (hm : m.Represents program) :
    env.legacy .root = .root := by
  have hs : ScopeId.root.index < m.scopes.size := by
    rw [hm.scopes_size]
    exact Nat.succ_pos _
  rw [h.legacy .root hs, hm.legacy_eq]

theorem Fits.scope_lt (h : env.Fits m) (hm : m.Represents program) {id : FunctionId}
    {f : Function} (hf : m.functions.get? id = some f) : f.scope.index < env.size :=
  Nat.lt_of_lt_of_le (hm.scope_lt hf) h.size

theorem Fits.lookup_function (h : env.Fits m) (hm : m.Represents program) {id : FunctionId}
    {f : Function} (hf : m.functions.get? id = some f) (name : Name) :
    env.lookup f.scope name = (env.getLocal? f.scope name).getD (env.lookup .root name) := by
  have hl : env.legacy f.scope = .root := by rw [h.legacy _ (hm.scope_lt hf), hm.legacy_eq]
  exact Environment.lookup_function (h.legacy_root hm) hl (h.scope_lt hm hf) (hm.scope_ne_root hf)

end

/-- The frame of the function with number `k` holds names with `allowed k` only. -/
def BindsOnly (env : Environment) (allowed : Nat → Name → Prop) : Prop :=
  ∀ k name value, env.getLocal? ⟨k + 1⟩ name = some value → allowed k name

/-- The frame of each function of the module holds names of its own parameters only. -/
def BindsOwn (env : Environment) (m : Module) : Prop :=
  ∀ id f, m.functions.get? id = some f → ∀ name value,
    env.getLocal? f.scope name = some value → name ∈ f.params

theorem bindsOwn_iff {env : Environment} {m : Module} {program : Program}
    (hm : m.Represents program) : env.BindsOwn m ↔
      env.BindsOnly fun k name => ∀ f, m.functions.get? ⟨k⟩ = some f → name ∈ f.params := by
  constructor
  · intro h k name value hv f hf
    refine h ⟨k⟩ f hf name value ?_
    rwa [hm.scope_eq hf]
  · intro h id f hf name value hv
    rw [hm.scope_eq hf] at hv
    exact h id.index name value hv f hf

/-- Fresh frames are empty. -/
@[simp] theorem getLocal?_ofScopes (scopes : Scopes) (scope : ScopeId) (name : Name) :
    (ofScopes scopes).getLocal? scope name = none := by
  unfold getLocal? ofScopes
  rw [Array.getElem?_map]
  cases scopes.links[scope.index]? <;> rfl

theorem bindsOnly_ofScopes (scopes : Scopes) (allowed : Nat → Name → Prop) :
    (ofScopes scopes).BindsOnly allowed := by
  intro k name value h
  rw [getLocal?_ofScopes] at h
  cases h

section
variable {env : Environment} {allowed : Nat → Name → Prop}

theorem BindsOnly.store (h : env.BindsOnly allowed) {scope : ScopeId} {name : Name}
    {value : Int32} (hs : ∀ k, env.clamp scope = ⟨k + 1⟩ → allowed k name) :
    (env.store scope name value).BindsOnly allowed := by
  intro k key v hv
  by_cases hc : (⟨k + 1⟩ : ScopeId) = env.clamp scope ∧ key = name
  · obtain ⟨hk, rfl⟩ := hc
    exact hs k hk.symm
  · rw [getLocal?_store_of_ne hc] at hv
    exact h k key v hv

theorem BindsOnly.store_root (h : env.BindsOnly allowed) (name : Name) (value : Int32) :
    (env.store .root name value).BindsOnly allowed := by
  refine h.store fun k hk => ?_
  unfold clamp at hk
  split at hk <;> cases hk

theorem BindsOnly.store_function (h : env.BindsOnly allowed) (id : FunctionId) {name : Name}
    (value : Int32) (ha : allowed id.index name) :
    (env.store id.scope name value).BindsOnly allowed := by
  refine h.store fun k hk => ?_
  unfold clamp at hk
  split at hk
  · cases hk
    exact ha
  · cases hk

end

end Environment

/-! ## Invariants of runs -/

namespace Machine

open Run

/-- No store of a global variable or of a parameter, and neither printing nor reading, breaks the
property. -/
structure Keeps (m : Machine) (inv : State → Prop) : Prop where
  store_root : ∀ {s} (x : Name) (v : Int32), inv s → inv (s.store .root x v)
  store_param : ∀ {s id f p} (v : Int32), m.module.functions.get? id = some f → p ∈ f.params →
    inv s → inv (s.store f.scope p v)
  print : ∀ {s} (line : String), inv s → inv (s.print line)
  read : ∀ {s} (input : Input), inv s → inv (s.withInput input)

variable {m : Machine} {inv : State → Prop}

/-- An invariant compares each run with itself. -/
theorem Keeps.compares (h : m.Keeps inv) : m.Compares fun _ s t => s = t ∧ inv s where
  anti := fun _ hr => hr
  lookup_root := by
    rintro _ _ _ x ⟨rfl, -⟩
    rfl
  lookup_local := by
    rintro _ _ _ _ _ _ _ _ _ _ _ ⟨rfl, -⟩
    rfl
  store_root := by
    rintro _ _ _ x v ⟨rfl, hs⟩
    exact ⟨rfl, h.store_root x v hs⟩
  store_param := by
    rintro _ _ _ _ _ _ v hf hp ⟨rfl, hs⟩
    exact ⟨rfl, h.store_param v hf hp hs⟩
  print := by
    rintro _ _ _ line ⟨rfl, hs⟩
    exact ⟨rfl, h.print line hs⟩
  input_eq := by
    rintro _ _ _ ⟨rfl, -⟩
    rfl
  read := by
    rintro _ _ _ input ⟨rfl, hs⟩
    exact ⟨rfl, h.read input hs⟩

/-- The state in which a run ended, whether it came to its end or not. -/
def finalState {α : Type} : EStateM.Result Halt State α → State
  | .ok _ s | .error _ s => s

/-- However the run of work at the top of a program ends, it keeps what no step breaks. -/
theorem Keeps.run (h : m.Keeps inv) {program : Program} (hm : m.module.Represents program)
    {work : Work} {run : Nat → Run Unit} (hi : m.Implements .root work run) (fuel : Nat)
    {s : State} (hs : inv s) : inv (finalState (run fuel s)) := by
  have hagree := h.compares.agree hm hi fuel ⟨rfl, hs⟩
  generalize run fuel s = x at hagree
  cases hagree with
  | ok h => exact h.2.2
  | error h => exact h.2

theorem keeps_fits (m : Machine) (m' : Module) : m.Keeps (·.env.Fits m') where
  store_root := fun x v hs => hs.store .root x v
  store_param := fun v _ _ hs => hs.store _ _ v
  print := fun _ hs => hs
  read := fun _ hs => hs

/-- Frames of functions hold parameters only. -/
theorem keeps_bindsOnly {program : Program} (hm : m.module.Represents program)
    {allowed : Nat → Name → Prop}
    (ha : ∀ id f, m.module.functions.get? id = some f → ∀ p ∈ f.params, allowed id.index p) :
    m.Keeps (·.env.BindsOnly allowed) where
  store_root := fun x v hs => hs.store_root x v
  store_param := by
    intro s id f p v hf hp hs
    rw [hm.scope_eq hf]
    exact hs.store_function id v (ha id f hf p hp)
  print := fun _ hs => hs
  read := fun _ hs => hs

theorem keeps_bindsOwn {program : Program} (hm : m.module.Represents program) :
    m.Keeps (·.env.BindsOwn m.module) := by
  simp only [Environment.bindsOwn_iff hm]
  refine keeps_bindsOnly hm fun id f hf p hp f' hf' => ?_
  cases hf.symm.trans hf'
  exact hp

end Machine

end Enquanto

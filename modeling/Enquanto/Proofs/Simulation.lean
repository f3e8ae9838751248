import Enquanto.Interpret
import Enquanto.Proofs.Congruence
import Enquanto.Proofs.Frames

/-!
# States that correspond

Two machines whose programs are translations of each other do the same from states that correspond:
they end alike in states that correspond again, and a fault of the one is a fault of the other, with
the same cause, at a place that is its translation.

* `State.Simulates`: what a relation of states needs for that;
* `Run.Similar` and `Run.congruence_similar`: runs do the same from related states;
* `Environment.Translates` and `State.Translates`: environments whose frames hold the same values
  under names that correspond, and the relation of states that they give.
-/

namespace Enquanto

open Run

variable {τ : Translation}

/-! ## Outcomes -/

/-- The same reason to stop; the places of faults are translations of each other. -/
inductive Halt.Translates (τ : Translation) : Halt → Halt → Prop
  | fault {cause : Fault.Cause} {s s' : Option Span} : Option.Rel τ.span s s' →
    Translates τ (.fault ⟨cause, s⟩) (.fault ⟨cause, s'⟩)
  | dangling : Translates τ .dangling .dangling
  | outOfFuel : Translates τ .outOfFuel .outOfFuel

namespace Run

variable {α β : Type} {rel : State → State → Prop}

/-- The same value, or reasons to stop that are translations of each other, in related states. -/
inductive Outcomes (τ : Translation) (rel : State → State → Prop) :
    EStateM.Result Halt State α → EStateM.Result Halt State α → Prop
  | ok {a : α} {s t : State} : rel s t → Outcomes τ rel (.ok a s) (.ok a t)
  | error {halt halt' : Halt} {s t : State} : halt.Translates τ halt' → rel s t →
    Outcomes τ rel (.error halt s) (.error halt' t)

theorem Outcomes.imp {σ : Translation} {rel' : State → State → Prop}
    {x y : EStateM.Result Halt State α} (h : Outcomes τ rel x y)
    (hspan : ∀ {s s'}, τ.span s s' → σ.span s s') (hrel : ∀ s t, rel s t → rel' s t) :
    Outcomes σ rel' x y := by
  cases h with
  | ok hst => exact .ok (hrel _ _ hst)
  | error hhalt hst =>
    refine .error ?_ (hrel _ _ hst)
    cases hhalt with
    | fault hs =>
      cases hs with
      | none => exact .fault .none
      | some hs => exact .fault (.some (hspan hs))
    | dangling => exact .dangling
    | outOfFuel => exact .outOfFuel

/-- From related states, the runs have the same outcome. -/
def Similar (τ : Translation) (rel : State → State → Prop) (run run' : Run α) : Prop :=
  ∀ s t, rel s t → Outcomes τ rel (run s) (run' t)

end Run

/-- No step tells related states apart, and none breaks the relation. -/
structure State.Simulates (τ : Translation) (rel : State → State → Prop) : Prop where
  lookup : ∀ {s t scope scope' x x'}, rel s t → τ.Scope scope scope' → τ.name x x' →
    s.env.lookup scope x = t.env.lookup scope' x'
  store : ∀ {s t scope scope' x x'} (value : Int32), rel s t → τ.Scope scope scope' →
    τ.name x x' → rel (s.store scope x value) (t.store scope' x' value)
  print : ∀ {s t} (line : String), rel s t → rel (s.print line) (t.print line)
  input_eq : ∀ {s t}, rel s t → s.input = t.input
  read : ∀ {s t} (input : Input), rel s t → rel (s.withInput input) (t.withInput input)

namespace Run

variable {α β : Type} {rel : State → State → Prop}

namespace Similar

theorem bind {run run' : Run α} {next next' : α → Run β} (h : Similar τ rel run run')
    (hn : ∀ a, Similar τ rel (next a) (next' a)) :
    Similar τ rel (run >>= next) (run' >>= next') := by
  intro s t hst
  have hout := h s t hst
  generalize hx : run s = x at hout
  generalize hy : run' t = y at hout
  cases hout with
  | ok hst' =>
    rw [bind_of_ok hx, bind_of_ok hy]
    exact hn _ _ _ hst'
  | error hhalt hst' =>
    rw [bind_of_error hx, bind_of_error hy]
    exact .error hhalt hst'

theorem throw {halt halt' : Halt} (h : halt.Translates τ halt') :
    Similar τ rel (throw halt : Run α) (throw halt') :=
  fun _ _ hst => .error h hst

/-- A fault without a place gets one. -/
theorem orSpan {run run' : Run α} {s s' : Span} (hs : τ.span s s') (h : Similar τ rel run run') :
    Similar τ rel (orSpan s run) (orSpan s' run') := by
  intro a b hab
  have hout := h a b hab
  unfold Run.orSpan
  generalize run a = x at hout
  generalize run' b = y at hout
  cases hout with
  | ok hst => exact .ok hst
  | error hhalt hst =>
    cases hhalt with
    | fault hspan =>
      cases hspan with
      | none => exact .error (.fault (.some hs)) hst
      | some hspan => exact .error (.fault (.some hspan)) hst
    | dangling => exact .error .dangling hst
    | outOfFuel => exact .error .outOfFuel hst

theorem readInt (h : State.Simulates τ rel) {s s' : Span} (hs : τ.span s s') :
    Similar τ rel (readInt s) (readInt s') := by
  intro a b hab
  have hinput := h.input_eq hab
  rcases hr : b.input.readInt with ⟨error | value, input⟩
  · rw [readInt_of_error (hinput ▸ hr), readInt_of_error hr]
    exact .error (.fault (.some hs)) (h.read input hab)
  · rw [readInt_of_ok (hinput ▸ hr), readInt_of_ok hr]
    exact .ok (h.read input hab)

end Similar

/-- All that runs are made of does the same from related states. -/
theorem congruence_similar (h : State.Simulates τ rel) (limit : Nat) :
    Congruence τ limit (Similar τ rel) where
  pure := fun _ _ _ hst => .ok hst
  bind := Similar.bind
  outOfFuel := .throw .outOfFuel
  lookup := by
    intro scope scope' x x' hscope hx s t hst
    show Outcomes τ rel (.ok (s.env.lookup scope x) s) (.ok (t.env.lookup scope' x') t)
    rw [h.lookup hst hscope hx]
    exact .ok hst
  store := fun value hscope hx _ _ hst => .ok (h.store value hst hscope hx)
  printLine := fun line _ _ hst => .ok (h.print line hst)
  readInt := Similar.readInt h
  division := fun hs => .throw (.fault (.some hs))
  overflow := .throw (.fault .none)
  orSpan := Similar.orSpan

end Run

/-! ## Environments -/

/-- Names are told apart alike, and so are functions. -/
structure Translation.Injective (τ : Translation) : Prop where
  name_iff : ∀ {x x' y y'}, τ.name x x' → τ.name y y' → (x = y ↔ x' = y')
  function_iff : ∀ {f f' g g'}, τ.function f f' → τ.function g g' → (f = g ↔ f' = g')

/-- The same values under names that correspond, in the same order. -/
def Frame.VarsTranslate (τ : Translation) : List (Name × Int32) → List (Name × Int32) → Prop :=
  List.Forall₂ fun b b' => τ.name b.1 b'.1 ∧ b.2 = b'.2

namespace Frame.VarsTranslate

variable {vars vars' : List (Name × Int32)}

theorem lookup_eq (hτ : τ.Injective) (h : VarsTranslate τ vars vars') {x x' : Name}
    (hx : τ.name x x') : vars.lookup x = vars'.lookup x' := by
  induction h with
  | nil => rfl
  | @cons b b' _ _ hb _ ih =>
    obtain ⟨y, v⟩ := b
    obtain ⟨y', v'⟩ := b'
    obtain ⟨hy, rfl⟩ := hb
    have hiff : (x == y) = (x' == y') := by
      rw [Bool.eq_iff_iff, beq_iff_eq, beq_iff_eq]
      exact hτ.name_iff hx hy
    rw [List.lookup_cons, List.lookup_cons, hiff, ih]

theorem assign (hτ : τ.Injective) (h : VarsTranslate τ vars vars') {x x' : Name} (hx : τ.name x x')
    (value : Int32) : VarsTranslate τ (assign x value vars) (assign x' value vars') := by
  induction h with
  | nil => exact .cons ⟨hx, rfl⟩ .nil
  | @cons b b' _ _ hb hrest ih =>
    obtain ⟨y, v⟩ := b
    obtain ⟨y', v'⟩ := b'
    simp only [Frame.assign, hτ.name_iff hb.1 hx]
    split
    · exact .cons ⟨hx, rfl⟩ hrest
    · exact .cons hb ih

end Frame.VarsTranslate

namespace Environment

/-- The variables of the frame of a scope, if it has one. -/
def vars? (env : Environment) (scope : ScopeId) : Option (List (Name × Int32)) :=
  env.frames[scope.index]?.map Frame.vars

theorem getLocal?_eq_vars? (env : Environment) (scope : ScopeId) (x : Name) :
    env.getLocal? scope x = (env.vars? scope).bind (·.lookup x) := by
  unfold getLocal? vars?
  cases env.frames[scope.index]? <;> rfl

theorem vars?_eq_none_iff {env : Environment} {scope : ScopeId} :
    env.vars? scope = none ↔ env.size ≤ scope.index := by
  unfold vars?
  rw [Option.map_eq_none_iff, Array.getElem?_eq_none_iff]
  rfl

theorem vars?_store (env : Environment) (scope other : ScopeId) (x : Name) (value : Int32) :
    (env.store scope x value).vars? other =
      if env.clamp scope = other then (env.vars? other).map (Frame.assign x value)
      else env.vars? other := by
  have hindex : env.clamp scope = other ↔ (env.clamp scope).index = other.index :=
    ⟨congrArg TableId.index, fun h => congrArg TableId.mk h⟩
  simp only [vars?, store, Array.getElem?_modify, hindex]
  split
  · rw [Option.map_map, Option.map_map]
    rfl
  · rfl

/-- Every frame falls back to the root, and the frames of scopes that correspond hold the same
values under names that correspond. -/
structure Translates (τ : Translation) (env env' : Environment) : Prop where
  pos : 0 < env.size
  pos' : 0 < env'.size
  legacy : ∀ scope, env.legacy scope = .root
  legacy' : ∀ scope, env'.legacy scope = .root
  vars : ∀ {scope scope'}, τ.Scope scope scope' →
    Option.Rel (Frame.VarsTranslate τ) (env.vars? scope) (env'.vars? scope')

namespace Translates

variable {env env' : Environment} {scope scope' : ScopeId}

theorem lt_iff (h : env.Translates τ env') (hscope : τ.Scope scope scope') :
    scope.index < env.size ↔ scope'.index < env'.size := by
  have hvars := h.vars hscope
  rw [← Nat.not_le, ← Nat.not_le, ← vars?_eq_none_iff, ← vars?_eq_none_iff]
  generalize env.vars? scope = o at hvars
  generalize env'.vars? scope' = o' at hvars
  cases hvars <;> simp

theorem getLocal?_eq (h : env.Translates τ env') (hτ : τ.Injective) (hscope : τ.Scope scope scope')
    {x x' : Name} (hx : τ.name x x') : env.getLocal? scope x = env'.getLocal? scope' x' := by
  have hvars := h.vars hscope
  rw [getLocal?_eq_vars?, getLocal?_eq_vars?]
  generalize env.vars? scope = o at hvars
  generalize env'.vars? scope' = o' at hvars
  cases hvars with
  | none => rfl
  | some hvars => exact hvars.lookup_eq hτ hx

theorem clamp (h : env.Translates τ env') (hscope : τ.Scope scope scope') :
    τ.Scope (env.clamp scope) (env'.clamp scope') := by
  have hlt := h.lt_iff hscope
  unfold size at hlt
  unfold Environment.clamp
  simp only [hlt]
  split
  · exact hscope
  · exact .root

end Translates

end Environment

/-- Scopes are told apart alike if functions are. -/
theorem Translation.Scope.eq_iff (hτ : τ.Injective) {a a' b b' : ScopeId} (ha : τ.Scope a a')
    (hb : τ.Scope b b') : a = b ↔ a' = b' := by
  have hinj : ∀ f g : FunctionId, f.scope = g.scope ↔ f = g :=
    fun f g => ⟨FunctionId.scope_injective, congrArg FunctionId.scope⟩
  cases ha with
  | root =>
    cases hb with
    | root => simp
    | @function g g' _ =>
      exact ⟨fun h => absurd h.symm g.scope_ne_root, fun h => absurd h.symm g'.scope_ne_root⟩
  | @function f f' hf =>
    cases hb with
    | root => exact ⟨fun h => absurd h f.scope_ne_root, fun h => absurd h f'.scope_ne_root⟩
    | function hg => rw [hinj, hinj, hτ.function_iff hf hg]

namespace Environment.Translates

variable {env env' : Environment} {scope scope' : ScopeId} {x x' : Name}

theorem lookup_eq (h : env.Translates τ env') (hτ : τ.Injective) (hscope : τ.Scope scope scope')
    (hx : τ.name x x') : env.lookup scope x = env'.lookup scope' x' := by
  have hroot : env.lookup .root x = env'.lookup .root x' := by
    rw [lookup_root (h.legacy _) h.pos, lookup_root (h.legacy' _) h.pos', ← getLocal?_root,
      ← getLocal?_root, h.getLocal?_eq hτ .root hx]
  cases hscope with
  | root => exact hroot
  | @function f f' hf =>
    have hscope : τ.Scope f.scope f'.scope := .function hf
    by_cases hlt : f.scope.index < env.size
    · rw [lookup_function (h.legacy _) (h.legacy _) hlt f.scope_ne_root,
        lookup_function (h.legacy' _) (h.legacy' _) ((h.lt_iff hscope).mp hlt) f'.scope_ne_root,
        hroot, h.getLocal?_eq hτ hscope hx]
    · have hclamp : env.clamp f.scope = .root := if_neg hlt
      have hclamp' : env'.clamp f'.scope = .root := if_neg fun h' => hlt ((h.lt_iff hscope).mpr h')
      have hroots : env.clamp .root = .root := if_pos h.pos
      have hroots' : env'.clamp .root = .root := if_pos h.pos'
      unfold Environment.lookup at hroot ⊢
      rw [hclamp, hclamp']
      rwa [hroots, hroots'] at hroot

theorem store (h : env.Translates τ env') (hτ : τ.Injective)
    (hscope : τ.Scope scope scope') (hx : τ.name x x') (value : Int32) :
    (env.store scope x value).Translates τ (env'.store scope' x' value) where
  pos := by
    rw [size_store]
    exact h.pos
  pos' := by
    rw [size_store]
    exact h.pos'
  legacy _ := by
    rw [legacy_store]
    exact h.legacy _
  legacy' _ := by
    rw [legacy_store]
    exact h.legacy' _
  vars := by
    intro other other' hother
    rw [vars?_store, vars?_store]
    simp only [(h.clamp hscope).eq_iff hτ hother]
    split
    · have hvars := h.vars hother
      generalize env.vars? other = o at hvars
      generalize env'.vars? other' = o' at hvars
      cases hvars with
      | none => exact .none
      | some hvars => exact .some (hvars.assign hτ hx value)
    · exact h.vars hother

end Environment.Translates

namespace Environment

theorem vars?_ofScopes (scopes : Scopes) (scope : ScopeId) :
    (ofScopes scopes).vars? scope = if scope.index < scopes.size then some [] else none := by
  unfold vars? ofScopes Scopes.size
  rw [Array.getElem?_map]
  split
  · rename_i h
    rw [Array.getElem?_eq_getElem h]
    rfl
  · rename_i h
    rw [Array.getElem?_eq_none (Nat.not_lt.mp h)]
    rfl

/-- Fresh environments of programs with functions that correspond. -/
theorem translates_ofScopes {m m' : Module} {program program' : Program}
    (hm : m.Represents program) (hm' : m'.Represents program')
    (hfunction : ∀ {f f' : FunctionId}, τ.function f f' →
      (f.index < m.functions.size ↔ f'.index < m'.functions.size)) :
    (ofScopes m.scopes).Translates τ (ofScopes m'.scopes) where
  pos := (fits_ofScopes m).pos hm
  pos' := (fits_ofScopes m').pos hm'
  legacy scope := (legacy_ofScopes _ scope).trans (hm.legacy_eq scope)
  legacy' scope := (legacy_ofScopes _ scope).trans (hm'.legacy_eq scope)
  vars := by
    intro scope scope' hscope
    have hiff : scope.index < m.scopes.size ↔ scope'.index < m'.scopes.size := by
      rw [hm.scopes_size, hm'.scopes_size]
      cases hscope with
      | root => exact iff_of_true (Nat.succ_pos _) (Nat.succ_pos _)
      | function hf =>
        exact Nat.succ_lt_succ_iff.trans ((hfunction hf).trans Nat.succ_lt_succ_iff.symm)
    rw [vars?_ofScopes, vars?_ofScopes]
    simp only [hiff]
    split
    · exact .some .nil
    · exact .none

end Environment

/-- Environments that are translations of each other, with the same input and output. -/
structure State.Translates (τ : Translation) (s t : State) : Prop where
  env : s.env.Translates τ t.env
  input : s.input = t.input
  output : s.output = t.output

/-- No step tells states apart that are translations of each other. -/
theorem State.simulates_translates (hτ : τ.Injective) :
    State.Simulates τ (State.Translates τ) where
  lookup h hscope hx := h.env.lookup_eq hτ hscope hx
  store value h hscope hx := ⟨h.env.store hτ hscope hx value, h.input, h.output⟩
  print line h := ⟨h.env, h.input, congrArg (Output.withLine · line) h.output⟩
  input_eq h := h.input
  read _ h := ⟨h.env, rfl, h.output⟩

/-- Programs whose commands and functions are translations of each other run alike from fresh
environments. -/
theorem Machine.run_start_similar {m m' : Machine} {w w' : Setting} (hτ : τ.Injective)
    (hm : m.Serves w) (hm' : m'.Serves w') (hw : w.Translates τ w')
    (hcommands : List.Forall₂ (Command.Translates τ) w.program.commands w'.program.commands)
    (hfunction : ∀ {f f' : FunctionId}, τ.function f f' →
      (f.index < w.program.declarations.length ↔ f'.index < w'.program.declarations.length))
    (fuel : Nat) (input : Input) :
    Outcomes τ (State.Translates τ) (m.run fuel (start m.module input))
      (m'.run fuel (start m'.module input)) := by
  have henv : (Environment.ofScopes m.module.scopes).Translates τ (.ofScopes m'.module.scopes) := by
    refine Environment.translates_ofScopes hm.module hm'.module fun hf => ?_
    rw [hm.module.functions_size, hm'.module.functions_size]
    exact hfunction hf
  exact run_congruent (congruence_similar (State.simulates_translates hτ) w.maxDepth) hm hm' hw
    hcommands fuel _ _ ⟨henv, rfl, rfl⟩

end Enquanto

import Enquanto.Proofs.GlobalReads
import Mathlib.Data.Fintype.Card

/-!
# Walks along legacies

A look-up walks from a frame to its legacy, to the legacy of that one, and so on. Links are
arbitrary: a walk may be long, may run in a circle, and may lead to a frame that is not there. Here
the walk is taken as it is, without a bound, and look-up and store are described by it.

* `Environment.visit?`: the frame that a walk sees after some number of links;
* `Environment.Reaches`: a walk comes to a frame before any other frame that holds a name;
* `Environment.lt_size_of_visit?`: what is seen at all is first seen before there were as many links
  as frames, since until then all frames on the walk differ;
* `Environment.lookup_eq_first`: a look-up reads the first frame on the walk that holds the name;
* `Environment.store_exact`: a store shows from where a walk reaches the frame that it writes to,
  and from nowhere else.

All of it holds of every environment, however it came about.
-/

namespace Enquanto

namespace Environment

/-- Where a walk goes on behind a frame: at its legacy, unless that is the frame itself or no
frame. -/
def next? (env : Environment) (scope : ScopeId) : Option ScopeId :=
  match env.frames[scope.index]? with
  | some frame =>
    if frame.legacy = scope ∨ env.size ≤ frame.legacy.index then none else some frame.legacy
  | none => none

/-- The frame that the walk from a scope sees after `n` links, if it gets that far. -/
def visit? (env : Environment) : Nat → ScopeId → Option ScopeId
  | 0, scope => if scope.index < env.size then some scope else none
  | n + 1, scope => (env.next? scope).bind (env.visit? n)

/-- The walk from a scope comes to the frame `holder`, and to no other frame that holds the name
before. A scope without a frame starts at the root. -/
def Reaches (env : Environment) (scope : ScopeId) (name : Name) (holder : ScopeId) : Prop :=
  ∃ n, env.visit? n (env.clamp scope) = some holder ∧
    ∀ k < n, ∀ other, env.visit? k (env.clamp scope) = some other → other ≠ holder →
      env.getLocal? other name = none

variable {env : Environment} {scope start other holder : ScopeId} {name key : Name} {value : Int32}

/-! ## What a walk sees -/

theorem visit?_zero_of_lt (h : scope.index < env.size) : env.visit? 0 scope = some scope := if_pos h

theorem next?_eq_none_of_not_lt (h : ¬ scope.index < env.size) : env.next? scope = none := by
  unfold next?
  rw [Array.getElem?_eq_none (Nat.le_of_not_lt h)]

/-- A walk sees nothing from where there is no frame. -/
theorem visit?_eq_none_of_not_lt (h : ¬ scope.index < env.size) (n : Nat) :
    env.visit? n scope = none := by
  cases n with
  | zero => exact if_neg h
  | succ n =>
    rw [visit?, next?_eq_none_of_not_lt h]
    rfl

theorem start_lt_size {n : Nat} (h : env.visit? n start = some scope) : start.index < env.size := by
  by_contra hs
  rw [visit?_eq_none_of_not_lt hs] at h
  cases h

theorem eq_of_visit?_zero (h : env.visit? 0 start = some scope) : scope = start :=
  Option.some_inj.mp (h.symm.trans (visit?_zero_of_lt (start_lt_size h)))

theorem lt_size_of_visit?_eq_some {n : Nat} (h : env.visit? n start = some scope) :
    scope.index < env.size := by
  induction n generalizing start with
  | zero => exact eq_of_visit?_zero h ▸ start_lt_size h
  | succ n ih =>
    obtain ⟨next, -, hnext⟩ := Option.bind_eq_some_iff.mp h
    exact ih hnext

/-- After a first part of a walk, the rest is the walk from where the first part led. -/
theorem visit?_add (n k : Nat) :
    env.visit? (n + k) start = (env.visit? n start).bind (env.visit? k) := by
  induction n generalizing start with
  | zero =>
    rw [Nat.zero_add]
    by_cases hs : start.index < env.size
    · rw [visit?_zero_of_lt hs]
      rfl
    · rw [visit?_eq_none_of_not_lt hs, visit?_eq_none_of_not_lt hs]
      rfl
  | succ n ih =>
    rw [Nat.succ_add, visit?, visit?]
    cases env.next? start with
    | none => rfl
    | some next => exact ih

/-- What a walk passes, it sees. -/
theorem exists_visit?_of_le {n k : Nat} (h : env.visit? n start = some scope) (hk : k ≤ n) :
    ∃ passed, env.visit? k start = some passed := by
  obtain ⟨rest, rfl⟩ := Nat.exists_eq_add_of_le hk
  rw [visit?_add] at h
  obtain ⟨passed, hpassed, -⟩ := Option.bind_eq_some_iff.mp h
  exact ⟨passed, hpassed⟩

/-- Up to where a frame is first seen, a walk sees no frame twice: from a frame that it sees again
it would come to that frame with fewer links. So there are no more links than other frames. -/
theorem lt_size_of_visit? {n : Nat} (h : env.visit? n start = some holder)
    (hfirst : ∀ k < n, env.visit? k start ≠ some holder) : n < env.size := by
  have hpassed : ∀ k : Fin (n + 1), ∃ passed, env.visit? k start = some passed :=
    fun k => exists_visit?_of_le h (Nat.le_of_lt_succ k.isLt)
  choose passed hpassed using hpassed
  have hdistinct : ∀ i j : Fin (n + 1), i < j → passed i ≠ passed j := by
    intro i j hij he
    have hj : j.val ≤ n := Nat.le_of_lt_succ j.isLt
    have hij : i.val < j.val := hij
    refine hfirst (i + (n - j)) (by omega) ?_
    rw [visit?_add, hpassed i, he, ← hpassed j, ← visit?_add, Nat.add_sub_cancel' hj, h]
  have hinjective : Function.Injective fun k : Fin (n + 1) =>
      (⟨(passed k).index, lt_size_of_visit?_eq_some (hpassed k)⟩ : Fin env.size) := by
    intro i j he
    have he : passed i = passed j := congrArg TableId.mk (Fin.mk.inj he)
    rcases lt_trichotomy i j with hij | hij | hij
    · exact absurd he (hdistinct i j hij)
    · exact hij
    · exact absurd he.symm (hdistinct j i hij)
  have hle : n + 1 ≤ env.size := by simpa using Fintype.card_le_of_injective _ hinjective
  exact hle

/-! ## What a look-up reads -/

theorem lookupFrom_of_getLocal? {steps : Nat} (h : env.getLocal? scope name = some value) :
    env.lookupFrom name (steps + 1) scope = value := by
  rw [lookupFrom_succ, h]

/-- A frame without the name is passed; behind the last frame, 0 is read. -/
theorem lookupFrom_of_none {steps : Nat} (h : env.getLocal? scope name = none) :
    env.lookupFrom name (steps + 1) scope =
      match env.next? scope with
      | some next => env.lookupFrom name steps next
      | none => 0 := by
  unfold getLocal? at h
  unfold next?
  rw [lookupFrom]
  cases hf : env.frames[scope.index]? with
  | none => rfl
  | some frame =>
    rw [hf, Option.bind_some] at h
    by_cases hself : frame.legacy = scope
    · simp [h, hself]
    · by_cases hmissing : env.size ≤ frame.legacy.index
      · have hzero : env.lookupFrom name steps frame.legacy = 0 := by
          cases steps with
          | zero => rfl
          | succ steps => rw [lookupFrom, Array.getElem?_eq_none hmissing]
        simp [h, hself, hmissing, hzero]
      · simp [h, hself, hmissing]

/-- With more steps than links before it, the first frame that holds the name is read. -/
theorem lookupFrom_of_visit? {n steps : Nat} (h : env.visit? n start = some holder)
    (hholder : env.getLocal? holder name = some value)
    (hfirst : ∀ k < n, ∀ other, env.visit? k start = some other →
      env.getLocal? other name = none) (hn : n < steps) :
    env.lookupFrom name steps start = value := by
  obtain ⟨steps, rfl⟩ : ∃ rest, steps = rest + 1 := ⟨steps - 1, by omega⟩
  induction n generalizing start steps with
  | zero =>
    obtain rfl := eq_of_visit?_zero h
    exact lookupFrom_of_getLocal? hholder
  | succ n ih =>
    have hs : start.index < env.size := start_lt_size h
    obtain ⟨next, hnext, hrest⟩ := Option.bind_eq_some_iff.mp h
    rw [lookupFrom_of_none (hfirst 0 (Nat.succ_pos n) start (visit?_zero_of_lt hs)), hnext]
    obtain ⟨steps, rfl⟩ : ∃ rest, steps = rest + 1 := ⟨steps - 1, by omega⟩
    refine ih hrest (fun k hk other hother => hfirst (k + 1) (by omega) other ?_) steps (by omega)
    rw [visit?, hnext]
    exact hother

/-- If no frame on the walk holds the name, 0 is read, whatever the number of steps. -/
theorem lookupFrom_eq_zero (steps : Nat)
    (h : ∀ n other, env.visit? n start = some other → env.getLocal? other name = none) :
    env.lookupFrom name steps start = 0 := by
  induction steps generalizing start with
  | zero => rfl
  | succ steps ih =>
    have hstart : env.getLocal? start name = none := by
      by_cases hs : start.index < env.size
      · exact h 0 start (visit?_zero_of_lt hs)
      · exact getLocal?_eq_none hs
    rw [lookupFrom_of_none hstart]
    cases hnext : env.next? start with
    | none => rfl
    | some next =>
      refine ih fun n other hother => h (n + 1) other ?_
      rw [visit?, hnext]
      exact hother

/-! ## Reaching a frame -/

/-- A frame that is reached is first seen before there were as many links as frames. -/
theorem Reaches.exists_first (h : env.Reaches scope name holder) : ∃ n < env.size,
    env.visit? n (env.clamp scope) = some holder ∧
      ∀ k < n, ∀ other, env.visit? k (env.clamp scope) = some other →
        other ≠ holder ∧ env.getLocal? other name = none := by
  classical
  obtain ⟨n, hn, hbefore⟩ := h
  have hseen : ∃ n, env.visit? n (env.clamp scope) = some holder := ⟨n, hn⟩
  have hle : Nat.find hseen ≤ n := Nat.find_min' hseen hn
  have hfirst : ∀ k < Nat.find hseen, env.visit? k (env.clamp scope) ≠ some holder :=
    fun k hk => Nat.find_min hseen hk
  refine ⟨Nat.find hseen, lt_size_of_visit? (Nat.find_spec hseen) hfirst, Nat.find_spec hseen,
    fun k hk other hother => ?_⟩
  have hne : other ≠ holder := fun he => hfirst k hk (he ▸ hother)
  exact ⟨hne, hbefore k (Nat.lt_of_lt_of_le hk hle) other hother hne⟩

/-- From a frame that is reached and holds the name, its value is read, if there are as many steps
as frames. -/
theorem Reaches.lookupFrom_eq (h : env.Reaches scope name holder)
    (hholder : env.getLocal? holder name = some value) {steps : Nat} (hs : env.size ≤ steps) :
    env.lookupFrom name steps (env.clamp scope) = value := by
  obtain ⟨n, hn, hvisit, hfirst⟩ := h.exists_first
  exact lookupFrom_of_visit? hvisit hholder (fun k hk other ho => (hfirst k hk other ho).2)
    (Nat.lt_of_lt_of_le hn hs)

theorem Reaches.lookup_eq (h : env.Reaches scope name holder)
    (hholder : env.getLocal? holder name = some value) : env.lookup scope name = value :=
  h.lookupFrom_eq hholder (Nat.le_refl _)

/-- Either a walk reaches a frame that holds the name, or no frame on it does. -/
theorem exists_reaches_or (env : Environment) (scope : ScopeId) (name : Name) :
    (∃ holder value, env.Reaches scope name holder ∧ env.getLocal? holder name = some value) ∨
      ∀ n other, env.visit? n (env.clamp scope) = some other →
        env.getLocal? other name = none := by
  classical
  by_cases h : ∃ n other value, env.visit? n (env.clamp scope) = some other ∧
      env.getLocal? other name = some value
  · obtain ⟨holder, value, hvisit, hholder⟩ := Nat.find_spec h
    refine .inl ⟨holder, value, ⟨Nat.find h, hvisit, fun k hk other hother _ => ?_⟩, hholder⟩
    rw [Option.eq_none_iff_forall_ne_some]
    exact fun v hv => Nat.find_min h hk ⟨other, v, hother, hv⟩
  · refine .inr fun n other hother => ?_
    rw [Option.eq_none_iff_forall_ne_some]
    exact fun v hv => h ⟨n, other, v, hother, hv⟩

/-- A look-up reads the value in the first frame on the walk that holds the name, and 0 if no frame
on the walk does, however long the walk is. The bound on its steps hides nothing: more steps find
the same. -/
theorem lookup_eq_first (env : Environment) (scope : ScopeId) (name : Name) :
    (∀ holder value, env.Reaches scope name holder → env.getLocal? holder name = some value →
      env.lookup scope name = value) ∧
    ((∀ n other, env.visit? n (env.clamp scope) = some other → env.getLocal? other name = none) →
      env.lookup scope name = 0) ∧
    ∀ steps, env.size ≤ steps →
      env.lookupFrom name steps (env.clamp scope) = env.lookup scope name := by
  refine ⟨fun holder value h hholder => h.lookup_eq hholder, lookupFrom_eq_zero _,
    fun steps hs => ?_⟩
  rcases exists_reaches_or env scope name with ⟨holder, value, h, hholder⟩ | hnone
  · rw [h.lookupFrom_eq hholder hs, h.lookup_eq hholder]
  · rw [lookup, lookupFrom_eq_zero _ hnone, lookupFrom_eq_zero _ hnone]

/-- From the frame 1 the walk goes on to 3, then to 2, and to the root last. -/
example : (store ⟨#[⟨⟨0⟩, []⟩, ⟨⟨3⟩, []⟩, ⟨⟨0⟩, []⟩, ⟨⟨2⟩, []⟩]⟩ ⟨0⟩ ⟨7⟩ 5).lookup ⟨1⟩ ⟨7⟩ = 5 := by
  decide

/-! ## Who sees a store -/

theorem next?_store : (env.store scope name value).next? other = env.next? other := by
  have hlegacy : (env.store scope name value).legacy other = env.legacy other := legacy_store
  have hsize : (env.store scope name value).frames.size = env.frames.size := by simp [store]
  unfold legacy at hlegacy
  unfold next? size
  by_cases h : other.index < env.frames.size
  · rw [Array.getElem?_eq_getElem h, Array.getElem?_eq_getElem (hsize ▸ h)] at hlegacy ⊢
    simp only at hlegacy
    simp only [hlegacy, hsize]
  · rw [Array.getElem?_eq_none (Nat.le_of_not_lt h),
      Array.getElem?_eq_none (hsize ▸ Nat.le_of_not_lt h)]

/-- A store leaves all walks as they are. -/
theorem visit?_store (n : Nat) :
    (env.store scope name value).visit? n start = env.visit? n start := by
  induction n generalizing start with
  | zero => rw [visit?, visit?, size_store]
  | succ n ih =>
    rw [visit?, visit?, next?_store]
    exact congrArg _ (funext fun _ => ih)

/-- A frame other than the one that is written to is reached after a store as before, unless the
walk comes to the frame with the store first. -/
theorem reaches_store (h : env.Reaches other name holder)
    (hclear : ¬ env.Reaches other name (env.clamp scope)) :
    (env.store scope name value).Reaches other name holder := by
  obtain ⟨n, -, hvisit, hfirst⟩ := h.exists_first
  refine ⟨n, by rw [clamp_store, visit?_store, hvisit], fun k hk passed hpassed _ => ?_⟩
  rw [clamp_store, visit?_store] at hpassed
  obtain ⟨-, hnone⟩ := hfirst k hk passed hpassed
  have hne : passed ≠ env.clamp scope := by
    rintro rfl
    exact hclear ⟨k, hpassed, fun i hi between hb _ =>
      (hfirst i (Nat.lt_trans hi hk) between hb).2⟩
  rw [getLocal?_store_of_ne fun he => hne he.1, hnone]

/-- The frame that is written to is reached after a store as before. -/
theorem reaches_store_self (h : env.Reaches other name (env.clamp scope)) :
    (env.store scope name value).Reaches other name (env.clamp scope) := by
  obtain ⟨n, hvisit, hbefore⟩ := h
  refine ⟨n, by rw [clamp_store, visit?_store, hvisit], fun k hk passed hpassed hne => ?_⟩
  rw [clamp_store, visit?_store] at hpassed
  rw [getLocal?_store_of_ne fun he => hne he.1]
  exact hbefore k hk passed hpassed hne

/-- A store shows where the walk reaches the frame that is written to. -/
theorem lookup_store_of_reaches (h : env.Reaches other name (env.clamp scope)) :
    (env.store scope name value).lookup other name = value := by
  refine (reaches_store_self h).lookup_eq ?_
  obtain ⟨n, hvisit, -⟩ := h
  rw [getLocal?_store env scope (env.clamp scope) name name value
    (lt_size_of_visit?_eq_some hvisit), if_pos ⟨rfl, rfl⟩]

/-- A store does not show where the walk comes to another frame with the name first, or does not
come to the frame that is written to. -/
theorem lookup_store_of_not_reaches (h : ¬ env.Reaches other name (env.clamp scope)) :
    (env.store scope name value).lookup other name = env.lookup other name := by
  rcases exists_reaches_or env other name with ⟨holder, v, hreach, hholder⟩ | hnone
  · have hne : holder ≠ env.clamp scope := fun he => h (he ▸ hreach)
    rw [hreach.lookup_eq hholder]
    refine (reaches_store hreach h).lookup_eq ?_
    rw [getLocal?_store_of_ne fun he => hne he.1, hholder]
  · rw [lookup, lookup, lookupFrom_eq_zero _ hnone, clamp_store]
    refine lookupFrom_eq_zero _ fun n passed hpassed => ?_
    rw [visit?_store] at hpassed
    have hne : passed ≠ env.clamp scope := by
      rintro rfl
      exact h ⟨n, hpassed, fun k _ between hb _ => hnone k between hb⟩
    rw [getLocal?_store_of_ne fun he => hne he.1]
    exact hnone n passed hpassed

/-- What a store does, and all that it does: it sets one variable in one frame, and the new value is
seen under that name from the scopes whose walk reaches the frame, and from no others. -/
theorem store_exact (env : Environment) (scope : ScopeId) (name : Name) (value : Int32) :
    (∀ other key, (env.store scope name value).getLocal? other key =
      if other = env.clamp scope ∧ key = name ∧ other.index < env.size then some value
      else env.getLocal? other key) ∧
    ∀ other key,
      (key = name ∧ env.Reaches other name (env.clamp scope) →
        (env.store scope name value).lookup other key = value) ∧
      (¬ (key = name ∧ env.Reaches other name (env.clamp scope)) →
        (env.store scope name value).lookup other key = env.lookup other key) := by
  refine ⟨fun other key => ?_, fun other key => ⟨?seen, ?unseen⟩⟩
  · by_cases h : other.index < env.size
    · rw [getLocal?_store env scope other name key value h]
      simp only [h, and_true]
    · have h' : ¬ other.index < (env.store scope name value).size := by rwa [size_store]
      rw [getLocal?_eq_none h', getLocal?_eq_none h]
      simp only [h, and_false, if_false]
  case seen =>
    rintro ⟨rfl, h⟩
    exact lookup_store_of_reaches h
  case unseen =>
    intro h
    by_cases hk : key = name
    · subst hk
      exact lookup_store_of_not_reaches fun hr => h ⟨rfl, hr⟩
    · exact lookup_store_of_ne hk

end Environment

end Enquanto

import Enquanto.Machine
import Mathlib.Order.Filter.AtTopBot.Basic

/-!
# Reasoning about runs

Two ways to say how a run ends.

* `Run.Yields`: a run either is out of fuel, or ends in a way that is described; it never finds an
  id or a slice that leads nowhere. A chain of runs yields what its links yield;
* `Run.Ends`: with enough fuel, a run ends in a given way. A chain of runs ends as its links do.
-/

namespace Enquanto

open Filter

/-- A fault that has a place keeps it. -/
theorem Fault.orSpan_of_isSome {f : Fault} (h : f.span.isSome) (span : Span) :
    f.orSpan span = f := by
  obtain ⟨cause, place⟩ := f
  obtain ⟨sp, rfl⟩ := Option.isSome_iff_exists.mp h
  rfl

namespace Run

variable {α β : Type}

/-- The outcome of a run that is over, with a value or with a fault. -/
def ended : Except Fault α → State → EStateM.Result Halt State α
  | .ok a, s => .ok a s
  | .error f, s => .error (.fault f) s

/-- What is looked up after a run that is over with a value. -/
def shown (look : α → State → β) : EStateM.Result Halt State α → Option β
  | .ok a s => some (look a s)
  | .error _ _ => none

theorem exists_of_shown {look : α → State → β} {r : EStateM.Result Halt State α} {b : β}
    (h : shown look r = some b) : ∃ a s, r = ended (.ok a) s ∧ look a s = b := by
  cases r with
  | ok a s => exact ⟨a, s, rfl, Option.some.inj h⟩
  | error _ _ => cases h

/-- From `s`, the run is out of fuel or ends as described. -/
def Yields (run : Run α) (s : State) (post : Except Fault α → State → Prop) : Prop :=
  match run s with
  | .ok a s' => post (.ok a) s'
  | .error (.fault f) s' => post (.error f) s'
  | .error .dangling _ => False
  | .error .outOfFuel _ => True

section
variable {run : Run α} {next : α → Run β} {s s' : State} {post : Except Fault α → State → Prop}

theorem found_bind_of_eq {o : Option α} {a : α} (h : o = some a) (next : α → Run β) :
    found o >>= next = next a := by
  rw [h]
  rfl

theorem bind_of_ok {a : α} (h : run s = .ok a s') : (run >>= next) s = next a s' := by
  show EStateM.bind run next s = _
  unfold EStateM.bind
  rw [h]

theorem bind_of_error {halt : Halt} (h : run s = .error halt s') :
    (run >>= next) s = .error halt s' := by
  show EStateM.bind run next s = _
  unfold EStateM.bind
  rw [h]

/-- A run that is not out of fuel ends as described. -/
theorem Yields.exists_ended (h : run.Yields s post) :
    (∃ s', run s = .error .outOfFuel s') ∨ ∃ r s', run s = ended r s' ∧ post r s' := by
  unfold Yields at h
  split at h
  · next a s' he => exact .inr ⟨.ok a, s', he, h⟩
  · next f s' he => exact .inr ⟨.error f, s', he, h⟩
  · exact h.elim
  · next s' he => exact .inl ⟨s', he⟩

/-- The way in which a run did end is as described. -/
theorem Yields.of_ended {r : Except Fault α} (h : run.Yields s post) (he : run s = ended r s') :
    post r s' := by
  unfold Yields at h
  rw [he] at h
  cases r <;> exact h

theorem yields_of_ended {r : Except Fault α} (h : run s = ended r s') (hp : post r s') :
    run.Yields s post := by
  unfold Yields
  rw [h]
  cases r <;> exact hp

theorem yields_outOfFuel : (throw .outOfFuel : Run α).Yields s post := trivial

theorem yields_pure {a : α} (h : post (.ok a) s) : (pure a : Run α).Yields s post := h

theorem yields_fault {cause : Fault.Cause} {span : Option Span}
    (h : post (.error ⟨cause, span⟩) s) : (fault cause span : Run α).Yields s post := h

/-- A chain yields what its second link yields from where the first one ended, or the fault of the
first one. -/
theorem Yields.bind {mid : Except Fault α → State → Prop} {post : Except Fault β → State → Prop}
    (h : run.Yields s mid) (hok : ∀ a s', mid (.ok a) s' → (next a).Yields s' post)
    (hfault : ∀ f s', mid (.error f) s' → post (.error f) s') : (run >>= next).Yields s post := by
  rcases h.exists_ended with ⟨s', he⟩ | ⟨r, s', he, hm⟩
  · unfold Yields
    rw [bind_of_error he]
    trivial
  · cases r with
    | ok a =>
      unfold Yields
      rw [bind_of_ok he]
      exact hok a s' hm
    | error f => exact yields_of_ended (bind_of_error he) (hfault f s' hm)

theorem yields_lookup_bind {scope : ScopeId} {name : Name} {next : Int32 → Run β}
    {post : Except Fault β → State → Prop}
    (h : (next (s.env.lookup scope name)).Yields s post) :
    (lookup scope name >>= next).Yields s post := h

theorem yields_store_bind {scope : ScopeId} {name : Name} {value : Int32} {next : Unit → Run β}
    {post : Except Fault β → State → Prop}
    (h : (next ()).Yields { s with env := s.env.store scope name value } post) :
    (store scope name value >>= next).Yields s post := h

theorem Yields.imp {post' : Except Fault α → State → Prop} (h : run.Yields s post)
    (hi : ∀ r s', post r s' → post' r s') : run.Yields s post' := by
  rcases h.exists_ended with ⟨s', he⟩ | ⟨r, s', he, hm⟩
  · unfold Yields
    rw [he]
    trivial
  · exact yields_of_ended he (hi r s' hm)

end

theorem readInt_of_ok {s : State} {span : Span} {value : Int32} {input : Input}
    (h : s.input.readInt = (.ok value, input)) :
    readInt span s = ended (.ok value) { s with input } := by
  unfold readInt
  rw [h]
  rfl

theorem readInt_of_error {s : State} {span : Span} {error : ReadError} {input : Input}
    (h : s.input.readInt = (.error error, input)) :
    readInt span s = ended (.error ⟨.read error, some span⟩) { s with input } := by
  unfold readInt
  rw [h]
  rfl

/-! ## Giving faults a place -/

section
variable {run : Run α} {s s' : State} {span : Span}

theorem orSpan_of_ok {a : α} (h : run s = .ok a s') : orSpan span run s = .ok a s' := by
  unfold orSpan
  rw [h]

theorem orSpan_of_fault {f : Fault} (h : run s = .error (.fault f) s') :
    orSpan span run s = .error (.fault (f.orSpan span)) s' := by
  unfold orSpan
  rw [h]

theorem Yields.orSpan {mid post : Except Fault α → State → Prop} (h : run.Yields s mid)
    (hok : ∀ a s', mid (.ok a) s' → post (.ok a) s')
    (hfault : ∀ f s', mid (.error f) s' → post (.error (f.orSpan span)) s') :
    (orSpan span run).Yields s post := by
  rcases h.exists_ended with ⟨s', he⟩ | ⟨r, s', he, hm⟩
  · unfold Yields Run.orSpan
    rw [he]
    trivial
  · cases r with
    | ok a => exact yields_of_ended (r := .ok a) (orSpan_of_ok he) (hok a s' hm)
    | error f =>
      exact yields_of_ended (r := .error (f.orSpan span)) (orSpan_of_fault he) (hfault f s' hm)

end

/-! ## With enough fuel -/

/-- With enough fuel, the run from `s` ends so in `s'`. -/
def Ends (run : Nat → Run α) (s : State) (r : Except Fault α) (s' : State) : Prop :=
  ∀ᶠ fuel in atTop, run fuel s = ended r s'

section
variable {run : Nat → Run α} {next : Nat → α → Run β} {s s₁ s' : State} {r : Except Fault α}

theorem Ends.of_forall (h : ∀ fuel, run fuel s = ended r s') : Ends run s r s' :=
  Eventually.of_forall h

/-- A run that takes one level of fuel for what another does ends as the other. -/
theorem Ends.of_succ {run' : Nat → Run α} (h : Ends run' s r s')
    (hs : ∀ fuel, run (fuel + 1) = run' fuel) : Ends run s r s' := by
  unfold Ends
  rw [← map_add_atTop_eq_nat 1, eventually_map]
  filter_upwards [h] with fuel hfuel
  rw [hs, hfuel]

theorem Ends.bind {a : α} {r : Except Fault β} (h : Ends run s (.ok a) s₁)
    (hn : Ends (fun fuel => next fuel a) s₁ r s') :
    Ends (fun fuel => run fuel >>= next fuel) s r s' := by
  filter_upwards [h, hn] with fuel hfuel hnext
  rw [bind_of_ok hfuel, hnext]

theorem Ends.fault {f : Fault} (h : Ends run s (.error f) s') :
    Ends (fun fuel => run fuel >>= next fuel) s (.error f) s' := by
  filter_upwards [h] with fuel hfuel
  rw [bind_of_error hfuel]
  rfl

theorem ends_pure {a : α} : Ends (fun _ => pure a) s (.ok a) s := .of_forall fun _ => rfl

theorem ends_lookup {scope : ScopeId} {name : Name} :
    Ends (fun _ => lookup scope name) s (.ok (s.env.lookup scope name)) s :=
  .of_forall fun _ => rfl

theorem ends_store {scope : ScopeId} {name : Name} {value : Int32} :
    Ends (fun _ => store scope name value) s (.ok ())
      { s with env := s.env.store scope name value } :=
  .of_forall fun _ => rfl

/-- Faults that have a place keep it. -/
theorem Ends.orSpan {span : Span} (h : Ends run s r s')
    (hr : ∀ f, r = .error f → f.span.isSome) :
    Ends (fun fuel => orSpan span (run fuel)) s r s' := by
  filter_upwards [h] with fuel hfuel
  cases r with
  | ok a => exact orSpan_of_ok hfuel
  | error f =>
    rw [orSpan_of_fault hfuel, Fault.orSpan_of_isSome (hr f rfl)]
    rfl

/-- A fault that has no place yet gets one. -/
theorem Ends.orSpan_none {cause : Fault.Cause} {span : Span}
    (h : Ends run s (.error ⟨cause, none⟩) s') :
    Ends (fun fuel => Run.orSpan span (run fuel)) s (.error ⟨cause, some span⟩) s' := by
  filter_upwards [h] with fuel hfuel
  rw [orSpan_of_fault hfuel]
  rfl

/-- A run ends in one way only. -/
theorem Ends.unique {r₁ r₂ : Except Fault α} {s₂ : State} (h₁ : Ends run s r₁ s₁)
    (h₂ : Ends run s r₂ s₂) : r₁ = r₂ ∧ s₁ = s₂ := by
  obtain ⟨fuel, hfuel₁, hfuel₂⟩ := (h₁.and h₂).exists
  have he := hfuel₁.symm.trans hfuel₂
  cases r₁ <;> cases r₂ <;> cases he <;> exact ⟨rfl, rfl⟩

end

/-! ## Out of fuel -/

/-- From `s`, the run is out of fuel. -/
def Exhausts (run : Run α) (s : State) : Prop := ∃ s', run s = .error .outOfFuel s'

section
variable {run : Nat → Run α} {s s₁ s' : State} {r : Except Fault α}

theorem Ends.not_exhausts (h : Ends run s r s') : ¬ ∀ fuel, (run fuel).Exhausts s := by
  intro hall
  obtain ⟨fuel, hfuel⟩ := h.exists
  obtain ⟨s'', he⟩ := hall fuel
  rw [hfuel] at he
  cases r <;> cases he

/-- A run that ends in one way with enough fuel ends so or is out of fuel, with any fuel. -/
theorem Ends.exhausts_or {post : Except Fault α → State → Prop} (h : Ends run s r s') {fuel : Nat}
    (hy : (run fuel).Yields s post) (hp : ∀ r s', post r s' → Ends run s r s') :
    (run fuel).Exhausts s ∨ run fuel s = ended r s' := by
  rcases hy.exists_ended with he | ⟨r₁, s₁, he, hr⟩
  · exact .inl he
  · obtain ⟨rfl, rfl⟩ := h.unique (hp r₁ s₁ hr)
    exact .inr he

/-- A chain is out of fuel if its second link is, from where the first one ends. -/
theorem Exhausts.bind {run : Run α} {next : α → Run β} {a : α}
    (h : run.Exhausts s ∨ run s = ended (.ok a) s₁) (hn : (next a).Exhausts s₁) :
    (run >>= next).Exhausts s := by
  rcases h with ⟨s', he⟩ | he
  · exact ⟨s', bind_of_error he⟩
  · obtain ⟨s', hn⟩ := hn
    exact ⟨s', (bind_of_ok he).trans hn⟩

theorem Exhausts.bind_left {run : Run α} {next : α → Run β} (h : run.Exhausts s) :
    (run >>= next).Exhausts s := by
  obtain ⟨s', he⟩ := h
  exact ⟨s', bind_of_error he⟩

end

end Run

end Enquanto

import Enquanto.Proofs.RunRules

/-!
# Runs that agree

Two runs agree when they give the same value, or stop for the same reason, in states that a relation
holds of. How they do so may differ: they may start in different states, and need not be runs of the
same machine.

* `Run.Related`: two outcomes are related, with values that may be of different kinds;
* `Run.Agree`: they also have the same value;
* `Run.Related.bind` and `Run.Agree.bind`: chains are related if their links are.
-/

namespace Enquanto

namespace Run

variable {α β γ δ : Type}

/-- Values and states with `done`, or the same reason to stop in states with `stop`. -/
inductive Related (done : α → β → State → State → Prop) (stop : State → State → Prop) :
    EStateM.Result Halt State α → EStateM.Result Halt State β → Prop
  | ok {a : α} {b : β} {s t : State} : done a b s t → Related done stop (.ok a s) (.ok b t)
  | error {halt : Halt} {s t : State} : stop s t →
    Related done stop (.error halt s) (.error halt t)

/-- The same value in states with `done`, or the same reason to stop in states with `stop`. -/
def Agree (done stop : State → State → Prop) :
    EStateM.Result Halt State α → EStateM.Result Halt State α → Prop :=
  Related (fun a b s t => a = b ∧ done s t) stop

section
variable {stop stop' : State → State → Prop} {s t : State}

/-- Chains are related if their first links are, and the second ones wherever the first ones end. -/
theorem Related.bind {mid : α → β → State → State → Prop} {done : γ → δ → State → State → Prop}
    {run : Run α} {run' : Run β} {next : α → Run γ} {next' : β → Run δ}
    (h : Related mid stop (run s) (run' t))
    (hnext : ∀ a b s t, mid a b s t → Related done stop (next a s) (next' b t)) :
    Related done stop ((run >>= next) s) ((run' >>= next') t) := by
  generalize hx : run s = x at h
  generalize hy : run' t = y at h
  cases h with
  | ok h =>
    rw [bind_of_ok hx, bind_of_ok hy]
    exact hnext _ _ _ _ h
  | error h =>
    rw [bind_of_error hx, bind_of_error hy]
    exact .error h

/-- What is known of one of the runs alone is added to what they have in common. -/
theorem Related.and_left {done : α → β → State → State → Prop}
    {x : EStateM.Result Halt State α} {y : EStateM.Result Halt State β} {p : State → Prop}
    (h : Related done stop x y) (hp : ∀ a s, x = .ok a s → p s) :
    Related (fun a b s t => done a b s t ∧ p s) stop x y := by
  cases h with
  | ok h => exact .ok ⟨h, hp _ _ rfl⟩
  | error h => exact .error h

/-- The value of the second run is changed in its last step. -/
theorem Related.map_right {done : α → β → State → State → Prop}
    {done' : α → γ → State → State → Prop} {x : EStateM.Result Halt State α} {run : Run β}
    {f : β → γ} (h : Related done stop x (run t))
    (hf : ∀ a b s t, done a b s t → done' a (f b) s t) :
    Related done' stop x ((do return f (← run) : Run γ) t) := by
  generalize hy : run t = y at h
  cases h with
  | ok h =>
    rw [bind_of_ok hy]
    exact .ok (hf _ _ _ _ h)
  | error h =>
    rw [bind_of_error hy]
    exact .error h

theorem Related.imp {done done' : α → β → State → State → Prop}
    {x : EStateM.Result Halt State α} {y : EStateM.Result Halt State β}
    (h : Related done stop x y) (hdone : ∀ a b s t, done a b s t → done' a b s t)
    (hstop : ∀ s t, stop s t → stop' s t) : Related done' stop' x y := by
  cases h with
  | ok h => exact .ok (hdone _ _ _ _ h)
  | error h => exact .error (hstop _ _ h)

end

section
variable {done done' stop stop' : State → State → Prop} {s t : State}

theorem Agree.ok {a : α} (h : done s t) : Agree done stop (.ok a s) (.ok a t) :=
  Related.ok ⟨rfl, h⟩

theorem Agree.error {halt : Halt} (h : stop s t) :
    Agree (α := α) done stop (.error halt s) (.error halt t) :=
  Related.error h

theorem Agree.imp {x y : EStateM.Result Halt State α} (h : Agree done stop x y)
    (hdone : ∀ s t, done s t → done' s t) (hstop : ∀ s t, stop s t → stop' s t) :
    Agree done' stop' x y :=
  Related.imp h (fun _ _ _ _ h => ⟨h.1, hdone _ _ h.2⟩) hstop

theorem Agree.bind {mid : State → State → Prop} {run run' : Run α} {next next' : α → Run β}
    (h : Agree mid stop (run s) (run' t))
    (hnext : ∀ a s t, mid s t → Agree done stop (next a s) (next' a t)) :
    Agree done stop ((run >>= next) s) ((run' >>= next') t) := by
  refine Related.bind h fun a b s t hab => ?_
  obtain ⟨rfl, hmid⟩ := hab
  exact hnext a s t hmid

theorem Agree.orSpan {run run' : Run α} (h : Agree done stop (run s) (run' t)) (span : Span) :
    Agree done stop (orSpan span run s) (Run.orSpan span run' t) := by
  unfold Run.orSpan
  generalize run s = x at h
  generalize run' t = y at h
  cases h with
  | ok h => exact Related.ok h
  | @error halt _ _ h => cases halt <;> exact .error h

theorem agree_pure {a : α} (h : done s t) :
    Agree done stop ((pure a : Run α) s) ((pure a : Run α) t) :=
  .ok h

theorem agree_throw {halt : Halt} (h : stop s t) :
    Agree done stop ((throw halt : Run α) s) ((throw halt : Run α) t) :=
  .error h

theorem agree_fault {cause : Fault.Cause} {span : Option Span} (h : stop s t) :
    Agree done stop ((fault cause span : Run α) s) ((fault cause span : Run α) t) :=
  .error h

/-- Both runs take the same branch. -/
theorem agree_ite {c : Prop} [Decidable c] {run run' : Run α} {other other' : Run α}
    (h : c → Agree done stop (run s) (run' t)) (h' : ¬ c → Agree done stop (other s) (other' t)) :
    Agree done stop ((if c then run else other) s) ((if c then run' else other') t) := by
  by_cases hc : c
  · simp only [if_pos hc]
    exact h hc
  · simp only [if_neg hc]
    exact h' hc

theorem agree_lookup {scope scope' : ScopeId} {name : Name} (h : done s t)
    (hv : s.env.lookup scope name = t.env.lookup scope' name) :
    Agree done stop (lookup scope name s) (lookup scope' name t) := by
  show Agree done stop (.ok (s.env.lookup scope name) s) (.ok (t.env.lookup scope' name) t)
  rw [hv]
  exact .ok h

theorem agree_readInt {span : Span} (hinput : s.input = t.input)
    (hdone : ∀ input, done { s with input } { t with input })
    (hstop : ∀ input, stop { s with input } { t with input }) :
    Agree done stop (readInt span s) (readInt span t) := by
  rcases h : t.input.readInt with ⟨error | value, input⟩
  · rw [readInt_of_error (hinput ▸ h), readInt_of_error h]
    exact .error (hstop input)
  · rw [readInt_of_ok (hinput ▸ h), readInt_of_ok h]
    exact .ok (hdone input)

end

end Run

end Enquanto

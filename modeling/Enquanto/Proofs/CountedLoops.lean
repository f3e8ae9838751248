import Enquanto.Proofs.FrameRule
import Enquanto.Proofs.FuelBounds
import Mathlib.Tactic.Linarith
import Mathlib.Tactic.Ring

/-!
# Counting loops

A counting loop whose step is a positive literal, and whose body leaves the variable alone, counts:
the body starts with the first value, then with that value and one step, then with two steps, and so
on, without ever wrapping around. There are finitely many such values, so the loop ends as soon as
each execution of its body does, even if its bound moves.

* `Machine.StartsBody`: the states in which the executions of the body start, by their number, and
  `Machine.StartsBody.ends_iff`: the loop ends as what is left of it ends from there;
* `CountLoop.Steady`: what the law needs of the parts of a loop;
* `CountLoop.Steady.toInt_eq`: the value that the variable has when an execution of the body starts;
* `CountLoop.Steady.exists_bodyRuns`: the body runs a number of times, which is bounded;
* `CountLoop.Steady.ends_of_bodies` and `CountLoop.Steady.lookup_of_ends`: the end of the loop;
* `CountLoop.Steady.bodyRuns_of_literal`: the number of runs up to a fixed bound;
* `Module.parse_counts`: the same of the counting loops of a source.
-/

namespace Enquanto

open Filter Run Flattening

/-! ## Runs that go on -/

namespace Run

variable {α : Type} {run run' : Nat → Run α} {s t s' : State} {r : Except Fault α}

/-- With enough fuel, the run from `s` goes on as another run from `t`, with less fuel. -/
def GoesOn (run : Nat → Run α) (s : State) (run' : Nat → Run α) (t : State) : Prop :=
  ∀ᶠ fuel in atTop, run (fuel + 1) s = run' fuel t

/-- A run ends as the run ends that it goes on with. -/
theorem GoesOn.ends_iff (h : GoesOn run s run' t) : Ends run s r s' ↔ Ends run' t r s' := by
  have hsucc : Ends run s r s' ↔ ∀ᶠ fuel in atTop, run (fuel + 1) s = ended r s' := by
    show (∀ᶠ fuel in atTop, run fuel s = ended r s') ↔ _
    conv_lhs => rw [← map_add_atTop_eq_nat 1]
    exact eventually_map
  rw [hsucc]
  constructor
  · intro hr
    filter_upwards [h, hr] with fuel hfuel hend
    rw [← hfuel, hend]
  · intro hr
    filter_upwards [h, hr] with fuel hfuel hend
    rw [hfuel, hend]

end Run

/-! ## The executions of a body -/

/-- The parts of a counting loop. -/
structure CountLoop where
  var : Name
  scope : ScopeId
  start : ExprId
  stop : ExprId
  step : ExprId
  body : CommandId

namespace CountLoop

def node (loop : CountLoop) : CommandNode :=
  .count loop.var loop.scope loop.start loop.stop loop.step loop.body

/-- The value of the variable. -/
def value (loop : CountLoop) (s : State) : Int32 := s.env.lookup loop.scope loop.var

/-- The state with a value stored in the variable. -/
def set (loop : CountLoop) (s : State) (value : Int32) : State :=
  s.store loop.scope loop.var value

end CountLoop

namespace Machine

/-- The value of an expression outside of all calls, with enough fuel. -/
abbrev Evaluated (m : Machine) (id : ExprId) (s : State) (r : Except Fault Int32) (s' : State) :
    Prop :=
  Ends (fun fuel => m.evalExpr fuel 0 id) s r s'

/-- The end of a command, with enough fuel. -/
abbrev Executed (m : Machine) (id : CommandId) (s : State) (r : Except Fault Unit) (s' : State) :
    Prop :=
  Ends (fun fuel => m.exec fuel id) s r s'

/-- What is left of a counting loop when its body is to run. -/
def turns (m : Machine) (loop : CountLoop) (fuel : Nat) : Run Unit :=
  m.execCount fuel loop.var loop.scope loop.stop loop.step loop.body

/-- The loop is entered from `s`, and its body starts in `t`. -/
inductive Enters (m : Machine) (loop : CountLoop) (s : State) : State → Prop
  | intro {first bound : Int32} {s₁ t : State} :
    m.Evaluated loop.start s (.ok first) s₁ →
    m.Evaluated loop.stop (loop.set s₁ first) (.ok bound) t → first ≤ bound → Enters m loop s t

/-- The body runs from `t`, and then once more from the second state. -/
inductive Turns (m : Machine) (loop : CountLoop) (t : State) : State → Prop
  | intro {t₁ t₂ t₃ : State} {amount next bound : Int32} :
    m.Executed loop.body t (.ok ()) t₁ → m.Evaluated loop.step t₁ (.ok amount) t₂ →
    advance? (loop.value t₁) amount = some next → m.Evaluated loop.stop t₂ (.ok bound) t₃ →
    next ≤ bound → Turns m loop t (loop.set t₃ next)

/-- When the loop runs from `s`, the execution of its body with number `j`, counted from 0, starts
in the state. -/
inductive StartsBody (m : Machine) (loop : CountLoop) (s : State) : (j : Nat) → State → Prop
  | first {t : State} : m.Enters loop s t → StartsBody m loop s 0 t
  | next {j : Nat} {t t' : State} :
    StartsBody m loop s j t → m.Turns loop t t' → StartsBody m loop s (j + 1) t'

/-- When the loop runs from `s`, its body is executed `n` times. -/
def BodyRuns (m : Machine) (loop : CountLoop) (s : State) (n : Nat) : Prop :=
  ∀ j, (∃ t, m.StartsBody loop s j t) ↔ j < n

section
variable {m : Machine} {loop : CountLoop} {id : CommandId} {span : Span} {s t t' : State} {j : Nat}

theorem Enters.goesOn (hn : m.module.arena.command? id = some ⟨loop.node, span⟩)
    (h : m.Enters loop s t) : GoesOn (fun fuel => m.exec fuel id) s (m.turns loop) t := by
  obtain ⟨hstart, hstop, hle⟩ := h
  filter_upwards [hstart, hstop] with fuel hstart hstop
  rw [exec_count hn, bind_of_ok hstart]
  exact (bind_of_ok hstop).trans (by rw [if_pos hle]; rfl)

theorem Turns.goesOn (h : m.Turns loop t t') : GoesOn (m.turns loop) t (m.turns loop) t' := by
  obtain @⟨t₁, t₂, t₃, amount, next, bound, hbody, hstep, hnext, hstop, hle⟩ := h
  have hlookup : lookup loop.scope loop.var t₁ = .ok (loop.value t₁) t₁ := rfl
  filter_upwards [hbody, hstep, hstop] with fuel hbody hstep hstop
  rw [turns, execCount_succ, bind_of_ok hbody, bind_of_ok hlookup, bind_of_ok hstep, hnext]
  refine (bind_of_ok hstop).trans ?_
  rw [if_pos hle]
  rfl

/-- The loop ends as what is left of it when an execution of its body starts. -/
theorem StartsBody.ends_iff (hn : m.module.arena.command? id = some ⟨loop.node, span⟩)
    (h : m.StartsBody loop s j t) {r : Except Fault Unit} {s' : State} :
    m.Executed id s r s' ↔ Ends (m.turns loop) t r s' := by
  induction h with
  | first h => exact (h.goesOn hn).ends_iff
  | next _ h ih => exact ih.trans h.goesOn.ends_iff

theorem StartsBody.exists_pred (h : m.StartsBody loop s (j + 1) t) :
    ∃ t', m.StartsBody loop s j t' := by
  cases h with
  | next h _ => exact ⟨_, h⟩

theorem StartsBody.exists_of_le (h : m.StartsBody loop s j t) {i : Nat} (hi : i ≤ j) :
    ∃ t', m.StartsBody loop s i t' := by
  induction hi using Nat.decreasingInduction generalizing t with
  | self => exact ⟨t, h⟩
  | of_succ i hi ih =>
    obtain ⟨t', h'⟩ := ih h
    exact h'.exists_pred

end

end Machine

/-! ## Loops that count -/

namespace CountLoop

/-- What the law needs of a loop: its step is a literal, its bound always has a value or a fault,
and neither the bound nor the body changes the variable. `holds` says of a state that the variable
has a value that was stored. -/
structure Steady (loop : CountLoop) (m : Machine) (amount : Int32)
    (holds : State → Int32 → Prop) : Prop where
  value : ∀ {t v}, holds t v → loop.value t = v
  set : ∀ {t v} (next : Int32), holds t v → holds (loop.set t next) next
  step : ∀ t, m.Evaluated loop.step t (.ok amount) t
  stop : ∀ {t v}, holds t v → ∃ r t', m.Evaluated loop.stop t r t' ∧ holds t' v
  body : ∀ {t v fuel r t'}, holds t v → m.exec fuel loop.body t = ended r t' →
    m.Executed loop.body t r t' ∧ holds t' v

namespace Steady

variable {m : Machine} {loop : CountLoop} {amount : Int32} {holds : State → Int32 → Prop}
  {id : CommandId} {span : Span} {t t' : State} {v : Int32} {j : Nat}

section
variable (h : loop.Steady m amount holds)
include h

theorem holds_stop {r : Except Fault Int32} (hv : holds t v) (hr : m.Evaluated loop.stop t r t') :
    holds t' v := by
  obtain ⟨r₁, t₁, hr₁, hv₁⟩ := h.stop hv
  obtain ⟨rfl, rfl⟩ := hr.unique hr₁
  exact hv₁

theorem holds_body {r : Except Fault Unit} (hv : holds t v) (hr : m.Executed loop.body t r t') :
    holds t' v := by
  obtain ⟨fuel, hfuel⟩ := hr.exists
  exact (h.body hv hfuel).2

/-- From one execution of the body to the next, the variable moves by one step. -/
theorem holds_turns (hv : holds t v) (ht : m.Turns loop t t') :
    ∃ next, holds t' next ∧ next.toInt = v.toInt + amount.toInt := by
  obtain @⟨t₁, t₂, t₃, amount', next, bound, hbody, hstep, hnext, hstop, hle⟩ := ht
  have hv₁ := h.holds_body hv hbody
  obtain ⟨hamount, rfl⟩ := hstep.unique (h.step t₁)
  obtain rfl := Except.ok.inj hamount
  rw [h.value hv₁] at hnext
  exact ⟨next, h.set next (h.holds_stop hv₁ hstop), Machine.advance?_eq_some_iff.mp hnext⟩

/-- What is left of a loop ends if its body ends and is not to run once more. -/
theorem exists_ends_turns (hv : holds t v) {r : Except Fault Unit}
    (hbody : m.Executed loop.body t r t') (hlast : ∀ t', ¬ m.Turns loop t t') :
    ∃ r s', Ends (m.turns loop) t r s' ∧ holds s' v := by
  have hv₁ := h.holds_body hv hbody
  cases r with
  | error f => exact ⟨_, _, hbody.fault.of_succ fun _ => Machine.execCount_succ, hv₁⟩
  | ok _ =>
    cases hnext : Machine.advance? (loop.value t') amount with
    | none =>
      refine ⟨.ok (), t', Ends.of_succ (hbody.bind (ends_lookup.bind ((h.step t').bind ?_)))
        fun _ => Machine.execCount_succ, hv₁⟩
      rw [show t'.env.lookup loop.scope loop.var = loop.value t' from rfl, hnext]
      exact ends_pure
    | some next =>
      obtain ⟨r, t₃, hstop, hv₃⟩ := h.stop hv₁
      refine ⟨r.map fun _ => (), t₃, Ends.of_succ (hbody.bind (ends_lookup.bind
        ((h.step t').bind ?_))) fun _ => Machine.execCount_succ, hv₃⟩
      rw [show t'.env.lookup loop.scope loop.var = loop.value t' from rfl, hnext]
      cases r with
      | error f => exact hstop.fault
      | ok bound =>
        refine hstop.bind ?_
        by_cases hle : next ≤ bound
        · exact absurd (.intro hbody (h.step t') hnext hstop hle) (hlast _)
        · simp only [if_neg hle]
          exact ends_pure

/-- When what is left of a loop ends, so does the execution of its body, and with the same fault if
there is one. -/
theorem executed_body (hv : holds t v) {r : Except Fault Unit} {s' : State}
    (hr : Ends (m.turns loop) t r s') :
    (∃ t₁, m.Executed loop.body t (.ok ()) t₁) ∨ ∃ f, r = .error f := by
  obtain ⟨fuel, hfuel, hpos⟩ := (hr.and (eventually_ge_atTop 1)).exists
  obtain ⟨fuel, rfl⟩ := Nat.exists_eq_add_of_le' hpos
  rw [Machine.turns, Machine.execCount_succ] at hfuel
  cases hbody : m.exec fuel loop.body t with
  | ok _ t₁ => exact .inl ⟨t₁, (h.body (r := .ok ()) hv hbody).1⟩
  | error halt t₁ =>
    rw [bind_of_error hbody] at hfuel
    cases r with
    | ok _ => cases hfuel
    | error f => exact .inr ⟨f, rfl⟩

end

/-! ### From the first value on -/

section
variable (h : loop.Steady m amount holds) {s s₁ : State} {a : Int32}
  (hstart : m.Evaluated loop.start s (.ok a) s₁) (ha : holds (loop.set s₁ a) a)
include h hstart ha

theorem holds_enters (ht : m.Enters loop s t) : holds t a ∧ ∃ bound,
    m.Evaluated loop.stop (loop.set s₁ a) (.ok bound) t ∧ a ≤ bound := by
  obtain @⟨first, bound, _, _, hstart', hstop, hle⟩ := ht
  obtain ⟨hfirst, rfl⟩ := hstart'.unique hstart
  obtain rfl := Except.ok.inj hfirst
  exact ⟨h.holds_stop ha hstop, bound, hstop, hle⟩

/-- Before the execution of the body with number `j`, the variable has been moved by `j` steps. -/
theorem exists_holds (ht : m.StartsBody loop s j t) :
    ∃ v, holds t v ∧ v.toInt = a.toInt + j * amount.toInt := by
  induction ht with
  | first ht => exact ⟨a, (h.holds_enters hstart ha ht).1, by simp⟩
  | next _ ht ih =>
    obtain ⟨v, hv, heq⟩ := ih
    obtain ⟨next, hnext, hmoved⟩ := h.holds_turns hv ht
    refine ⟨next, hnext, ?_⟩
    rw [hmoved, heq]
    push_cast
    ring

theorem toInt_eq (ht : m.StartsBody loop s j t) :
    (loop.value t).toInt = a.toInt + j * amount.toInt := by
  obtain ⟨v, hv, heq⟩ := h.exists_holds hstart ha ht
  rw [h.value hv, heq]

/-- Only so many values are left. -/
theorem le_of_startsBody (hpos : 1 ≤ amount.toInt) (ht : m.StartsBody loop s j t) :
    (j : Int) ≤ (2147483647 - a.toInt) / amount.toInt := by
  have heq := h.toInt_eq hstart ha ht
  have hmax := (Machine.toInt_bounds (loop.value t)).2
  exact Int.le_ediv_of_mul_le (by omega) (by omega)

/-- The body is executed a number of times. -/
theorem exists_bodyRuns (hpos : 1 ≤ amount.toInt) : ∃ n, m.BodyRuns loop s n := by
  classical
  have hex : ∃ j, ¬ ∃ t, m.StartsBody loop s j t := by
    refine ⟨((2147483647 - a.toInt) / amount.toInt).toNat + 1, ?_⟩
    rintro ⟨t, ht⟩
    have := h.le_of_startsBody hstart ha hpos ht
    omega
  refine ⟨Nat.find hex, fun j => ⟨fun ⟨t, ht⟩ => ?_, fun hj => not_not.mp (Nat.find_min hex hj)⟩⟩
  by_contra hj
  exact Nat.find_spec hex (ht.exists_of_le (Nat.le_of_not_lt hj))

/-- The body is executed at most once for each value that is left. -/
theorem bodyRuns_le (hpos : 1 ≤ amount.toInt) {n : Nat} (hruns : m.BodyRuns loop s n) :
    (n : Int) ≤ (2147483647 - a.toInt) / amount.toInt + 1 := by
  cases n with
  | zero =>
    have hleft : 0 ≤ (2147483647 - a.toInt) / amount.toInt :=
      Int.ediv_nonneg (by linarith [(Machine.toInt_bounds a).2]) (by omega)
    simpa using Int.add_nonneg hleft Int.one_nonneg
  | succ k =>
    obtain ⟨t, ht⟩ := (hruns k).mpr (Nat.lt_succ_self k)
    have := h.le_of_startsBody hstart ha hpos ht
    omega

/-- A loop whose body never starts ends, and leaves the first value in the variable. -/
theorem exists_executed_of_not_enters (hn : m.module.arena.command? id = some ⟨loop.node, span⟩)
    (hno : ∀ t, ¬ m.Enters loop s t) : ∃ r s', m.Executed id s r s' ∧ holds s' a := by
  obtain ⟨r, t, hstop, ht⟩ := h.stop ha
  refine ⟨r.map fun _ => (), t, Ends.of_succ (hstart.bind (ends_store.bind ?_))
    fun _ => Machine.exec_count hn, ht⟩
  cases r with
  | error f => exact hstop.fault
  | ok bound =>
    refine hstop.bind ?_
    by_cases hle : a ≤ bound
    · exact absurd (.intro hstart hstop hle) (hno t)
    · simp only [if_neg hle]
      exact ends_pure

/-- The loop ends if the last execution of its body does, and leaves the value in the variable that
the execution started with. -/
theorem exists_executed_of_last (hn : m.module.arena.command? id = some ⟨loop.node, span⟩)
    {n : Nat} (hruns : m.BodyRuns loop s (n + 1)) (ht : m.StartsBody loop s n t)
    {r : Except Fault Unit} (hbody : m.Executed loop.body t r t') :
    ∃ r s', m.Executed id s r s' ∧ loop.value s' = loop.value t := by
  obtain ⟨v, hv, -⟩ := h.exists_holds hstart ha ht
  have hlast : ∀ t', ¬ m.Turns loop t t' := fun t' htt' =>
    absurd ((hruns (n + 1)).mp ⟨t', .next ht htt'⟩) (Nat.lt_irrefl _)
  obtain ⟨r, s', hr, hs'⟩ := h.exists_ends_turns hv hbody hlast
  exact ⟨r, s', (ht.ends_iff hn).mpr hr, by rw [h.value hs', h.value hv]⟩

/-- If each execution of the body ends, so does the loop. -/
theorem exists_executed (hn : m.module.arena.command? id = some ⟨loop.node, span⟩)
    (hpos : 1 ≤ amount.toInt)
    (hbodies : ∀ j t, m.StartsBody loop s j t → ∃ r t', m.Executed loop.body t r t') :
    ∃ r s', m.Executed id s r s' := by
  obtain ⟨n, hruns⟩ := h.exists_bodyRuns hstart ha hpos
  cases n with
  | zero =>
    have hno : ∀ t, ¬ m.Enters loop s t := fun t ht =>
      absurd ((hruns 0).mp ⟨t, .first ht⟩) (Nat.lt_irrefl 0)
    obtain ⟨r, s', hr, -⟩ := h.exists_executed_of_not_enters hstart ha hn hno
    exact ⟨r, s', hr⟩
  | succ k =>
    obtain ⟨t, ht⟩ := (hruns k).mpr (Nat.lt_succ_self k)
    obtain ⟨r, t', hbody⟩ := hbodies k t ht
    obtain ⟨r, s', hr, -⟩ := h.exists_executed_of_last hstart ha hn hruns ht hbody
    exact ⟨r, s', hr⟩

/-- In a run of the loop that ends without a fault, each execution of the body ends so too. -/
theorem executed_bodies (hn : m.module.arena.command? id = some ⟨loop.node, span⟩) {s' : State}
    (hr : m.Executed id s (.ok ()) s') (ht : m.StartsBody loop s j t) :
    ∃ t', m.Executed loop.body t (.ok ()) t' := by
  obtain ⟨v, hv, -⟩ := h.exists_holds hstart ha ht
  rcases h.executed_body hv ((ht.ends_iff hn).mp hr) with hbody | ⟨f, hf⟩
  · exact hbody
  · cases hf

/-- After a loop without a fault, the variable has the value that the last execution of the body
started with, or the first value if there was none. -/
theorem value_eq (hn : m.module.arena.command? id = some ⟨loop.node, span⟩) {n : Nat}
    (hruns : m.BodyRuns loop s n) {s' : State} (hr : m.Executed id s (.ok ()) s') :
    (n = 0 ∧ loop.value s' = a) ∨
      ∃ k t, n = k + 1 ∧ m.StartsBody loop s k t ∧ loop.value s' = loop.value t := by
  cases n with
  | zero =>
    have hno : ∀ t, ¬ m.Enters loop s t := fun t ht =>
      absurd ((hruns 0).mp ⟨t, .first ht⟩) (Nat.lt_irrefl 0)
    obtain ⟨r₁, s₂, hr₁, hs₂⟩ := h.exists_executed_of_not_enters hstart ha hn hno
    obtain ⟨-, rfl⟩ := hr.unique hr₁
    exact .inl ⟨rfl, h.value hs₂⟩
  | succ k =>
    obtain ⟨t, ht⟩ := (hruns k).mpr (Nat.lt_succ_self k)
    obtain ⟨t', hbody⟩ := h.executed_bodies hstart ha hn hr ht
    obtain ⟨r₁, s₂, hr₁, heq⟩ := h.exists_executed_of_last hstart ha hn hruns ht hbody
    obtain ⟨-, rfl⟩ := hr.unique hr₁
    exact .inr ⟨k, t, rfl, ht, heq⟩

/-! ### Up to a literal -/

section
variable {b : Int32} (hb : ∀ t, m.Evaluated loop.stop t (.ok b) t)
include hb

/-- No execution of the body starts past the bound. -/
theorem le_bound (ht : m.StartsBody loop s j t) : a.toInt + j * amount.toInt ≤ b.toInt := by
  cases ht with
  | first ht =>
    obtain ⟨-, bound, hstop, hle⟩ := h.holds_enters hstart ha ht
    obtain ⟨hbound, -⟩ := hstop.unique (hb _)
    obtain rfl := Except.ok.inj hbound
    simpa using Int32.le_iff_toInt_le.mp hle
  | next ht hnext =>
    rw [← h.toInt_eq hstart ha (.next ht hnext)]
    obtain ⟨v, hv, -⟩ := h.exists_holds hstart ha ht
    obtain @⟨t₁, t₂, t₃, _, next, bound, hbody, hstep, -, hstop, hle⟩ := hnext
    obtain ⟨-, rfl⟩ := hstep.unique (h.step t₁)
    have hv₃ := h.holds_stop (h.holds_body hv hbody) hstop
    obtain ⟨hbound, -⟩ := hstop.unique (hb _)
    obtain rfl := Except.ok.inj hbound
    rw [h.value (h.set next hv₃)]
    exact Int32.le_iff_toInt_le.mp hle

/-- In a run that ends without a fault, the body starts at every value up to the bound. -/
theorem exists_startsBody (hn : m.module.arena.command? id = some ⟨loop.node, span⟩) {s' : State}
    (hr : m.Executed id s (.ok ()) s') (hpos : 1 ≤ amount.toInt)
    (hj : a.toInt + j * amount.toInt ≤ b.toInt) : ∃ t, m.StartsBody loop s j t := by
  induction j with
  | zero => exact ⟨_, .first (.intro hstart (hb _) (Int32.le_iff_toInt_le.mpr (by simpa using hj)))⟩
  | succ j ih =>
    have hstep : ((j + 1 : Nat) : Int) * amount.toInt = j * amount.toInt + amount.toInt := by
      push_cast
      ring
    obtain ⟨t, ht⟩ := ih (by omega)
    obtain ⟨v, hv, heq⟩ := h.exists_holds hstart ha ht
    obtain ⟨t', hbody⟩ := h.executed_bodies hstart ha hn hr ht
    have hmin := (Machine.toInt_bounds v).1
    have hmax := (Machine.toInt_bounds b).2
    have hnext : (Int32.ofInt (v.toInt + amount.toInt)).toInt = v.toInt + amount.toInt :=
      Int32.toInt_ofInt_of_le (by omega) (by omega)
    have hadvance : Machine.advance? (loop.value t') amount =
        some (Int32.ofInt (v.toInt + amount.toInt)) := by
      rw [h.value (h.holds_body hv hbody)]
      exact Machine.advance?_eq_some_iff.mpr hnext
    refine ⟨_, .next ht (.intro hbody (h.step t') hadvance (hb t') ?_)⟩
    rw [Int32.le_iff_toInt_le, hnext]
    omega

/-- Up to a literal, and without a fault, the body runs once for each value. -/
theorem bodyRuns_eq (hn : m.module.arena.command? id = some ⟨loop.node, span⟩) {s' : State}
    (hr : m.Executed id s (.ok ()) s') (hpos : 1 ≤ amount.toInt) {n : Nat}
    (hruns : m.BodyRuns loop s n) :
    (n : Int) = if a ≤ b then (b.toInt - a.toInt) / amount.toInt + 1 else 0 := by
  have hiff : ∀ j : Nat, j < n ↔ a.toInt + j * amount.toInt ≤ b.toInt := fun j =>
    (hruns j).symm.trans ⟨fun ⟨_, ht⟩ => h.le_bound hstart ha hb ht,
      h.exists_startsBody hstart ha hb hn hr hpos⟩
  have hdiv : ∀ j : Nat, j < n ↔ (j : Int) ≤ (b.toInt - a.toInt) / amount.toInt := fun j => by
    rw [hiff j, Int.le_ediv_iff_mul_le (by omega)]
    omega
  split
  · next hle =>
    have hnonneg : 0 ≤ (b.toInt - a.toInt) / amount.toInt :=
      Int.ediv_nonneg (by linarith [Int32.le_iff_toInt_le.mp hle]) (by omega)
    have hlast := (hdiv ((b.toInt - a.toInt) / amount.toInt).toNat).mpr (by omega)
    have hover := mt (hdiv (((b.toInt - a.toInt) / amount.toInt).toNat + 1)).mp (by omega)
    omega
  · next hle =>
    have hnone := mt (hiff 0).mp (by simpa [Int32.le_iff_toInt_le] using hle)
    omega

end

end

end Steady

end CountLoop

/-! ## Commands store in the root -/

/-- All commands of a flattening are in the scope. -/
def Flattening.CommandsIn (f : Flattening) (scope : ScopeId) : Prop := ∀ x ∈ f.commands, x.1 = scope

section
variable {scope : ScopeId}

namespace Flattening

theorem CommandsIn.nil {f : Flattening} (h : f.commands = []) : f.CommandsIn scope := by
  intro x hx
  rw [h] at hx
  cases hx

theorem CommandsIn.append {f g : Flattening} (hf : f.CommandsIn scope) (hg : g.CommandsIn scope) :
    (f ++ g).CommandsIn scope :=
  List.forall_mem_append.mpr ⟨hf, hg⟩

theorem CommandsIn.self (c : Command) : (Flattening.command scope c).CommandsIn scope := by
  intro x hx
  rw [List.mem_singleton.mp hx]

end Flattening

mutual

theorem Expr.flat_commands : ∀ e : Expr, (e.flat scope).commands = []
  | .int _ _ | .var _ _ | .read _ => rfl
  | .neg e _ => by simp [Expr.flat, Flattening.expr, e.flat_commands]
  | .arith _ l r _ => by simp [Expr.flat, Flattening.expr, l.flat_commands, r.flat_commands]
  | .call _ args _ => by simp [Expr.flat, Flattening.expr, Expr.flatAll_commands args]

theorem Expr.flatAll_commands : ∀ es : List Expr, (Expr.flatAll scope es).commands = []
  | [] => rfl
  | e :: es => by simp [Expr.flatAll, e.flat_commands, Expr.flatAll_commands es]

end

theorem Expr.commandsIn (e : Expr) (other : ScopeId) : (e.flat other).CommandsIn scope :=
  .nil e.flat_commands

theorem Pred.commandsIn (p : Pred) : (p.flat scope).CommandsIn scope := by
  induction p with
  | lit value span => exact .nil rfl
  | not p span ih => exact ih.append (.nil rfl)
  | logic op l r span ihl ihr => exact (ihl.append ihr).append (.nil rfl)
  | rel op l r span => exact ((l.commandsIn scope).append (r.commandsIn scope)).append (.nil rfl)

mutual

theorem Command.commandsIn : ∀ c : Command, (c.flat scope).CommandsIn scope
  | .skip _ | .printText _ _ => .self _
  | .assign _ e _ | .printInt e _ => (e.commandsIn scope).append (.self _)
  | .block body _ => (Command.commandsIn_flatAll body).append (.self _)
  | .cond test body others last _ =>
    (((test.commandsIn.append body.commandsIn).append
      (Command.commandsIn_flatBranches others)).append last.commandsIn).append (.self _)
  | .loop test body _ => (test.commandsIn.append body.commandsIn).append (.self _)
  | .count _ start stop step body _ =>
    ((((start.commandsIn scope).append (stop.commandsIn scope)).append
      (step.commandsIn scope)).append body.commandsIn).append (.self _)
  | .switch selector cases default _ =>
    (((selector.commandsIn scope).append (Command.commandsIn_flatCases cases)).append
      default.commandsIn).append (.self _)

theorem Command.commandsIn_flatAll : ∀ cs : List Command,
    (Command.flatAll scope cs).CommandsIn scope
  | [] => .nil rfl
  | c :: cs => c.commandsIn.append (Command.commandsIn_flatAll cs)

theorem Command.commandsIn_flatBranches : ∀ bs : List (Pred × Command),
    (Command.flatBranches scope bs).CommandsIn scope
  | [] => .nil rfl
  | (test, body) :: rest =>
    (test.commandsIn.append body.commandsIn).append (Command.commandsIn_flatBranches rest)

theorem Command.commandsIn_flatCases : ∀ cs : List (Int32 × Command),
    (Command.flatCases scope cs).CommandsIn scope
  | [] => .nil rfl
  | (_, body) :: rest => body.commandsIn.append (Command.commandsIn_flatCases rest)

end

end

theorem Program.commandsIn_flatFrom (program : Program) (declared : Nat) :
    (program.flatFrom declared).CommandsIn .root := by
  induction program generalizing declared with
  | nil => exact .nil rfl
  | cons instruction rest ih =>
    cases instruction with
    | command c => exact c.commandsIn.append (ih declared)
    | declare d => exact (d.body.commandsIn _).append (ih (declared + 1))

/-- Every command of a module is one of the program, with its variables in the root. -/
theorem Module.Represents.exists_rootCommand {m : Module} {program : Program}
    (h : m.Represents program) {id : CommandId} {node : Located CommandNode}
    (hn : m.arena.command? id = some node) :
    ∃ c, m.arena.HoldsCommand .root c id ∧ (c.flat .root).Within program.flat := by
  obtain ⟨scope, c, hc, hholds⟩ := h.arena.exists_holdsCommand hn
  obtain rfl : scope = .root := program.commandsIn_flatFrom 0 _ hc
  exact ⟨c, hholds, program.whole_flat.commands _ c hc⟩

/-! ## Counting loops of a program -/

theorem Arena.HoldsCommand.eq_count {a : Arena} {scope scope' : ScopeId} {c : Command}
    {id b : CommandId} {var : Name} {i j k : ExprId} {span : Span}
    (h : a.HoldsCommand scope c id)
    (hn : a.command? id = some ⟨.count var scope' i j k b, span⟩) :
    scope' = scope ∧ ∃ start stop step body, c = .count var start stop step body span ∧
      a.HoldsExpr scope start i ∧ a.HoldsExpr scope stop j ∧ a.HoldsExpr scope step k ∧
      a.HoldsCommand scope body b := by
  cases c with
  | count var start stop step body span =>
    obtain ⟨i', j', k', b', hn', -, hi, hj, hk, hb⟩ := h
    cases hn.symm.trans hn'
    exact ⟨rfl, start, stop, step, body, rfl, hi, hj, hk, hb⟩
  | skip _ | printText _ _ => cases hn.symm.trans h
  | assign _ _ _ | printInt _ _ =>
    obtain ⟨v, hn', -⟩ := h
    cases hn.symm.trans hn'
  | block _ _ =>
    obtain ⟨slice, ids, hn', -⟩ := h
    cases hn.symm.trans hn'
  | cond _ _ _ _ _ =>
    obtain ⟨t, b, slice, os, l, hn', -⟩ := h
    cases hn.symm.trans hn'
  | loop _ _ _ =>
    obtain ⟨t, b, hn', -⟩ := h
    cases hn.symm.trans hn'
  | switch _ _ _ _ =>
    obtain ⟨s, slice, cs, d, hn', -⟩ := h
    cases hn.symm.trans hn'

/-- A variable is seen from a scope in whose own frame it is stored. -/
theorem Environment.lookup_of_getLocal? {env : Environment} {scope : ScopeId} {name : Name}
    {value : Int32} (hs : scope.index < env.size) (h : env.getLocal? scope name = some value) :
    env.lookup scope name = value := by
  obtain ⟨n, hn⟩ : ∃ n, env.frames.size = n + 1 :=
    ⟨env.frames.size - 1, by unfold size at hs; omega⟩
  rw [lookup, clamp_of_lt hs, hn, lookupFrom_succ, h]

namespace Machine

variable {m : Machine} {w : Setting} {scope : ScopeId} {s s' : State}

/-- What an expression of the program leaves unchanged. -/
theorem Evaluated.root_eq (hm : m.Serves w) {e : Expr} {id : ExprId} {r : Except Fault Int32}
    (h : m.Evaluated id s r s') (hid : m.module.arena.HoldsExpr scope e id)
    (hw : (e.flat scope).Within w.program.flat)
    (hs : w.program.declarations.length < s.env.size) :
    w.program.declarations.length < s'.env.size ∧
      ∀ x, s'.env.getLocal? .root x = s.env.getLocal? .root x := by
  obtain ⟨fuel, hfuel⟩ := h.exists
  have hc := ((evalExpr_yields hm fuel 0 hid hw s).of_ended hfuel).changesOnly hs
  exact ⟨hc.size ▸ hs, hc.getLocal?_root⟩

/-- In a program, a loop with a literal step and a body that does not store the variable is
steady. -/
theorem steady_of_serves (hm : m.Serves w) {loop : CountLoop} {id : CommandId} {span span' : Span}
    {amount : Int32} (hn : m.module.arena.command? id = some ⟨loop.node, span⟩)
    (hstep : m.module.arena.expr? loop.step = some ⟨.int amount, span'⟩)
    (hbody : ¬ m.module.StoresBelow (.command loop.body) loop.var) :
    loop.scope = .root ∧ loop.Steady m amount fun t v =>
      w.program.declarations.length < t.env.size ∧ t.env.getLocal? .root loop.var = some v := by
  obtain ⟨c, hc, hw⟩ := hm.module.exists_rootCommand hn
  obtain ⟨hscope, start, stop, step, body, rfl, hi, hj, hk, hb⟩ := hc.eq_count hn
  simp only [Command.flat, within_append] at hw
  obtain ⟨⟨⟨⟨hwi, hwj⟩, -⟩, hwb⟩, -⟩ := hw
  refine ⟨hscope, ?_, ?_, ?_, ?_, ?_⟩
  · rintro t v ⟨ht, hv⟩
    rw [CountLoop.value, hscope]
    exact Environment.lookup_of_getLocal? (Nat.zero_lt_of_lt ht) hv
  · rintro t v next ⟨ht, -⟩
    rw [CountLoop.set, hscope]
    exact ⟨by rwa [State.store, Environment.size_store],
      Environment.getLocal?_store_self (Nat.zero_lt_of_lt ht)⟩
  · exact fun t => ends_pure.of_succ fun _ => evalExpr_int hstep
  · rintro t v ⟨ht, hv⟩
    obtain ⟨r, t', hr⟩ := (evalExpr_terminates hm 0 hj hwj).exists_ends t
    obtain ⟨ht', heq⟩ := Evaluated.root_eq hm hr hj hwj ht
    exact ⟨r, t', hr, ht', (heq _).trans hv⟩
  · rintro t v fuel r t' ⟨ht, hv⟩ hr
    have hexec := ((Implements.command hb).yields hm hwb fuel t).of_ended hr
    have hkeep := w.keepsIn_getLocal?_root .root loop.var (some v)
    have hallowed : ∀ x ∈ (Work.command body).targets, x ≠ loop.var := by
      rintro x hx rfl
      exact hbody (hb.storesBelow hx)
    exact ⟨Implements.ends hm hexec (.command hb) hwb,
      (hexec.keepsIn hkeep hwb hallowed ⟨ht, hv⟩).1⟩

/-- A run of a command that ended with some fuel ends so with enough fuel. -/
theorem executed_of_ended (hm : m.Serves w) {id : CommandId} {node : Located CommandNode}
    (hn : m.module.arena.command? id = some node) {fuel : Nat} {r : Except Fault Unit}
    (h : m.exec fuel id s = ended r s') : m.Executed id s r s' := by
  obtain ⟨c, hc, hw⟩ := hm.module.exists_rootCommand hn
  have hexec := ((Implements.command hc).yields hm hw fuel s).of_ended h
  exact Implements.ends hm hexec (.command hc) hw

end Machine

/-- In a source that is read, with a frame for every scope, a loop counts if its step is a literal
of 1 or more (a step that is left out is 1) and nothing in its body stores the variable. When its
first value is `a`, the execution of its body with number `j` starts with `a` and `j` steps, as
integers without bounds, so that there are at most as many executions as there are such values. If
each of them ends, so does the loop. After a loop without a fault, the variable has the value that
the last execution started with, or `a` if there was none, and up to a literal bound there was one
for each value. -/
theorem Module.parse_counts (source : String) (names names' : Names) (m : Module)
    (h : Module.parse source names = (.ok m, names')) (maxDepth : Nat) (loop : CountLoop)
    (id : CommandId) (span span' : Span) (amount : Int32)
    (hn : m.arena.command? id = some ⟨loop.node, span⟩)
    (hstep : m.arena.expr? loop.step = some ⟨.int amount, span'⟩) (hpos : 1 ≤ amount.toInt)
    (hbody : ¬ m.StoresBelow (.command loop.body) loop.var) (s s₁ : State)
    (hs : m.scopes.size ≤ s.env.size) (a : Int32)
    (ha : Machine.Evaluated ⟨names', m, maxDepth⟩ loop.start s (.ok a) s₁) :
    let machine : Machine := ⟨names', m, maxDepth⟩
    (∀ j t, machine.StartsBody loop s j t →
      (loop.value t).toInt = a.toInt + j * amount.toInt ∧
      ∀ r s', machine.Executed id s r s' ↔ Ends (machine.turns loop) t r s') ∧
    ∃ n : Nat, machine.BodyRuns loop s n ∧
      (n : Int) ≤ (2147483647 - a.toInt) / amount.toInt + 1 ∧
      ((∀ j t, machine.StartsBody loop s j t → ∃ r t', machine.Executed loop.body t r t') →
        ∃ r s', machine.Executed id s r s') ∧
      ∀ s', machine.Executed id s (.ok ()) s' →
        ((n = 0 ∧ loop.value s' = a) ∨
          ∃ k t, n = k + 1 ∧ machine.StartsBody loop s k t ∧ loop.value s' = loop.value t) ∧
        ∀ b span, m.arena.expr? loop.stop = some ⟨.int b, span⟩ →
          (n : Int) = if a ≤ b then (b.toInt - a.toInt) / amount.toInt + 1 else 0 := by
  obtain ⟨program, -, hserves⟩ := Machine.serves_of_parse h
  have hm := hserves maxDepth
  have hsize : program.declarations.length < s.env.size := by
    rw [hm.module.scopes_size, hm.module.functions_size] at hs
    exact hs
  obtain ⟨hscope, hsteady⟩ := Machine.steady_of_serves hm hn hstep hbody
  have hfirst : program.declarations.length < (loop.set s₁ a).env.size ∧
      (loop.set s₁ a).env.getLocal? .root loop.var = some a := by
    obtain ⟨c, hc, hw⟩ := hm.module.exists_rootCommand hn
    obtain ⟨-, start, stop, step, body, rfl, hi, -⟩ := hc.eq_count hn
    simp only [Command.flat, within_append] at hw
    have hs₁ := (Machine.Evaluated.root_eq hm ha hi hw.1.1.1.1 hsize).1
    rw [CountLoop.set, hscope]
    exact ⟨by rwa [State.store, Environment.size_store],
      Environment.getLocal?_store_self (Nat.zero_lt_of_lt hs₁)⟩
  obtain ⟨n, hruns⟩ := hsteady.exists_bodyRuns ha hfirst hpos
  refine ⟨fun j t ht => ⟨hsteady.toInt_eq ha hfirst ht, fun r s' => ht.ends_iff hn⟩, n, hruns,
    hsteady.bodyRuns_le ha hfirst hpos hruns, hsteady.exists_executed ha hfirst hn hpos,
    fun s' hr => ⟨hsteady.value_eq ha hfirst hn hruns hr, fun b span hb => ?_⟩⟩
  have hliteral : ∀ t, Machine.Evaluated ⟨names', m, maxDepth⟩ loop.stop t (.ok b) t :=
    fun t => ends_pure.of_succ fun _ => Machine.evalExpr_int hb
  exact hsteady.bodyRuns_eq ha hfirst hliteral hn hr hpos hruns

/-- A loop over the two greatest values, with its step left out. -/
def Module.nearMax : String := "para i de 2147483646 ate 2147483647 faca escreva i"

/-- The program of `nearMax`. -/
def Module.nearMaxProgram : Program :=
  [.command (.count ⟨1⟩ (.int 2147483646 ⟨10, 20⟩) (.int 2147483647 ⟨25, 35⟩) (.int 1 ⟨35, 35⟩)
    (.printInt (.var ⟨1⟩ ⟨49, 50⟩) ⟨41, 50⟩) ⟨0, 50⟩)]

/-- Both values are printed, and the greatest one is left in the variable. -/
theorem Module.parse_counts_nearMax : ∃ (m : Module) (names : Names),
    Module.parse nearMax .initial = (.ok m, names) ∧
    let machine : Machine := ⟨names, m, 10⟩
    let loop : CountLoop := ⟨⟨1⟩, .root, ⟨0⟩, ⟨1⟩, ⟨2⟩, ⟨0⟩⟩
    let s := Machine.start m (.ofString "")
    machine.BodyRuns loop s 2 ∧ ∃ s', machine.Executed ⟨1⟩ s (.ok ()) s' ∧
      s'.output = "2147483646\n2147483647\n" ∧ (loop.value s').toInt = 2147483647 := by
  have h : Module.parse nearMax .initial = (.ok (.ofProgram nearMaxProgram), ⟨#["", "i"]⟩) := by
    decide +kernel
  let machine : Machine := ⟨⟨#["", "i"]⟩, .ofProgram nearMaxProgram, 10⟩
  let loop : CountLoop := ⟨⟨1⟩, .root, ⟨0⟩, ⟨1⟩, ⟨2⟩, ⟨0⟩⟩
  let s := Machine.start (ofProgram nearMaxProgram) (.ofString "")
  have hn : (ofProgram nearMaxProgram).arena.command? ⟨1⟩ = some ⟨loop.node, ⟨0, 50⟩⟩ := rfl
  have hbody : ¬ (ofProgram nearMaxProgram).StoresBelow (.command loop.body) loop.var := by
    rintro ⟨q, ⟨⟩ | ⟨hparts, hp, hq⟩, hx⟩
    · cases hx
    · cases hparts
      cases List.mem_singleton.mp hp
      obtain ⟨⟩ | ⟨hparts, hp, -⟩ := hq
      · cases hx
      · cases hparts
        cases hp
  have ha : machine.Evaluated ⟨0⟩ s (.ok 2147483646) s :=
    ends_pure.of_succ fun _ => Machine.evalExpr_int rfl
  obtain ⟨hstarts, n, hruns, -, -, hend⟩ := Module.parse_counts nearMax .initial _ _ h 10 loop ⟨1⟩ _
    ⟨35, 35⟩ 1 hn rfl (by decide) hbody s s (Environment.fits_ofScopes _).size 2147483646 ha
  have hshown : shown (fun _ s' => s'.output) (machine.exec 10 ⟨1⟩ s) =
      some "2147483646\n2147483647\n" := by
    decide +kernel
  obtain ⟨_, s', hs', houtput⟩ := exists_of_shown hshown
  obtain ⟨program, -, hserves⟩ := Machine.serves_of_parse h
  have hr : machine.Executed ⟨1⟩ s (.ok ()) s' := Machine.executed_of_ended (hserves 10) hn hs'
  obtain ⟨hvalue, hcount⟩ := hend _ hr
  have htwo : (n : Int) = 2 := hcount 2147483647 ⟨25, 35⟩ rfl
  obtain rfl : n = 2 := by exact_mod_cast htwo
  refine ⟨_, _, h, hruns, s', hr, houtput, ?_⟩
  obtain ⟨⟨⟩, -⟩ | ⟨k, t, hk, ht, heq⟩ := hvalue
  cases hk
  rw [heq, (hstarts 1 t ht).1]
  rfl

end Enquanto

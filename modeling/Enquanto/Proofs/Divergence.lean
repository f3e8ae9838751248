import Enquanto.Proofs.CommandSimulation
import Enquanto.Proofs.Totality

/-!
# Runs that never end

Work either ends or diverges, and the machine is always out of fuel exactly if it diverges.

* `diverges_of_not_finishes`: work that does not end waits for work that does not end, and so on;
* `Machine.Implements.diverges_iff`: divergence on the machine.
-/

namespace Enquanto

open Flattening Run

variable {w : Setting} {scope : ScopeId}

/-! ## By the rules -/

/-- The work ends, with or without a fault. -/
def Finishes (w : Setting) (scope : ScopeId) (work : Work) (s : State) : Prop :=
  ∃ r s', Executes w scope work s r s'

/-- The work waits for work of the program that does not end. -/
def Waits (w : Setting) (scope : ScopeId) (work : Work) (s : State) : Prop :=
  ∃ work' s', Awaits w scope work s work' s' ∧ (work'.flat scope).Within w.program.flat ∧
    ¬ Finishes w scope work' s'

theorem Awaits.waits {work work' : Work} {s s' : State} (h : Awaits w scope work s work' s')
    (hw : (work'.flat scope).Within w.program.flat) (hn : ¬ Finishes w scope work' s') :
    Waits w scope work s :=
  ⟨work', s', h, hw, hn⟩

/-- A part that ends, in whatever way it does, may be assumed to end without a fault if the whole
ends with the fault of the part. -/
theorem Finishes.ok_or {work part : Work} {s s₁ : State} (h : Finishes w scope part s₁)
    (hfault : ∀ f s', Executes w scope part s₁ (.error f) s' → Finishes w scope work s)
    (hn : ¬ Finishes w scope work s) : ∃ s', Executes w scope part s₁ (.ok ()) s' := by
  obtain ⟨r, s', h⟩ := h
  cases r with
  | ok _ => exact ⟨s', h⟩
  | error f => exact absurd (hfault f s' h) hn

theorem waits_sequence {cs : List Command} {s : State}
    (hw : (Command.flatAll scope cs).Within w.program.flat)
    (hn : ¬ Finishes w scope (.sequence cs) s) : Waits w scope (.sequence cs) s := by
  cases cs with
  | nil => exact absurd ⟨_, _, .sequence_nil⟩ hn
  | cons c rest =>
    obtain ⟨hwc, hwrest⟩ := within_append.mp hw
    by_cases hc : Finishes w scope (.command c) s
    · obtain ⟨s₁, h₁⟩ := hc.ok_or (fun f s' h => ⟨_, _, .sequence_fault h⟩) hn
      refine (Awaits.sequence_later h₁).waits hwrest ?_
      rintro ⟨r, s₂, h₂⟩
      exact hn ⟨r, s₂, .sequence_cons h₁ h₂⟩
    · exact Awaits.sequence_first.waits hwc hc

section
variable (hr : w.program.flat.Resolved w.program.headers)
include hr

/-- An expression whose fault would end the work has a value. -/
theorem exists_value {e : Expr} {work : Work} {s s₁ : State}
    (hw : (e.flat scope).Within w.program.flat)
    (hfault : ∀ f s', Evaluates w 0 scope e s₁ (.error f) s' → Finishes w scope work s)
    (hn : ¬ Finishes w scope work s) : ∃ value s', Evaluates w 0 scope e s₁ (.ok value) s' := by
  obtain ⟨r, s', h⟩ := exists_evaluates hr 0 hw s₁
  cases r with
  | ok value => exact ⟨value, s', h⟩
  | error f => exact absurd (hfault f s' h) hn

/-- A predicate whose fault would end the work has a truth value. -/
theorem exists_truth {p : Pred} {work : Work} {s s₁ : State}
    (hw : (p.flat scope).Within w.program.flat)
    (hfault : ∀ f s', Decides w scope p s₁ (.error f) s' → Finishes w scope work s)
    (hn : ¬ Finishes w scope work s) : ∃ value s', Decides w scope p s₁ (.ok value) s' := by
  obtain ⟨r, s', h⟩ := exists_decides hr p hw s₁
  cases r with
  | ok value => exact ⟨value, s', h⟩
  | error f => exact absurd (hfault f s' h) hn

theorem waits_choice {bs : List (Pred × Command)} {last : Command} {s : State}
    (hw : ((Work.choice bs last).flat scope).Within w.program.flat)
    (hn : ¬ Finishes w scope (.choice bs last) s) : Waits w scope (.choice bs last) s := by
  cases bs with
  | nil =>
    refine Awaits.choice_last.waits (within_append.mp hw).2 ?_
    rintro ⟨r, s', h⟩
    exact hn ⟨r, s', .choice_last h⟩
  | cons b rest =>
    obtain ⟨test, body⟩ := b
    simp only [Work.flat, Command.flatBranches, within_append] at hw
    obtain ⟨⟨⟨hwt, hwb⟩, hwrest⟩, hwl⟩ := hw
    obtain ⟨value, s₁, h₁⟩ := exists_truth hr hwt (fun f s' h => ⟨_, _, .choice_fault h⟩) hn
    cases value with
    | true =>
      refine (Awaits.choice_taken h₁).waits hwb ?_
      rintro ⟨r, s₂, h₂⟩
      exact hn ⟨r, s₂, .choice_taken h₁ h₂⟩
    | false =>
      refine (Awaits.choice_passed h₁).waits (within_append.mpr ⟨hwrest, hwl⟩) ?_
      rintro ⟨r, s₂, h₂⟩
      exact hn ⟨r, s₂, .choice_passed h₁ h₂⟩

theorem waits_turns {var : Name} {stop step : Expr} {body : Command} {s : State}
    (hw : ((Work.turns var stop step body).flat scope).Within w.program.flat)
    (hn : ¬ Finishes w scope (.turns var stop step body) s) :
    Waits w scope (.turns var stop step body) s := by
  obtain ⟨hws, hwb⟩ := within_append.mp hw
  obtain ⟨hwstop, hwstep⟩ := within_append.mp hws
  by_cases hb : Finishes w scope (.command body) s
  · obtain ⟨s₁, h₁⟩ := hb.ok_or (fun f s' h => ⟨_, _, .turns_body h⟩) hn
    obtain ⟨amount, s₂, h₂⟩ :=
      exists_value hr hwstep (fun f s' h => ⟨_, _, .turns_step h₁ h⟩) hn
    by_cases hsum : ∃ next : Int32, next.toInt = (s₁.env.lookup scope var).toInt + amount.toInt
    · obtain ⟨next, hsum⟩ := hsum
      obtain ⟨bound, s₃, h₃⟩ :=
        exists_value hr hwstop (fun f s' h => ⟨_, _, .turns_stop h₁ h₂ hsum h⟩) hn
      by_cases hle : next ≤ bound
      · refine (Awaits.turns_next h₁ h₂ hsum h₃ hle).waits hw ?_
        rintro ⟨r, s₄, h₄⟩
        exact hn ⟨r, s₄, .turns_next h₁ h₂ hsum h₃ hle h₄⟩
      · exact absurd ⟨_, _, .turns_done h₁ h₂ hsum h₃ hle⟩ hn
    · exact absurd ⟨_, _, .turns_overflow h₁ h₂ (not_exists.mp hsum)⟩ hn
  · exact Awaits.turns_body.waits hwb hb

theorem waits_loop {test : Pred} {body : Command} {span : Span} {s : State}
    (hw : ((Command.loop test body span).flat scope).Within w.program.flat)
    (hn : ¬ Finishes w scope (.command (.loop test body span)) s) :
    Waits w scope (.command (.loop test body span)) s := by
  obtain ⟨hwt, hwb⟩ := within_append.mp (within_append.mp hw).1
  obtain ⟨value, s₁, h₁⟩ := exists_truth hr hwt (fun f s' h => ⟨_, _, .loop_fault h⟩) hn
  cases value with
  | false => exact absurd ⟨_, _, .loop_done h₁⟩ hn
  | true =>
    by_cases hb : Finishes w scope (.command body) s₁
    · obtain ⟨s₂, h₂⟩ := hb.ok_or (fun f s' h => ⟨_, _, .loop_body h₁ h⟩) hn
      refine (Awaits.loop_turn h₁ h₂).waits hw ?_
      rintro ⟨r, s₃, h₃⟩
      exact hn ⟨r, s₃, .loop_turn h₁ h₂ h₃⟩
    · exact (Awaits.loop_body h₁).waits hwb hb

theorem waits_count {var : Name} {start stop step : Expr} {body : Command} {span : Span} {s : State}
    (hw : ((Command.count var start stop step body span).flat scope).Within w.program.flat)
    (hn : ¬ Finishes w scope (.command (.count var start stop step body span)) s) :
    Waits w scope (.command (.count var start stop step body span)) s := by
  simp only [Command.flat, within_append] at hw
  obtain ⟨⟨⟨⟨hwstart, hwstop⟩, hwstep⟩, hwb⟩, -⟩ := hw
  obtain ⟨first, s₁, h₁⟩ := exists_value hr hwstart (fun f s' h => ⟨_, _, .count_start h⟩) hn
  obtain ⟨bound, s₂, h₂⟩ :=
    exists_value hr hwstop (fun f s' h => ⟨_, _, .count_stop h₁ h⟩) hn
  by_cases hle : first ≤ bound
  · refine (Awaits.count h₁ h₂ hle).waits ?_ ?_
    · exact within_append.mpr ⟨within_append.mpr ⟨hwstop, hwstep⟩, hwb⟩
    · rintro ⟨r, s₃, h₃⟩
      exact hn ⟨r, s₃, .count_some h₁ h₂ hle h₃⟩
  · exact absurd ⟨_, _, .count_none h₁ h₂ hle⟩ hn

theorem waits_switch {selector : Expr} {cases : List (Int32 × Command)} {default : Command}
    {span : Span} {s : State}
    (hw : ((Command.switch selector cases default span).flat scope).Within w.program.flat)
    (hn : ¬ Finishes w scope (.command (.switch selector cases default span)) s) :
    Waits w scope (.command (.switch selector cases default span)) s := by
  simp only [Command.flat, within_append] at hw
  obtain ⟨⟨⟨hwe, hwc⟩, hwd⟩, -⟩ := hw
  obtain ⟨value, s₁, h₁⟩ := exists_value hr hwe (fun f s' h => ⟨_, _, .switch_fault h⟩) hn
  rcases exists_first_case cases value with hne | ⟨before, c, after, hc, hne⟩
  · refine (Awaits.switch_default h₁ hne).waits hwd ?_
    rintro ⟨r, s₂, h₂⟩
    exact hn ⟨r, s₂, .switch_default h₁ hne h₂⟩
  · have hmem : (value, c) ∈ cases := hc ▸ List.mem_append_right _ List.mem_cons_self
    refine (Awaits.switch_case h₁ hc hne).waits (within_case hmem hwc) ?_
    rintro ⟨r, s₂, h₂⟩
    exact hn ⟨r, s₂, .switch_case h₁ hc hne h₂⟩

theorem waits_command {c : Command} {s : State} (hw : (c.flat scope).Within w.program.flat)
    (hn : ¬ Finishes w scope (.command c) s) : Waits w scope (.command c) s := by
  cases c with
  | skip span => exact absurd ⟨_, _, .skip⟩ hn
  | assign target e span =>
    obtain ⟨value, s', h⟩ :=
      exists_value hr (within_append.mp hw).1 (fun f s' h => ⟨_, _, .assign_fault h⟩) hn
    exact absurd ⟨_, _, .assign h⟩ hn
  | printInt e span =>
    obtain ⟨value, s', h⟩ :=
      exists_value hr (within_append.mp hw).1 (fun f s' h => ⟨_, _, .printInt_fault h⟩) hn
    exact absurd ⟨_, _, .printInt h⟩ hn
  | printText text span => exact absurd ⟨_, _, .printText⟩ hn
  | block body span =>
    refine Awaits.block.waits (within_append.mp hw).1 ?_
    rintro ⟨r, s', h⟩
    exact hn ⟨r, s', .block h⟩
  | cond test body others last span =>
    refine Awaits.cond.waits (within_append.mp hw).1 ?_
    rintro ⟨r, s', h⟩
    exact hn ⟨r, s', .cond h⟩
  | loop test body span => exact waits_loop hr hw hn
  | count var start stop step body span => exact waits_count hr hw hn
  | switch selector cases default span => exact waits_switch hr hw hn

/-- Work that does not end diverges. -/
theorem diverges_of_not_finishes {work : Work} {s : State}
    (hw : (work.flat scope).Within w.program.flat) (hn : ¬ Finishes w scope work s) :
    Diverges w scope work s := by
  refine Diverges.coinduct w scope
    (fun work s => (work.flat scope).Within w.program.flat ∧ ¬ Finishes w scope work s) ?_
    work s ⟨hw, hn⟩
  rintro work s ⟨hw, hn⟩
  have hwaits : Waits w scope work s := by
    cases work with
    | command c => exact waits_command hr hw hn
    | sequence cs => exact waits_sequence hw hn
    | choice bs last => exact waits_choice hr hw hn
    | turns var stop step body => exact waits_turns hr hw hn
  obtain ⟨work', s', h, hw', hn'⟩ := hwaits
  exact ⟨work', s', h, hw', hn'⟩

end

/-! ## On the machine -/

namespace Machine

variable {m : Machine}

theorem evalExpr_exhausts_or (hm : m.Serves w) (fuel : Nat) {depth : Nat} {e : Expr} {id : ExprId}
    {s s' : State} {r : Except Fault Int32} (h : Evaluates w depth scope e s r s')
    (hid : m.module.arena.HoldsExpr scope e id) (hw : (e.flat scope).Within w.program.flat) :
    (m.evalExpr fuel depth id).Exhausts s ∨ m.evalExpr fuel depth id s = ended r s' :=
  (evalExpr_ends hm h id hid hw).exhausts_or (evalExpr_yields hm fuel depth hid hw s)
    fun _ _ h => evalExpr_ends hm h id hid hw

theorem evalPred_exhausts_or (hm : m.Serves w) (fuel : Nat) {p : Pred} {id : PredId}
    {s s' : State} {r : Except Fault Bool} (h : Decides w scope p s r s')
    (hid : m.module.arena.HoldsPred scope p id) (hw : (p.flat scope).Within w.program.flat) :
    (m.evalPred fuel id).Exhausts s ∨ m.evalPred fuel id s = ended r s' :=
  (evalPred_ends hm h hid hw).exhausts_or (evalPred_yields hm fuel hid hw s)
    fun _ _ h => evalPred_ends hm h hid hw

theorem exec_exhausts_or (hm : m.Serves w) (fuel : Nat) {c : Command} {id : CommandId}
    {s s' : State} {r : Except Fault Unit} (h : Executes w scope (.command c) s r s')
    (hid : m.module.arena.HoldsCommand scope c id) (hw : (c.flat scope).Within w.program.flat) :
    (m.exec fuel id).Exhausts s ∨ m.exec fuel id s = ended r s' :=
  (Implements.ends hm h (.command hid) hw).exhausts_or
    ((Implements.command hid).yields hm hw fuel s)
    fun _ _ h => Implements.ends hm h (.command hid) hw

/-- With this fuel, work that diverges is out of fuel. -/
def FuelSpent (m : Machine) (w : Setting) (scope : ScopeId) (fuel : Nat) : Prop :=
  ∀ (work : Work) (run : Nat → Run Unit) (s : State), Diverges w scope work s →
    m.Implements scope work run → (work.flat scope).Within w.program.flat → (run fuel).Exhausts s

variable {fuel : Nat} {s : State}

theorem exhausts_sequence (hm : m.Serves w) (ih : FuelSpent m w scope fuel) {cs : List Command}
    {ids : List CommandId} (hd : Diverges w scope (.sequence cs) s)
    (hids : m.module.arena.HoldsCommands scope cs ids)
    (hw : (Command.flatAll scope cs).Within w.program.flat) :
    (m.execAll (fuel + 1) ids).Exhausts s := by
  cases hd with
  | awaits ha hd =>
    match cs, ids, hids with
    | [], _, _ => cases ha
    | c :: cs, id :: ids, ⟨hid, hids⟩ =>
      obtain ⟨hwc, hwcs⟩ := within_append.mp hw
      rw [execAll_cons]
      cases ha with
      | sequence_first => exact (ih _ _ _ hd (.command hid) hwc).bind_left
      | sequence_later h₁ =>
        exact .bind (exec_exhausts_or hm fuel h₁ hid hwc) (ih _ _ _ hd (.sequence hids) hwcs)

theorem exhausts_choice (hm : m.Serves w) (ih : FuelSpent m w scope fuel)
    {bs : List (Pred × Command)} {last : Command} {os : List (PredId × CommandId)} {l : CommandId}
    (hd : Diverges w scope (.choice bs last) s) (hos : m.module.arena.HoldsBranches scope bs os)
    (hl : m.module.arena.HoldsCommand scope last l)
    (hw : ((Work.choice bs last).flat scope).Within w.program.flat) :
    (m.execFirst (fuel + 1) os l).Exhausts s := by
  cases hd with
  | awaits ha hd =>
    match bs, os, hos with
    | [], [], _ =>
      cases ha with
      | choice_last => exact ih _ _ _ hd (.command hl) (within_append.mp hw).2
    | (test, body) :: bs, (t, b) :: os, ⟨⟨ht, hb⟩, hos⟩ =>
      simp only [Work.flat, Command.flatBranches, within_append] at hw
      obtain ⟨⟨⟨hwt, hwb⟩, hwo⟩, hwl⟩ := hw
      rw [execFirst_cons]
      cases ha with
      | choice_taken h₁ =>
        refine .bind (evalPred_exhausts_or hm fuel h₁ ht hwt) ?_
        exact ih _ _ _ hd (.command hb) hwb
      | choice_passed h₁ =>
        refine .bind (evalPred_exhausts_or hm fuel h₁ ht hwt) ?_
        exact ih _ _ _ hd (.choice hos hl) (within_append.mpr ⟨hwo, hwl⟩)

theorem exhausts_turns (hm : m.Serves w) (ih : FuelSpent m w scope fuel) {var : Name}
    {stop step : Expr} {body : Command} {j k : ExprId} {b : CommandId}
    (hd : Diverges w scope (.turns var stop step body) s)
    (hj : m.module.arena.HoldsExpr scope stop j) (hk : m.module.arena.HoldsExpr scope step k)
    (hb : m.module.arena.HoldsCommand scope body b)
    (hw : ((Work.turns var stop step body).flat scope).Within w.program.flat) :
    (m.execCount (fuel + 1) var scope j k b).Exhausts s := by
  obtain ⟨hws, hwb⟩ := within_append.mp hw
  obtain ⟨hwj, hwk⟩ := within_append.mp hws
  rw [execCount_succ]
  cases hd with
  | awaits ha hd =>
    cases ha with
    | turns_body => exact (ih _ _ _ hd (.command hb) hwb).bind_left
    | turns_next h₁ h₂ hsum h₃ hle =>
      refine .bind (exec_exhausts_or hm fuel h₁ hb hwb) (.bind (.inr rfl)
        (.bind (evalExpr_exhausts_or hm fuel h₂ hk hwk) ?_))
      rw [advance?_eq_some_iff.mpr hsum]
      refine .bind (evalExpr_exhausts_or hm fuel h₃ hj hwj) ?_
      rw [if_pos hle]
      exact .bind (.inr rfl) (ih _ _ _ hd (.turns hj hk hb) hw)

theorem exhausts_command (hm : m.Serves w) (ih : FuelSpent m w scope fuel) {c : Command}
    {id : CommandId} (hd : Diverges w scope (.command c) s)
    (hid : m.module.arena.HoldsCommand scope c id)
    (hw : (c.flat scope).Within w.program.flat) : (m.exec (fuel + 1) id).Exhausts s := by
  cases hd with
  | awaits ha hd =>
    cases ha with
    | block =>
      obtain ⟨slice, ids, hn, hs, -, hids⟩ := hid
      rw [exec_block hn hs]
      exact ih _ _ _ hd (.sequence hids) (within_append.mp hw).1
    | cond =>
      obtain ⟨t, b, slice, os, l, hn, hs, -, -, -, ht, hb, hos, hl⟩ := hid
      rw [exec_cond hn hs]
      refine exhausts_choice hm ih hd ?_ hl (within_append.mp hw).1
      exact ⟨⟨ht, hb⟩, hos⟩
    | loop_body h₁ =>
      obtain ⟨t, b, hn, -, ht, hb⟩ := hid
      obtain ⟨hwt, hwb⟩ := within_append.mp (within_append.mp hw).1
      rw [exec_loop hn]
      refine .bind (evalPred_exhausts_or hm fuel h₁ ht hwt) ?_
      exact (ih _ _ _ hd (.command hb) hwb).bind_left
    | loop_turn h₁ h₂ =>
      obtain ⟨t, b, hn, hlt, ht, hb⟩ := hid
      obtain ⟨hwt, hwb⟩ := within_append.mp (within_append.mp hw).1
      rw [exec_loop hn]
      refine .bind (evalPred_exhausts_or hm fuel h₁ ht hwt) ?_
      exact .bind (exec_exhausts_or hm fuel h₂ hb hwb)
        (ih _ _ _ hd (.command ⟨t, b, hn, hlt, ht, hb⟩) hw)
    | count h₁ h₂ hle =>
      obtain ⟨i, j, k, b, hn, -, hi, hj, hk, hb⟩ := hid
      simp only [Command.flat, within_append] at hw
      obtain ⟨⟨⟨⟨hwi, hwj⟩, hwk⟩, hwb⟩, -⟩ := hw
      rw [exec_count hn]
      refine .bind (evalExpr_exhausts_or hm fuel h₁ hi hwi) (.bind (.inr rfl)
        (.bind (evalExpr_exhausts_or hm fuel h₂ hj hwj) ?_))
      rw [if_pos hle]
      exact ih _ _ _ hd (.turns hj hk hb)
        (within_append.mpr ⟨within_append.mpr ⟨hwj, hwk⟩, hwb⟩)
    | switch_case h₁ hc hne =>
      obtain ⟨e, slice, cs, d, hn, hs, -, -, he, hcs, -⟩ := hid
      simp only [Command.flat, within_append] at hw
      obtain ⟨⟨⟨hwe, hwc⟩, -⟩, -⟩ := hw
      subst hc
      obtain ⟨b, hb, hcb⟩ := hcs.lookup_eq_some hne
      rw [exec_switch hn hs]
      refine .bind (evalExpr_exhausts_or hm fuel h₁ he hwe) ?_
      rw [hb]
      exact ih _ _ _ hd (.command hcb)
        (within_case (List.mem_append_right _ List.mem_cons_self) hwc)
    | switch_default h₁ hne =>
      obtain ⟨e, slice, cs, d, hn, hs, -, -, he, hcs, hdef⟩ := hid
      simp only [Command.flat, within_append] at hw
      obtain ⟨⟨⟨hwe, -⟩, hwd⟩, -⟩ := hw
      rw [exec_switch hn hs]
      refine .bind (evalExpr_exhausts_or hm fuel h₁ he hwe) ?_
      rw [hcs.lookup_eq_none hne]
      exact ih _ _ _ hd (.command hdef) hwd

theorem fuelSpent (hm : m.Serves w) (scope : ScopeId) (fuel : Nat) : FuelSpent m w scope fuel := by
  induction fuel with
  | zero =>
    intro work run s hd hi hw
    cases hi <;> exact ⟨s, rfl⟩
  | succ fuel ih =>
    intro work run s hd hi hw
    cases hi with
    | command hid => exact exhausts_command hm ih hd hid hw
    | sequence hids => exact exhausts_sequence hm ih hd hids hw
    | choice hos hl => exact exhausts_choice hm ih hd hos hl hw
    | turns hj hk hb => exact exhausts_turns hm ih hd hj hk hb hw

/-- Work diverges exactly if the machine is out of fuel, however much there was. -/
theorem Implements.diverges_iff (hm : m.Serves w) {work : Work} {run : Nat → Run Unit}
    (hi : m.Implements scope work run) (hw : (work.flat scope).Within w.program.flat) (s : State) :
    Diverges w scope work s ↔ ∀ fuel, (run fuel).Exhausts s := by
  constructor
  · intro hd fuel
    exact fuelSpent hm scope fuel work run s hd hi hw
  · intro hall
    refine diverges_of_not_finishes hm.resolved hw ?_
    rintro ⟨r, s', h⟩
    exact (Implements.ends hm h hi hw).not_exhausts hall

end Machine

end Enquanto

import Enquanto.Proofs.ExprSimulation

/-!
# Commands on the machine

The machine runs a command of the arena exactly as the rules run the tree that stands there.

* `Machine.Implements`: the run of the machine for a piece of work;
* `Machine.Implements.yields`: what the machine gives is what the rules give;
* `Machine.Implements.ends`: what the rules give the machine gives, with enough fuel.
-/

namespace Enquanto

open Filter Run

/-! ## Choices -/

namespace Arena

variable {a : Arena} {scope : ScopeId}

/-- A value that labels no case is found at no case. -/
theorem HoldsCases.lookup_eq_none {value : Int32} : ∀ {cases : List (Int32 × Command)}
    {ids : List (Int32 × CommandId)}, a.HoldsCases scope cases ids →
    (∀ label ∈ cases, label.1 ≠ value) → ids.lookup value = none
  | [], [], _, _ => rfl
  | (label, _) :: rest, (v, b) :: ids, ⟨⟨hv, _⟩, hs⟩, hne => by
    obtain ⟨hfirst, hrest⟩ := List.forall_mem_cons.mp hne
    have hb : (value == v) = false := beq_eq_false_iff_ne.mpr (hv ▸ hfirst.symm)
    rw [List.lookup_cons, hb]
    exact hs.lookup_eq_none hrest

/-- The first case that a value labels is the one found. -/
theorem HoldsCases.lookup_eq_some {value : Int32} {c : Command} {after : List (Int32 × Command)} :
    ∀ {before : List (Int32 × Command)} {ids : List (Int32 × CommandId)},
    a.HoldsCases scope (before ++ (value, c) :: after) ids →
    (∀ label ∈ before, label.1 ≠ value) →
    ∃ b, ids.lookup value = some b ∧ a.HoldsCommand scope c b
  | [], (v, b) :: ids, ⟨⟨hv, hc⟩, _⟩, _ => by
    refine ⟨b, ?_, hc⟩
    rw [List.lookup_cons, hv, beq_self_eq_true]
  | (label, _) :: rest, (v, b) :: ids, ⟨⟨hv, _⟩, hs⟩, hne => by
    obtain ⟨hfirst, hrest⟩ := List.forall_mem_cons.mp hne
    have hb : (value == v) = false := beq_eq_false_iff_ne.mpr (hv ▸ hfirst.symm)
    rw [List.lookup_cons, hb]
    exact hs.lookup_eq_some hrest

end Arena

/-- A value labels no case, or there is a first case that it labels. -/
theorem exists_first_case (cases : List (Int32 × Command)) (value : Int32) :
    (∀ label ∈ cases, label.1 ≠ value) ∨
      ∃ before c after, cases = before ++ (value, c) :: after ∧
        ∀ label ∈ before, label.1 ≠ value := by
  cases h : cases.lookup value with
  | none => exact .inl fun label hl => (bne_iff_ne.mp (List.lookup_eq_none_iff.mp h label hl)).symm
  | some c =>
    obtain ⟨before, after, hc, hne⟩ := List.lookup_eq_some_iff.mp h
    exact .inr ⟨before, c, after, hc, fun label hl => (bne_iff_ne.mp (hne label hl)).symm⟩

/-! ## Counting -/

namespace Machine

theorem toInt_bounds (n : Int32) : -2147483648 ≤ n.toInt ∧ n.toInt ≤ 2147483647 :=
  ⟨n.le_toInt, Int.le_of_lt_add_one n.toInt_lt⟩

theorem advance?_eq_some_iff {current step next : Int32} :
    advance? current step = some next ↔ next.toInt = current.toInt + step.toInt := by
  unfold advance? Decimal.fit?
  constructor
  · intro h
    split at h
    · next hb =>
      cases h
      exact Int32.toInt_ofInt_of_le hb.1 (Int.lt_add_one_of_le hb.2)
    · cases h
  · intro h
    rw [← h, if_pos (toInt_bounds next), Int32.ofInt_toInt]

theorem advance?_eq_none_iff {current step : Int32} :
    advance? current step = none ↔ ∀ next : Int32, next.toInt ≠ current.toInt + step.toInt := by
  rw [Option.eq_none_iff_forall_ne_some]
  exact forall_congr' fun next => not_congr advance?_eq_some_iff

/-! ## Single steps -/

variable {m : Machine} {w : Setting} {scope : ScopeId} {fuel : Nat}

section
variable {id : CommandId} {span : Span}

theorem exec_skip (h : m.module.arena.command? id = some ⟨.skip, span⟩) :
    m.exec (fuel + 1) id = pure () :=
  found_bind_of_eq h _

theorem exec_assign {target : Name} {v : ExprId}
    (h : m.module.arena.command? id = some ⟨.assign target scope v, span⟩) :
    m.exec (fuel + 1) id = (do store scope target (← m.evalExpr fuel 0 v)) :=
  found_bind_of_eq h _

theorem exec_block {slice : Slice} {ids : List CommandId}
    (h : m.module.arena.command? id = some ⟨.block slice, span⟩)
    (hs : m.module.arena.body? slice = some ids) :
    m.exec (fuel + 1) id = m.execAll fuel ids :=
  (found_bind_of_eq h _).trans (found_bind_of_eq hs _)

theorem exec_loop {t : PredId} {b : CommandId}
    (h : m.module.arena.command? id = some ⟨.loop t b, span⟩) :
    m.exec (fuel + 1) id = (do
      if ← m.evalPred fuel t then
        m.exec fuel b
        m.exec fuel id) :=
  found_bind_of_eq h _

theorem exec_count {var : Name} {i j k : ExprId} {b : CommandId}
    (h : m.module.arena.command? id = some ⟨.count var scope i j k b, span⟩) :
    m.exec (fuel + 1) id = (do
      let first ← m.evalExpr fuel 0 i
      store scope var first
      if first ≤ (← m.evalExpr fuel 0 j) then m.execCount fuel var scope j k b) :=
  found_bind_of_eq h _

theorem exec_switch {e : ExprId} {slice : Slice} {d : CommandId} {cs : List (Int32 × CommandId)}
    (h : m.module.arena.command? id = some ⟨.switch e slice d, span⟩)
    (hs : m.module.arena.cases? slice = some cs) :
    m.exec (fuel + 1) id = (do
      let value ← m.evalExpr fuel 0 e
      m.exec fuel ((cs.lookup value).getD d)) := by
  rw [exec, found_bind_of_eq h]
  simp only [found_bind_of_eq hs]

theorem exec_printInt {v : ExprId}
    (h : m.module.arena.command? id = some ⟨.printInt v, span⟩) :
    m.exec (fuel + 1) id = (do printLine (Decimal.text (← m.evalExpr fuel 0 v))) :=
  found_bind_of_eq h _

theorem exec_printText {text : Name}
    (h : m.module.arena.command? id = some ⟨.printText text, span⟩) :
    m.exec (fuel + 1) id = printLine (m.names.text text) :=
  found_bind_of_eq h _

end

theorem execAll_cons {id : CommandId} {ids : List CommandId} :
    m.execAll (fuel + 1) (id :: ids) = (do
      m.exec fuel id
      m.execAll fuel ids) := by
  rw [execAll]

theorem execFirst_cons {t : PredId} {b l : CommandId} {os : List (PredId × CommandId)} :
    m.execFirst (fuel + 1) ((t, b) :: os) l = (do
      if ← m.evalPred fuel t then m.exec fuel b else m.execFirst fuel os l) := by
  rw [execFirst]

/-- A conditional runs as the choice between all of its branches. -/
theorem exec_cond {id : CommandId} {t : PredId} {b l : CommandId} {slice : Slice}
    {os : List (PredId × CommandId)} {span : Span}
    (h : m.module.arena.command? id = some ⟨.cond t b slice l, span⟩)
    (hs : m.module.arena.branches? slice = some os) (fuel : Nat) :
    m.exec fuel id = m.execFirst fuel ((t, b) :: os) l := by
  cases fuel with
  | zero => rfl
  | succ fuel =>
    rw [exec, found_bind_of_eq h, execFirst_cons]
    simp only [found_bind_of_eq hs]

theorem execCount_succ {var : Name} {j k : ExprId} {b : CommandId} :
    m.execCount (fuel + 1) var scope j k b = (do
      m.exec fuel b
      let current ← lookup scope var
      let amount ← m.evalExpr fuel 0 k
      match advance? current amount with
      | none => return
      | some next => do
        if next ≤ (← m.evalExpr fuel 0 j) then
          store scope var next
          m.execCount fuel var scope j k b) :=
  rfl

/-! ## What the machine gives -/

/-- The run of the machine, by its fuel, for a piece of work that stands in the arena. -/
inductive Implements (m : Machine) (scope : ScopeId) : Work → (Nat → Run Unit) → Prop
  | command {c : Command} {id : CommandId} : m.module.arena.HoldsCommand scope c id →
    Implements m scope (.command c) fun fuel => m.exec fuel id
  | sequence {cs : List Command} {ids : List CommandId} :
    m.module.arena.HoldsCommands scope cs ids →
    Implements m scope (.sequence cs) fun fuel => m.execAll fuel ids
  | choice {bs : List (Pred × Command)} {last : Command} {os : List (PredId × CommandId)}
      {l : CommandId} :
    m.module.arena.HoldsBranches scope bs os → m.module.arena.HoldsCommand scope last l →
    Implements m scope (.choice bs last) fun fuel => m.execFirst fuel os l
  | turns {var : Name} {stop step : Expr} {body : Command} {j k : ExprId} {b : CommandId} :
    m.module.arena.HoldsExpr scope stop j → m.module.arena.HoldsExpr scope step k →
    m.module.arena.HoldsCommand scope body b →
    Implements m scope (.turns var stop step body) fun fuel => m.execCount fuel var scope j k b

/-- With this fuel, work is done by the rules. -/
def ExecSound (m : Machine) (w : Setting) (scope : ScopeId) (fuel : Nat) : Prop :=
  ∀ (work : Work) (run : Nat → Run Unit) (s : State), m.Implements scope work run →
    (work.flat scope).Within w.program.flat → (run fuel).Yields s (Executes w scope work s)

open Flattening

theorem execSound_choice (hm : m.Hosts w) (ih : ExecSound m w scope fuel)
    {bs : List (Pred × Command)} {last : Command} {os : List (PredId × CommandId)} {l : CommandId}
    (hos : m.module.arena.HoldsBranches scope bs os)
    (hl : m.module.arena.HoldsCommand scope last l)
    (hw : ((Work.choice bs last).flat scope).Within w.program.flat) (s : State) :
    (m.execFirst (fuel + 1) os l).Yields s (Executes w scope (.choice bs last) s) := by
  match bs, os, hos with
  | [], [], _ =>
    exact (ih _ _ s (.command hl) (within_append.mp hw).2).imp fun r s' h => .choice_last h
  | (test, body) :: bs, (t, b) :: os, ⟨⟨ht, hb⟩, hos⟩ =>
    simp only [Work.flat, Command.flatBranches, within_append] at hw
    obtain ⟨⟨⟨hwt, hwb⟩, hwo⟩, hwl⟩ := hw
    rw [execFirst_cons]
    refine (hm.evalPred_yields fuel ht hwt s).bind (fun x s₁ h₁ => ?_)
      fun f s₁ h₁ => .choice_fault h₁
    cases x with
    | true => exact (ih _ _ s₁ (.command hb) hwb).imp fun r s₂ h₂ => .choice_taken h₁ h₂
    | false =>
      exact (ih _ _ s₁ (.choice hos hl) (within_append.mpr ⟨hwo, hwl⟩)).imp
        fun r s₂ h₂ => .choice_passed h₁ h₂

theorem execSound_command (hm : m.Hosts w) (ih : ExecSound m w scope fuel) {c : Command}
    {id : CommandId} (hid : m.module.arena.HoldsCommand scope c id)
    (hw : (c.flat scope).Within w.program.flat) (s : State) :
    (m.exec (fuel + 1) id).Yields s (Executes w scope (.command c) s) := by
  cases c with
  | skip span =>
    rw [exec_skip hid]
    exact yields_pure .skip
  | assign target value span =>
    obtain ⟨v, hn, hv⟩ := hid
    rw [exec_assign hn]
    exact (hm.evalExpr_yields fuel 0 hv (within_append.mp hw).1 s).bind
      (fun x s₁ h₁ => yields_of_ended (r := .ok ()) rfl (.assign h₁))
      fun f s₁ h₁ => .assign_fault h₁
  | block body span =>
    obtain ⟨slice, ids, hn, hs, -, hids⟩ := hid
    rw [exec_block hn hs]
    exact (ih _ _ s (.sequence hids) (within_append.mp hw).1).imp fun r s' h => .block h
  | cond test body others last span =>
    obtain ⟨t, b, slice, os, l, hn, hs, -, -, -, ht, hb, hos, hl⟩ := hid
    rw [exec_cond hn hs]
    have hbs : m.module.arena.HoldsBranches scope ((test, body) :: others) ((t, b) :: os) :=
      ⟨⟨ht, hb⟩, hos⟩
    exact (execSound_choice hm ih hbs hl (within_append.mp hw).1 s).imp fun r s' h => .cond h
  | loop test body span =>
    obtain ⟨t, b, hn, hlt, ht, hb⟩ := hid
    obtain ⟨hwt, hwb⟩ := within_append.mp (within_append.mp hw).1
    rw [exec_loop hn]
    refine (hm.evalPred_yields fuel ht hwt s).bind (fun x s₁ h₁ => ?_) fun f s₁ h₁ => .loop_fault h₁
    cases x with
    | true =>
      refine (ih _ _ s₁ (.command hb) hwb).bind (fun _ s₂ h₂ => ?_) fun f s₂ h₂ => .loop_body h₁ h₂
      have hid : m.module.arena.HoldsCommand scope (.loop test body span) id :=
        ⟨t, b, hn, hlt, ht, hb⟩
      exact (ih _ _ s₂ (.command hid) hw).imp fun r s₃ h₃ => .loop_turn h₁ h₂ h₃
    | false => exact yields_pure (.loop_done h₁)
  | count var start stop step body span =>
    obtain ⟨i, j, k, b, hn, -, hi, hj, hk, hb⟩ := hid
    simp only [Command.flat, within_append] at hw
    obtain ⟨⟨⟨⟨hwi, hwj⟩, hwk⟩, hwb⟩, -⟩ := hw
    rw [exec_count hn]
    refine (hm.evalExpr_yields fuel 0 hi hwi s).bind (fun first s₁ h₁ => ?_)
      fun f s₁ h₁ => .count_start h₁
    refine yields_store_bind ?_
    refine (hm.evalExpr_yields fuel 0 hj hwj (s₁.store scope var first)).bind
      (fun bound s₂ h₂ => ?_) fun f s₂ h₂ => .count_stop h₁ h₂
    by_cases hle : first ≤ bound
    · rw [if_pos hle]
      exact (ih _ _ s₂ (.turns hj hk hb)
        (within_append.mpr ⟨within_append.mpr ⟨hwj, hwk⟩, hwb⟩)).imp
        fun r s₃ h₃ => .count_some h₁ h₂ hle h₃
    · rw [if_neg hle]
      exact yields_pure (.count_none h₁ h₂ hle)
  | switch selector cases default span =>
    obtain ⟨e, slice, cs, d, hn, hs, -, -, he, hcs, hd⟩ := hid
    simp only [Command.flat, within_append] at hw
    obtain ⟨⟨⟨hwe, hwc⟩, hwd⟩, -⟩ := hw
    rw [exec_switch hn hs]
    refine (hm.evalExpr_yields fuel 0 he hwe s).bind (fun value s₁ h₁ => ?_)
      fun f s₁ h₁ => .switch_fault h₁
    rcases exists_first_case cases value with hne | ⟨before, c, after, hc, hne⟩
    · rw [hcs.lookup_eq_none hne]
      exact (ih _ _ s₁ (.command hd) hwd).imp fun r s₂ h₂ => .switch_default h₁ hne h₂
    · obtain ⟨b, hb, hcb⟩ := (hc ▸ hcs).lookup_eq_some hne
      have hmem : (value, c) ∈ cases := hc ▸ List.mem_append_right _ List.mem_cons_self
      rw [hb]
      exact (ih _ _ s₁ (.command hcb) (within_case hmem hwc)).imp
        fun r s₂ h₂ => .switch_case h₁ hc hne h₂
  | printInt value span =>
    obtain ⟨v, hn, hv⟩ := hid
    rw [exec_printInt hn]
    exact (hm.evalExpr_yields fuel 0 hv (within_append.mp hw).1 s).bind
      (fun x s₁ h₁ => yields_of_ended (r := .ok ()) rfl (.printInt h₁))
      fun f s₁ h₁ => .printInt_fault h₁
  | printText text span =>
    rw [exec_printText hid, hm.names]
    exact yields_of_ended (r := .ok ()) rfl .printText

theorem execSound_sequence (ih : ExecSound m w scope fuel) {cs : List Command}
    {ids : List CommandId} (hids : m.module.arena.HoldsCommands scope cs ids)
    (hw : (Command.flatAll scope cs).Within w.program.flat) (s : State) :
    (m.execAll (fuel + 1) ids).Yields s (Executes w scope (.sequence cs) s) := by
  match cs, ids, hids with
  | [], [], _ => exact yields_pure .sequence_nil
  | c :: cs, id :: ids, ⟨hid, hids⟩ =>
    obtain ⟨hwc, hwcs⟩ := within_append.mp hw
    rw [execAll_cons]
    refine (ih _ _ s (.command hid) hwc).bind (fun _ s₁ h₁ => ?_) fun f s₁ h₁ => .sequence_fault h₁
    exact (ih _ _ s₁ (.sequence hids) hwcs).imp fun r s₂ h₂ => .sequence_cons h₁ h₂

theorem execSound_turns (hm : m.Hosts w) (ih : ExecSound m w scope fuel) {var : Name}
    {stop step : Expr} {body : Command} {j k : ExprId} {b : CommandId}
    (hj : m.module.arena.HoldsExpr scope stop j) (hk : m.module.arena.HoldsExpr scope step k)
    (hb : m.module.arena.HoldsCommand scope body b)
    (hw : ((Work.turns var stop step body).flat scope).Within w.program.flat) (s : State) :
    (m.execCount (fuel + 1) var scope j k b).Yields s
      (Executes w scope (.turns var stop step body) s) := by
  obtain ⟨hws, hwb⟩ := within_append.mp hw
  obtain ⟨hwj, hwk⟩ := within_append.mp hws
  rw [execCount_succ]
  refine (ih _ _ s (.command hb) hwb).bind (fun _ s₁ h₁ => ?_) fun f s₁ h₁ => .turns_body h₁
  refine yields_lookup_bind ?_
  refine (hm.evalExpr_yields fuel 0 hk hwk s₁).bind (fun amount s₂ h₂ => ?_)
    fun f s₂ h₂ => .turns_step h₁ h₂
  cases hnext : advance? (s₁.env.lookup scope var) amount with
  | none => exact yields_pure (.turns_overflow h₁ h₂ (advance?_eq_none_iff.mp hnext))
  | some next =>
    have hsum := advance?_eq_some_iff.mp hnext
    refine (hm.evalExpr_yields fuel 0 hj hwj s₂).bind (fun bound s₃ h₃ => ?_)
      fun f s₃ h₃ => .turns_stop h₁ h₂ hsum h₃
    by_cases hle : next ≤ bound
    · rw [if_pos hle]
      refine yields_store_bind ?_
      exact (ih _ _ (s₃.store scope var next) (.turns hj hk hb) hw).imp
        fun r s₄ h₄ => .turns_next h₁ h₂ hsum h₃ hle h₄
    · rw [if_neg hle]
      exact yields_pure (.turns_done h₁ h₂ hsum h₃ hle)

theorem execSound (hm : m.Hosts w) (scope : ScopeId) (fuel : Nat) : ExecSound m w scope fuel := by
  induction fuel with
  | zero =>
    intro work run s h hw
    cases h <;> exact yields_outOfFuel
  | succ fuel ih =>
    intro work run s h hw
    cases h with
    | command hid => exact execSound_command hm ih hid hw s
    | sequence hids => exact execSound_sequence ih hids hw s
    | choice hos hl => exact execSound_choice hm ih hos hl hw s
    | turns hj hk hb => exact execSound_turns hm ih hj hk hb hw s

/-- What the machine gives for a piece of work is what the rules give. -/
theorem Hosts.exec_yields (hm : m.Hosts w) {work : Work} {run : Nat → Run Unit}
    (h : m.Implements scope work run) (hw : (work.flat scope).Within w.program.flat) (fuel : Nat)
    (s : State) : (run fuel).Yields s (Executes w scope work s) :=
  execSound hm scope fuel work run s h hw

/-! ## What the rules give -/

/-- What the rules give for a piece of work the machine gives, with enough fuel. -/
theorem Hosts.exec_ends (hm : m.Hosts w) {work : Work} {s s' : State} {r : Except Fault Unit}
    (h : Executes w scope work s r s') {run : Nat → Run Unit} (hi : m.Implements scope work run)
    (hw : (work.flat scope).Within w.program.flat) : Ends run s r s' := by
  induction h generalizing run with
  | skip =>
    obtain ⟨hid⟩ := hi
    exact ends_pure.of_succ fun _ => exec_skip hid
  | assign he =>
    obtain ⟨v, hn, hv⟩ := hi
    refine ((hm.evalExpr_ends he v hv (within_append.mp hw).1).bind ?_).of_succ
      fun _ => exec_assign hn
    exact ends_store
  | assign_fault he =>
    obtain ⟨v, hn, hv⟩ := hi
    exact (hm.evalExpr_ends he v hv (within_append.mp hw).1).fault.of_succ fun _ => exec_assign hn
  | printInt he =>
    obtain ⟨v, hn, hv⟩ := hi
    refine ((hm.evalExpr_ends he v hv (within_append.mp hw).1).bind ?_).of_succ
      fun _ => exec_printInt hn
    exact .of_forall fun _ => rfl
  | printInt_fault he =>
    obtain ⟨v, hn, hv⟩ := hi
    exact (hm.evalExpr_ends he v hv (within_append.mp hw).1).fault.of_succ
      fun _ => exec_printInt hn
  | printText =>
    obtain ⟨hid⟩ := hi
    refine Ends.of_succ (.of_forall fun _ => ?_) fun _ => exec_printText hid
    rw [hm.names]
    rfl
  | block _ ih =>
    obtain ⟨slice, ids, hn, hs, -, hids⟩ := hi
    exact (ih (.sequence hids) (within_append.mp hw).1).of_succ fun _ => exec_block hn hs
  | sequence_nil =>
    obtain ⟨⟩ | @⟨_, ids, hids⟩ := hi
    match ids, hids with
    | [], _ => exact ends_pure.of_succ fun _ => rfl
  | sequence_cons _ _ ihc ihrest =>
    obtain ⟨⟩ | @⟨_, ids, hids⟩ := hi
    match ids, hids with
    | id :: ids, ⟨hid, hids⟩ =>
      obtain ⟨hwc, hwrest⟩ := within_append.mp hw
      exact ((ihc (.command hid) hwc).bind (ihrest (.sequence hids) hwrest)).of_succ
        fun _ => execAll_cons
  | sequence_fault _ ihc =>
    obtain ⟨⟩ | @⟨_, ids, hids⟩ := hi
    match ids, hids with
    | id :: ids, ⟨hid, _⟩ =>
      exact (ihc (.command hid) (within_append.mp hw).1).fault.of_succ fun _ => execAll_cons
  | cond _ ih =>
    obtain ⟨t, b, slice, os, l, hn, hs, -, -, -, ht, hb, hos, hl⟩ := hi
    simp only [exec_cond hn hs]
    refine ih (.choice ?_ hl) (within_append.mp hw).1
    exact ⟨⟨ht, hb⟩, hos⟩
  | choice_last _ ih =>
    obtain ⟨⟩ | ⟨⟩ | @⟨_, _, os, l, hos, hl⟩ := hi
    match os, hos with
    | [], _ => exact (ih (.command hl) (within_append.mp hw).2).of_succ fun _ => by rw [execFirst]
  | choice_taken ht _ ihb =>
    obtain ⟨⟩ | ⟨⟩ | @⟨_, _, os, l, hos, hl⟩ := hi
    simp only [Work.flat, Command.flatBranches, within_append] at hw
    cases os with
    | nil => exact hos.elim
    | cons o os =>
      obtain ⟨⟨hit, hb⟩, -⟩ := hos
      refine ((hm.evalPred_ends ht hit hw.1.1.1).bind ?_).of_succ fun _ => execFirst_cons
      exact ihb (.command hb) hw.1.1.2
  | choice_passed ht _ iho =>
    obtain ⟨⟩ | ⟨⟩ | @⟨_, _, os, l, hos, hl⟩ := hi
    simp only [Work.flat, Command.flatBranches, within_append] at hw
    cases os with
    | nil => exact hos.elim
    | cons o os =>
      obtain ⟨⟨hit, -⟩, hos⟩ := hos
      refine ((hm.evalPred_ends ht hit hw.1.1.1).bind ?_).of_succ fun _ => execFirst_cons
      exact iho (.choice hos hl) (within_append.mpr ⟨hw.1.2, hw.2⟩)
  | choice_fault ht =>
    obtain ⟨⟩ | ⟨⟩ | @⟨_, _, os, l, hos, hl⟩ := hi
    simp only [Work.flat, Command.flatBranches, within_append] at hw
    cases os with
    | nil => exact hos.elim
    | cons o os =>
      obtain ⟨⟨hit, -⟩, -⟩ := hos
      exact (hm.evalPred_ends ht hit hw.1.1.1).fault.of_succ fun _ => execFirst_cons
  | loop_done ht =>
    obtain ⟨t, b, hn, -, hit, -⟩ := hi
    have hwt := (within_append.mp (within_append.mp hw).1).1
    refine ((hm.evalPred_ends ht hit hwt).bind ?_).of_succ fun _ => exec_loop hn
    exact ends_pure
  | loop_turn ht _ _ ihb ihl =>
    obtain ⟨t, b, hn, hlt, hit, hb⟩ := hi
    obtain ⟨hwt, hwb⟩ := within_append.mp (within_append.mp hw).1
    refine ((hm.evalPred_ends ht hit hwt).bind ?_).of_succ fun _ => exec_loop hn
    exact (ihb (.command hb) hwb).bind (ihl (.command ⟨t, b, hn, hlt, hit, hb⟩) hw)
  | loop_fault ht =>
    obtain ⟨t, b, hn, -, hit, -⟩ := hi
    have hwt := (within_append.mp (within_append.mp hw).1).1
    exact (hm.evalPred_ends ht hit hwt).fault.of_succ fun _ => exec_loop hn
  | loop_body ht _ ihb =>
    obtain ⟨t, b, hn, -, hit, hb⟩ := hi
    obtain ⟨hwt, hwb⟩ := within_append.mp (within_append.mp hw).1
    refine ((hm.evalPred_ends ht hit hwt).bind ?_).of_succ fun _ => exec_loop hn
    exact (ihb (.command hb) hwb).fault
  | count_none he he' hle =>
    obtain ⟨i, j, k, b, hn, -, hi, hj, -, -⟩ := hi
    simp only [Work.flat, Command.flat, within_append] at hw
    refine ((hm.evalExpr_ends he i hi hw.1.1.1.1).bind (ends_store.bind
      ((hm.evalExpr_ends he' j hj hw.1.1.1.2).bind ?_))).of_succ fun _ => exec_count hn
    simp only [if_neg hle]
    exact ends_pure
  | count_some he he' hle _ ih =>
    obtain ⟨i, j, k, b, hn, -, hi, hj, hk, hb⟩ := hi
    simp only [Work.flat, Command.flat, within_append] at hw ih
    obtain ⟨⟨⟨⟨hwi, hwj⟩, hwk⟩, hwb⟩, -⟩ := hw
    refine ((hm.evalExpr_ends he i hi hwi).bind (ends_store.bind
      ((hm.evalExpr_ends he' j hj hwj).bind ?_))).of_succ fun _ => exec_count hn
    simp only [if_pos hle]
    exact ih (.turns hj hk hb) ⟨⟨hwj, hwk⟩, hwb⟩
  | count_start he =>
    obtain ⟨i, j, k, b, hn, -, hi, -, -, -⟩ := hi
    simp only [Work.flat, Command.flat, within_append] at hw
    exact (hm.evalExpr_ends he i hi hw.1.1.1.1).fault.of_succ fun _ => exec_count hn
  | count_stop he he' =>
    obtain ⟨i, j, k, b, hn, -, hi, hj, -, -⟩ := hi
    simp only [Work.flat, Command.flat, within_append] at hw
    exact ((hm.evalExpr_ends he i hi hw.1.1.1.1).bind (ends_store.bind
      (hm.evalExpr_ends he' j hj hw.1.1.1.2).fault)).of_succ fun _ => exec_count hn
  | turns_overflow _ hstep hne ihb =>
    obtain ⟨⟩ | ⟨⟩ | ⟨⟩ | @⟨_, _, _, _, j, k, b, hj, hk, hb⟩ := hi
    obtain ⟨hws, hwb⟩ := within_append.mp hw
    refine ((ihb (.command hb) hwb).bind (ends_lookup.bind
      ((hm.evalExpr_ends hstep k hk (within_append.mp hws).2).bind ?_))).of_succ
        fun _ => execCount_succ
    rw [advance?_eq_none_iff.mpr hne]
    exact ends_pure
  | turns_done _ hstep hsum hstop hle ihb =>
    obtain ⟨⟩ | ⟨⟩ | ⟨⟩ | @⟨_, _, _, _, j, k, b, hj, hk, hb⟩ := hi
    obtain ⟨hws, hwb⟩ := within_append.mp hw
    obtain ⟨hwj, hwk⟩ := within_append.mp hws
    refine ((ihb (.command hb) hwb).bind (ends_lookup.bind
      ((hm.evalExpr_ends hstep k hk hwk).bind ?_))).of_succ fun _ => execCount_succ
    rw [advance?_eq_some_iff.mpr hsum]
    refine (hm.evalExpr_ends hstop j hj hwj).bind ?_
    simp only [if_neg hle]
    exact ends_pure
  | turns_next _ hstep hsum hstop hle _ ihb ihnext =>
    have hi' := hi
    obtain ⟨⟩ | ⟨⟩ | ⟨⟩ | @⟨_, _, _, _, j, k, b, hj, hk, hb⟩ := hi
    obtain ⟨hws, hwb⟩ := within_append.mp hw
    obtain ⟨hwj, hwk⟩ := within_append.mp hws
    refine ((ihb (.command hb) hwb).bind (ends_lookup.bind
      ((hm.evalExpr_ends hstep k hk hwk).bind ?_))).of_succ fun _ => execCount_succ
    rw [advance?_eq_some_iff.mpr hsum]
    refine (hm.evalExpr_ends hstop j hj hwj).bind ?_
    simp only [if_pos hle]
    exact ends_store.bind (ihnext hi' hw)
  | turns_body _ ihb =>
    obtain ⟨⟩ | ⟨⟩ | ⟨⟩ | @⟨_, _, _, _, j, k, b, hj, hk, hb⟩ := hi
    exact (ihb (.command hb) (within_append.mp hw).2).fault.of_succ fun _ => execCount_succ
  | turns_step _ hstep ihb =>
    obtain ⟨⟩ | ⟨⟩ | ⟨⟩ | @⟨_, _, _, _, j, k, b, hj, hk, hb⟩ := hi
    obtain ⟨hws, hwb⟩ := within_append.mp hw
    exact ((ihb (.command hb) hwb).bind (ends_lookup.bind
      (hm.evalExpr_ends hstep k hk (within_append.mp hws).2).fault)).of_succ
        fun _ => execCount_succ
  | turns_stop _ hstep hsum hstop ihb =>
    obtain ⟨⟩ | ⟨⟩ | ⟨⟩ | @⟨_, _, _, _, j, k, b, hj, hk, hb⟩ := hi
    obtain ⟨hws, hwb⟩ := within_append.mp hw
    obtain ⟨hwj, hwk⟩ := within_append.mp hws
    refine ((ihb (.command hb) hwb).bind (ends_lookup.bind
      ((hm.evalExpr_ends hstep k hk hwk).bind ?_))).of_succ fun _ => execCount_succ
    rw [advance?_eq_some_iff.mpr hsum]
    exact (hm.evalExpr_ends hstop j hj hwj).fault
  | switch_case he hc hne _ ih =>
    obtain ⟨e, slice, cs, d, hn, hs, -, -, hie, hcs, -⟩ := hi
    simp only [Work.flat, Command.flat, within_append] at hw ih
    obtain ⟨⟨⟨hwe, hwc⟩, -⟩, -⟩ := hw
    subst hc
    obtain ⟨b, hb, hcb⟩ := hcs.lookup_eq_some hne
    refine ((hm.evalExpr_ends he e hie hwe).bind ?_).of_succ fun _ => exec_switch hn hs
    rw [hb]
    exact ih (.command hcb) (within_case (List.mem_append_right _ List.mem_cons_self) hwc)
  | switch_default he hne _ ih =>
    obtain ⟨e, slice, cs, d, hn, hs, -, -, hie, hcs, hd⟩ := hi
    simp only [Work.flat, Command.flat, within_append] at hw ih
    obtain ⟨⟨⟨hwe, -⟩, hwd⟩, -⟩ := hw
    refine ((hm.evalExpr_ends he e hie hwe).bind ?_).of_succ fun _ => exec_switch hn hs
    rw [hcs.lookup_eq_none hne]
    exact ih (.command hd) hwd
  | switch_fault he =>
    obtain ⟨e, slice, cs, d, hn, hs, -, -, hie, -, -⟩ := hi
    simp only [Work.flat, Command.flat, within_append] at hw
    exact (hm.evalExpr_ends he e hie hw.1.1.1).fault.of_succ fun _ => exec_switch hn hs

/-! ## On the machine of a program -/

theorem Implements.yields {work : Work} {run : Nat → Run Unit} (h : m.Implements scope work run)
    (hm : m.Serves w) (hw : (work.flat scope).Within w.program.flat) (fuel : Nat) (s : State) :
    (run fuel).Yields s (Executes w scope work s) :=
  hm.hosts.exec_yields h hw fuel s

theorem Implements.ends (hm : m.Serves w) {work : Work} {s s' : State} {r : Except Fault Unit}
    (h : Executes w scope work s r s') {run : Nat → Run Unit} (hi : m.Implements scope work run)
    (hw : (work.flat scope).Within w.program.flat) : Ends run s r s' :=
  hm.hosts.exec_ends h hi hw

end Machine

end Enquanto

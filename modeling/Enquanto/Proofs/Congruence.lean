import Enquanto.Proofs.Adequacy
import Enquanto.Proofs.Translation

/-!
# Runs of translated programs

A machine puts its runs together from few parts: it gives a value, looks a variable up, stores,
prints, reads, raises a fault, and goes on after another run. So a relation of runs that is kept by
each of these holds between the runs of two machines, whenever the program of the one is a
translation of the program of the other.

* `Run.Congruence`: the relation is kept by the parts of runs;
* `Setting.Translates`: two programs whose names, functions and limits correspond;
* `Machine.evalExpr_congruent`, `Machine.evalPred_congruent` and `Machine.congruent`: the relation
  holds of expressions, of predicates, and of all that a command consists of;
* `Machine.run_congruent`: it holds of whole runs.
-/

namespace Enquanto

open Run Flattening

/-- Scopes that correspond: that of the global variables to itself, and those of functions as the
functions do. -/
inductive Translation.Scope (τ : Translation) : ScopeId → ScopeId → Prop
  | root : Translation.Scope τ .root .root
  | function {f f' : FunctionId} : τ.function f f' → Translation.Scope τ f.scope f'.scope

/-- A relation of runs that is kept by all that runs are made of, where no more than `limit` calls
may be open. -/
structure Run.Congruence (τ : Translation) (limit : Nat)
    (P : {α : Type} → Run α → Run α → Prop) : Prop where
  pure : ∀ {α : Type} (a : α), P (pure a : Run α) (pure a)
  bind : ∀ {α β : Type} {run run' : Run α} {next next' : α → Run β}, P run run' →
    (∀ a, P (next a) (next' a)) → P (run >>= next) (run' >>= next')
  outOfFuel : ∀ {α : Type}, P (throw .outOfFuel : Run α) (throw .outOfFuel)
  lookup : ∀ {scope scope' x x'}, τ.Scope scope scope' → τ.name x x' →
    P (lookup scope x) (lookup scope' x')
  store : ∀ {scope scope' x x'} (value : Int32), τ.Scope scope scope' → τ.name x x' →
    P (store scope x value) (store scope' x' value)
  printLine : ∀ line, P (printLine line) (printLine line)
  readInt : ∀ {s s'}, τ.span s s' → P (readInt s) (readInt s')
  division : ∀ {s s'}, τ.span s s' →
    P (fault .divisionByZero (some s) : Run Int32) (fault .divisionByZero (some s'))
  overflow : P (fault (.stackOverflow limit) : Run Int32) (fault (.stackOverflow limit))
  orSpan : ∀ {s s'} {run run' : Run Int32}, τ.span s s' → P run run' →
    P (orSpan s run) (orSpan s' run')

/-- Both runs take the same branch. -/
theorem Run.Congruence.ite {τ : Translation} {limit : Nat}
    {P : {α : Type} → Run α → Run α → Prop} (_ : Congruence τ limit P) {α : Type} {c : Prop}
    [Decidable c] {run run' other other' : Run α} (h : P run run') (h' : P other other') :
    P (if c then run else other) (if c then run' else other') := by
  split
  · exact h
  · exact h'

/-- Names that may stand for each other have the same text, the limit is the same, and functions
that may stand for each other are declared alike. -/
structure Setting.Translates (τ : Translation) (w w' : Setting) : Prop where
  text : ∀ {x x'}, τ.name x x' → w.names.text x = w'.names.text x'
  maxDepth : w.maxDepth = w'.maxDepth
  declaration : ∀ {f f' d d'}, τ.function f f' → w.program.declarations[f.index]? = some d →
    w'.program.declarations[f'.index]? = some d' → d.Translates τ d'

/-- What is to be run, in two programs. -/
inductive Work.Translates (τ : Translation) : Work → Work → Prop
  | command {c c' : Command} : c.Translates τ c' → Translates τ (.command c) (.command c')
  | sequence {cs cs' : List Command} : List.Forall₂ (Command.Translates τ) cs cs' →
    Translates τ (.sequence cs) (.sequence cs')
  | choice {bs bs' : List (Pred × Command)} {last last' : Command} :
    List.Forall₂ (Command.BranchTranslates τ) bs bs' → last.Translates τ last' →
    Translates τ (.choice bs last) (.choice bs' last')
  | turns {x x' : Name} {stop stop' step step' : Expr} {body body' : Command} : τ.name x x' →
    stop.Translates τ stop' → step.Translates τ step' → body.Translates τ body' →
    Translates τ (.turns x stop step body) (.turns x' stop' step' body')

namespace Machine

variable {τ : Translation} {m m' : Machine} {w w' : Setting}
  {P : {α : Type} → Run α → Run α → Prop} {fuel : Nat}

/-! ## Expressions -/

/-- The expression stands at the id, and is a part of the program. -/
def Has (m : Machine) (w : Setting) (scope : ScopeId) (e : Expr) (id : ExprId) : Prop :=
  m.module.arena.HoldsExpr scope e id ∧ (e.flat scope).Within w.program.flat

/-- With this fuel, the values of expressions are related. -/
def EvalCongruent (τ : Translation) (m m' : Machine) (w w' : Setting)
    (P : {α : Type} → Run α → Run α → Prop) (fuel : Nat) : Prop :=
  ∀ (depth : Nat) {scope scope' : ScopeId} {e e' : Expr} {id id' : ExprId},
    τ.Scope scope scope' → e.Translates τ e' → m.Has w scope e id → m'.Has w' scope' e' id' →
    P (m.evalExpr fuel depth id) (m'.evalExpr fuel depth id')

/-- With this fuel, the bindings of arguments are related. -/
def BindCongruent (τ : Translation) (m m' : Machine) (w w' : Setting)
    (P : {α : Type} → Run α → Run α → Prop) (fuel : Nat) : Prop :=
  ∀ (depth : Nat) {scope scope' callee callee' : ScopeId} {params params' : List Name}
    {args args' : List Expr} {ids ids' : List ExprId}, τ.Scope scope scope' →
    τ.Scope callee callee' → List.Forall₂ τ.name params params' →
    List.Forall₂ (Expr.Translates τ) args args' → m.module.arena.HoldsExprs scope args ids →
    m'.module.arena.HoldsExprs scope' args' ids' →
    (Expr.flatAll scope args).Within w.program.flat →
    (Expr.flatAll scope' args').Within w'.program.flat →
    P (m.bindArgs fuel depth callee (params.zip ids))
      (m'.bindArgs fuel depth callee' (params'.zip ids'))

/-- With this fuel, the values of calls are related. -/
def CallCongruent (τ : Translation) (m m' : Machine) (w w' : Setting)
    (P : {α : Type} → Run α → Run α → Prop) (fuel : Nat) : Prop :=
  ∀ (depth : Nat) {scope scope' : ScopeId} {f f' : FunctionId} {args args' : List Expr}
    {s s' : Span} {slice slice' : Slice} {ids ids' : List ExprId}, τ.Scope scope scope' →
    τ.function f f' → List.Forall₂ (Expr.Translates τ) args args' →
    m.module.arena.args? slice = some ids → m'.module.arena.args? slice' = some ids' →
    m.module.arena.HoldsExprs scope args ids → m'.module.arena.HoldsExprs scope' args' ids' →
    ((Expr.call f args s).flat scope).Within w.program.flat →
    ((Expr.call f' args' s').flat scope').Within w'.program.flat →
    P (m.call fuel depth f slice) (m'.call fuel depth f' slice')

theorem bindCongruent_succ (hP : Congruence τ w.maxDepth P) (he : EvalCongruent τ m m' w w' P fuel)
    (hb : BindCongruent τ m m' w w' P fuel) : BindCongruent τ m m' w w' P (fuel + 1) := by
  intro depth scope scope' callee callee' params params' args args' ids ids' hscope hcallee hparams
    hargs hids hids' hw hw'
  cases hparams with
  | nil => exact hP.pure ()
  | cons hp hparams =>
    cases hargs with
    | nil =>
      match ids, ids', hids, hids' with
      | [], [], _, _ => exact hP.pure ()
    | cons harg hargs =>
      match ids, ids', hids, hids' with
      | id :: ids, id' :: ids', ⟨hid, hids⟩, ⟨hid', hids'⟩ =>
        obtain ⟨hwarg, hwargs⟩ := within_append.mp hw
        obtain ⟨hwarg', hwargs'⟩ := within_append.mp hw'
        refine hP.bind (he depth hscope harg ⟨hid, hwarg⟩ ⟨hid', hwarg'⟩) fun value => ?_
        refine hP.bind (hP.store value hcallee hp) fun _ => ?_
        exact hb depth hscope hcallee hparams hargs hids hids' hwargs hwargs'

theorem callCongruent_succ (hP : Congruence τ w.maxDepth P) (hm : m.Serves w) (hm' : m'.Serves w')
    (hw : w.Translates τ w') (he : EvalCongruent τ m m' w w' P fuel)
    (hb : BindCongruent τ m m' w w' P fuel) : CallCongruent τ m m' w w' P (fuel + 1) := by
  intro depth scope scope' f f' args args' s s' slice slice' ids ids' hscope hf hargs hs hs' hids
    hids' hwith hwith'
  obtain ⟨hwargs, hcall⟩ := within_call hwith
  obtain ⟨hwargs', hcall'⟩ := within_call hwith'
  obtain ⟨d, body, hd, hlen, hfun, hbody, hwbody⟩ := hm.callee hcall
  obtain ⟨d', body', hd', hlen', hfun', hbody', hwbody'⟩ := hm'.callee hcall'
  have htranslates := hw.declaration hf hd hd'
  have hinner : τ.Scope f.scope f'.scope := .function hf
  rw [call_of_arity hfun rfl hs (hids.length_eq.trans hlen),
    call_of_arity hfun' rfl hs' (hids'.length_eq.trans hlen')]
  refine hP.bind (hb depth hscope hinner htranslates.params hargs hids hids' hwargs hwargs')
    fun _ => ?_
  rw [hm'.maxDepth, ← hw.maxDepth, hm.maxDepth]
  refine hP.ite ?_ hP.overflow
  exact he (depth + 1) hinner htranslates.body ⟨hbody, hwbody⟩ ⟨hbody', hwbody'⟩

theorem evalCongruent_succ (hP : Congruence τ w.maxDepth P) (he : EvalCongruent τ m m' w w' P fuel)
    (hc : CallCongruent τ m m' w w' P fuel) : EvalCongruent τ m m' w w' P (fuel + 1) := by
  rintro depth scope scope' e e' id id' hscope htranslates ⟨hid, hwith⟩ ⟨hid', hwith'⟩
  cases htranslates with
  | int hs =>
    rw [evalExpr_int hid, evalExpr_int hid']
    exact hP.pure _
  | var hx hs =>
    rw [evalExpr_var hid, evalExpr_var hid']
    exact hP.lookup hscope hx
  | neg h hs =>
    obtain ⟨i, hn, -, hi⟩ := hid
    obtain ⟨i', hn', -, hi'⟩ := hid'
    rw [evalExpr_neg hn, evalExpr_neg hn']
    have hoperand := he depth hscope h ⟨hi, (within_append.mp hwith).1⟩
      ⟨hi', (within_append.mp hwith').1⟩
    exact hP.bind hoperand fun _ => hP.pure _
  | @arith op _ _ _ _ _ _ hl hr hs =>
    obtain ⟨i, j, hn, -, -, hi, hj⟩ := hid
    obtain ⟨i', j', hn', -, -, hi', hj'⟩ := hid'
    obtain ⟨hwl, hwr, -⟩ := within_arith hwith
    obtain ⟨hwl', hwr', -⟩ := within_arith hwith'
    rw [evalExpr_arith hn, evalExpr_arith hn']
    refine hP.bind (he depth hscope hl ⟨hi, hwl⟩ ⟨hi', hwl'⟩) fun x => ?_
    refine hP.bind (he depth hscope hr ⟨hj, hwr⟩ ⟨hj', hwr'⟩) fun y => ?_
    cases op.apply x y with
    | some value => exact hP.pure value
    | none => exact hP.division hs
  | read hs =>
    rw [evalExpr_read hid, evalExpr_read hid']
    exact hP.readInt hs
  | call hf hargs hs =>
    obtain ⟨slice, ids, hn, hslice, -, hids⟩ := hid
    obtain ⟨slice', ids', hn', hslice', -, hids'⟩ := hid'
    rw [evalExpr_call hn, evalExpr_call hn']
    exact hP.orSpan hs (hc depth hscope hf hargs hslice hslice' hids hids' hwith hwith')

/-- Expressions that are translations of each other have related values. -/
theorem evalExpr_congruent (hP : Congruence τ w.maxDepth P) (hm : m.Serves w) (hm' : m'.Serves w')
    (hw : w.Translates τ w') (fuel : Nat) : EvalCongruent τ m m' w w' P fuel := by
  suffices h : EvalCongruent τ m m' w w' P fuel ∧ BindCongruent τ m m' w w' P fuel ∧
      CallCongruent τ m m' w w' P fuel from h.1
  induction fuel with
  | zero =>
    refine ⟨?_, ?_, ?_⟩
    all_goals
      intro depth
      intros
      exact hP.outOfFuel
  | succ fuel ih =>
    obtain ⟨he, hb, hc⟩ := ih
    exact ⟨evalCongruent_succ hP he hc, bindCongruent_succ hP he hb,
      callCongruent_succ hP hm hm' hw he hb⟩

/-! ## Predicates -/

theorem evalPred_congruent (hP : Congruence τ w.maxDepth P) (hm : m.Serves w) (hm' : m'.Serves w')
    (hw : w.Translates τ w') (fuel : Nat) {scope scope' : ScopeId} {p p' : Pred} {id id' : PredId}
    (hscope : τ.Scope scope scope') (htranslates : p.Translates τ p')
    (hid : m.module.arena.HoldsPred scope p id) (hid' : m'.module.arena.HoldsPred scope' p' id')
    (hwith : (p.flat scope).Within w.program.flat)
    (hwith' : (p'.flat scope').Within w'.program.flat) :
    P (m.evalPred fuel id) (m'.evalPred fuel id') := by
  induction fuel generalizing p p' id id' with
  | zero => exact hP.outOfFuel
  | succ fuel ih =>
    have he := evalExpr_congruent hP hm hm' hw fuel
    cases htranslates with
    | lit hs =>
      rw [evalPred_lit hid, evalPred_lit hid']
      exact hP.pure _
    | not h hs =>
      obtain ⟨i, hn, -, hi⟩ := hid
      obtain ⟨i', hn', -, hi'⟩ := hid'
      rw [evalPred_not hn, evalPred_not hn']
      have hoperand := ih h hi hi' (within_append.mp hwith).1 (within_append.mp hwith').1
      exact hP.bind hoperand fun _ => hP.pure _
    | logic hl hr hs =>
      obtain ⟨i, j, hn, -, -, hi, hj⟩ := hid
      obtain ⟨i', j', hn', -, -, hi', hj'⟩ := hid'
      obtain ⟨hwl, hwr⟩ := within_append.mp (within_append.mp hwith).1
      obtain ⟨hwl', hwr'⟩ := within_append.mp (within_append.mp hwith').1
      rw [evalPred_logic hn, evalPred_logic hn']
      exact hP.bind (ih hl hi hi' hwl hwl') fun _ => hP.bind (ih hr hj hj' hwr hwr') fun _ =>
        hP.pure _
    | rel hl hr hs =>
      obtain ⟨i, j, hn, hi, hj⟩ := hid
      obtain ⟨i', j', hn', hi', hj'⟩ := hid'
      obtain ⟨hwl, hwr⟩ := within_append.mp (within_append.mp hwith).1
      obtain ⟨hwl', hwr'⟩ := within_append.mp (within_append.mp hwith').1
      rw [evalPred_rel hn, evalPred_rel hn']
      refine hP.bind (he 0 hscope hl ⟨hi, hwl⟩ ⟨hi', hwl'⟩) fun x => ?_
      exact hP.bind (he 0 hscope hr ⟨hj, hwr⟩ ⟨hj', hwr'⟩) fun y => hP.pure _

/-! ## Commands -/

/-- With this fuel, the runs of work are related. -/
def ExecCongruent (τ : Translation) (m m' : Machine) (w w' : Setting)
    (P : {α : Type} → Run α → Run α → Prop) (fuel : Nat) : Prop :=
  ∀ {work work' : Work} {run run' : Nat → Run Unit}, work.Translates τ work' →
    m.Implements .root work run → m'.Implements .root work' run' →
    (work.flat .root).Within w.program.flat → (work'.flat .root).Within w'.program.flat →
    P (run fuel) (run' fuel)

/-- The commands that two choices take are translations of each other. -/
theorem switch_congruent (ih : ExecCongruent τ m m' w w' P fuel)
    {cases cases' : List (Int32 × Command)} {default default' : Command}
    {cs cs' : List (Int32 × CommandId)} {d d' : CommandId}
    (hcases : List.Forall₂ (Command.CaseTranslates τ) cases cases')
    (hdefault : default.Translates τ default') (hcs : m.module.arena.HoldsCases .root cases cs)
    (hcs' : m'.module.arena.HoldsCases .root cases' cs')
    (hd : m.module.arena.HoldsCommand .root default d)
    (hd' : m'.module.arena.HoldsCommand .root default' d')
    (hwc : (Command.flatCases .root cases).Within w.program.flat)
    (hwc' : (Command.flatCases .root cases').Within w'.program.flat)
    (hwd : (default.flat .root).Within w.program.flat)
    (hwd' : (default'.flat .root).Within w'.program.flat) (value : Int32) :
    P (m.exec fuel ((cs.lookup value).getD d)) (m'.exec fuel ((cs'.lookup value).getD d')) := by
  induction hcases generalizing cs cs' with
  | nil =>
    match cs, cs', hcs, hcs' with
    | [], [], _, _ => exact ih (.command hdefault) (.command hd) (.command hd') hwd hwd'
  | cons hcase _ ihcases =>
    obtain ⟨hbody⟩ := hcase
    match cs, cs', hcs, hcs' with
    | (label, b) :: cs, (label', b') :: cs', ⟨⟨hl, hb⟩, hrest⟩, ⟨⟨hl', hb'⟩, hrest'⟩ =>
      subst hl hl'
      obtain ⟨hwb, hwc⟩ := within_append.mp hwc
      obtain ⟨hwb', hwc'⟩ := within_append.mp hwc'
      simp only [List.lookup_cons]
      split
      · exact ih (.command hbody) (.command hb) (.command hb') hwb hwb'
      · exact ihcases hrest hrest' hwc hwc'

section
variable (hP : Congruence τ w.maxDepth P) (hm : m.Serves w) (hm' : m'.Serves w')
  (hw : w.Translates τ w')
include hP hm hm' hw

theorem choice_congruent (ih : ExecCongruent τ m m' w w' P fuel)
    {bs bs' : List (Pred × Command)} {last last' : Command} {os os' : List (PredId × CommandId)}
    {l l' : CommandId} (hbs : List.Forall₂ (Command.BranchTranslates τ) bs bs')
    (hlast : last.Translates τ last') (hos : m.module.arena.HoldsBranches .root bs os)
    (hos' : m'.module.arena.HoldsBranches .root bs' os')
    (hl : m.module.arena.HoldsCommand .root last l)
    (hl' : m'.module.arena.HoldsCommand .root last' l')
    (hwith : ((Work.choice bs last).flat .root).Within w.program.flat)
    (hwith' : ((Work.choice bs' last').flat .root).Within w'.program.flat) :
    P (m.execFirst (fuel + 1) os l) (m'.execFirst (fuel + 1) os' l') := by
  cases hbs with
  | nil =>
    match os, os', hos, hos' with
    | [], [], _, _ =>
      exact ih (.command hlast) (.command hl) (.command hl') (within_append.mp hwith).2
        (within_append.mp hwith').2
  | cons hbranch hbs =>
    obtain ⟨ht, hb⟩ := hbranch
    match os, os', hos, hos' with
    | (i, b) :: os, (i', b') :: os', ⟨⟨hi, hib⟩, hos⟩, ⟨⟨hi', hib'⟩, hos'⟩ =>
      simp only [Work.flat, Command.flatBranches, within_append] at hwith hwith'
      obtain ⟨⟨⟨hwt, hwb⟩, hwo⟩, hwl⟩ := hwith
      obtain ⟨⟨⟨hwt', hwb'⟩, hwo'⟩, hwl'⟩ := hwith'
      rw [execFirst_cons, execFirst_cons]
      refine hP.bind (evalPred_congruent hP hm hm' hw fuel .root ht hi hi' hwt hwt') fun x => ?_
      refine hP.ite (ih (.command hb) (.command hib) (.command hib') hwb hwb') ?_
      exact ih (.choice hbs hlast) (.choice hos hl) (.choice hos' hl')
        (within_append.mpr ⟨hwo, hwl⟩) (within_append.mpr ⟨hwo', hwl'⟩)

theorem turns_congruent (ih : ExecCongruent τ m m' w w' P fuel) {x x' : Name}
    {stop stop' step step' : Expr} {body body' : Command} {j j' k k' : ExprId} {b b' : CommandId}
    (htranslates : Work.Translates τ (.turns x stop step body) (.turns x' stop' step' body'))
    (hj : m.module.arena.HoldsExpr .root stop j) (hj' : m'.module.arena.HoldsExpr .root stop' j')
    (hk : m.module.arena.HoldsExpr .root step k) (hk' : m'.module.arena.HoldsExpr .root step' k')
    (hb : m.module.arena.HoldsCommand .root body b)
    (hb' : m'.module.arena.HoldsCommand .root body' b')
    (hwith : ((Work.turns x stop step body).flat .root).Within w.program.flat)
    (hwith' : ((Work.turns x' stop' step' body').flat .root).Within w'.program.flat) :
    P (m.execCount (fuel + 1) x .root j k b) (m'.execCount (fuel + 1) x' .root j' k' b') := by
  have he := evalExpr_congruent hP hm hm' hw fuel
  obtain ⟨hws, hwb⟩ := within_append.mp hwith
  obtain ⟨hws', hwb'⟩ := within_append.mp hwith'
  obtain ⟨hwj, hwk⟩ := within_append.mp hws
  obtain ⟨hwj', hwk'⟩ := within_append.mp hws'
  cases htranslates with
  | turns hx hstop hstep hbody =>
    rw [execCount_succ, execCount_succ]
    refine hP.bind (ih (.command hbody) (.command hb) (.command hb') hwb hwb') fun _ => ?_
    refine hP.bind (hP.lookup .root hx) fun current => ?_
    refine hP.bind (he 0 .root hstep ⟨hk, hwk⟩ ⟨hk', hwk'⟩) fun amount => ?_
    cases advance? current amount with
    | none => exact hP.pure ()
    | some next =>
      refine hP.bind (he 0 .root hstop ⟨hj, hwj⟩ ⟨hj', hwj'⟩) fun bound => ?_
      refine hP.ite (hP.bind (hP.store next .root hx) fun _ => ?_) (hP.pure ())
      exact ih (.turns hx hstop hstep hbody) (.turns hj hk hb) (.turns hj' hk' hb') hwith hwith'

theorem command_congruent (ih : ExecCongruent τ m m' w w' P fuel) {c c' : Command}
    {id id' : CommandId} (htranslates : c.Translates τ c')
    (hid : m.module.arena.HoldsCommand .root c id)
    (hid' : m'.module.arena.HoldsCommand .root c' id')
    (hwith : (c.flat .root).Within w.program.flat)
    (hwith' : (c'.flat .root).Within w'.program.flat) :
    P (m.exec (fuel + 1) id) (m'.exec (fuel + 1) id') := by
  have he := evalExpr_congruent hP hm hm' hw fuel
  cases htranslates with
  | skip hs =>
    rw [exec_skip hid, exec_skip hid']
    exact hP.pure ()
  | assign hx h hs =>
    obtain ⟨v, hn, hv⟩ := hid
    obtain ⟨v', hn', hv'⟩ := hid'
    have hvalue := he 0 .root h ⟨hv, (within_append.mp hwith).1⟩ ⟨hv', (within_append.mp hwith').1⟩
    rw [exec_assign hn, exec_assign hn']
    exact hP.bind hvalue fun value => hP.store value .root hx
  | block h hs =>
    obtain ⟨slice, ids, hn, hslice, -, hids⟩ := hid
    obtain ⟨slice', ids', hn', hslice', -, hids'⟩ := hid'
    rw [exec_block hn hslice, exec_block hn' hslice']
    exact ih (.sequence h) (.sequence hids) (.sequence hids') (within_append.mp hwith).1
      (within_append.mp hwith').1
  | cond ht hb ho hl hs =>
    obtain ⟨i, b, slice, os, l, hn, hslice, -, -, -, hi, hib, hos, hil⟩ := hid
    obtain ⟨i', b', slice', os', l', hn', hslice', -, -, -, hi', hib', hos', hil'⟩ := hid'
    rw [exec_cond hn hslice, exec_cond hn' hslice']
    exact choice_congruent hP hm hm' hw ih (.cons (.intro ht hb) ho) hl ⟨⟨hi, hib⟩, hos⟩
      ⟨⟨hi', hib'⟩, hos'⟩ hil hil' (within_append.mp hwith).1 (within_append.mp hwith').1
  | loop ht hb hs =>
    have hloop := hid
    have hloop' := hid'
    obtain ⟨i, b, hn, -, hi, hib⟩ := hid
    obtain ⟨i', b', hn', -, hi', hib'⟩ := hid'
    obtain ⟨hwt, hwb⟩ := within_append.mp (within_append.mp hwith).1
    obtain ⟨hwt', hwb'⟩ := within_append.mp (within_append.mp hwith').1
    rw [exec_loop hn, exec_loop hn']
    refine hP.bind (evalPred_congruent hP hm hm' hw fuel .root ht hi hi' hwt hwt') fun x => ?_
    refine hP.ite ?_ (hP.pure ())
    refine hP.bind (ih (.command hb) (.command hib) (.command hib') hwb hwb') fun _ => ?_
    exact ih (.command (.loop ht hb hs)) (.command hloop) (.command hloop') hwith hwith'
  | count hx hstart hstop hstep hbody hs =>
    obtain ⟨i, j, k, b, hn, -, hi, hj, hk, hb⟩ := hid
    obtain ⟨i', j', k', b', hn', -, hi', hj', hk', hb'⟩ := hid'
    simp only [Command.flat, within_append] at hwith hwith'
    obtain ⟨⟨⟨⟨hwi, hwj⟩, hwk⟩, hwb⟩, -⟩ := hwith
    obtain ⟨⟨⟨⟨hwi', hwj'⟩, hwk'⟩, hwb'⟩, -⟩ := hwith'
    rw [exec_count hn, exec_count hn']
    refine hP.bind (he 0 .root hstart ⟨hi, hwi⟩ ⟨hi', hwi'⟩) fun first => ?_
    refine hP.bind (hP.store first .root hx) fun _ => ?_
    refine hP.bind (he 0 .root hstop ⟨hj, hwj⟩ ⟨hj', hwj'⟩) fun bound => ?_
    refine hP.ite ?_ (hP.pure ())
    exact ih (.turns hx hstop hstep hbody) (.turns hj hk hb) (.turns hj' hk' hb')
      (within_append.mpr ⟨within_append.mpr ⟨hwj, hwk⟩, hwb⟩)
      (within_append.mpr ⟨within_append.mpr ⟨hwj', hwk'⟩, hwb'⟩)
  | switch hselector hcases hdefault hs =>
    obtain ⟨v, slice, cs, d, hn, hslice, -, -, hv, hcs, hd⟩ := hid
    obtain ⟨v', slice', cs', d', hn', hslice', -, -, hv', hcs', hd'⟩ := hid'
    simp only [Command.flat, within_append] at hwith hwith'
    obtain ⟨⟨⟨hwv, hwc⟩, hwd⟩, -⟩ := hwith
    obtain ⟨⟨⟨hwv', hwc'⟩, hwd'⟩, -⟩ := hwith'
    rw [exec_switch hn hslice, exec_switch hn' hslice']
    refine hP.bind (he 0 .root hselector ⟨hv, hwv⟩ ⟨hv', hwv'⟩) fun value => ?_
    exact switch_congruent ih hcases hdefault hcs hcs' hd hd' hwc hwc' hwd hwd' value
  | printInt h hs =>
    obtain ⟨v, hn, hv⟩ := hid
    obtain ⟨v', hn', hv'⟩ := hid'
    have hvalue := he 0 .root h ⟨hv, (within_append.mp hwith).1⟩ ⟨hv', (within_append.mp hwith').1⟩
    rw [exec_printInt hn, exec_printInt hn']
    exact hP.bind hvalue fun _ => hP.printLine _
  | printText hx hs =>
    rw [exec_printText hid, exec_printText hid', hm.names, hm'.names, hw.text hx]
    exact hP.printLine _

/-- Commands that are translations of each other, and what is left of them, have related runs. -/
theorem congruent (fuel : Nat) : ExecCongruent τ m m' w w' P fuel := by
  induction fuel with
  | zero =>
    intro work work' run run' _ hrun hrun' _ _
    cases hrun <;> cases hrun' <;> exact hP.outOfFuel
  | succ fuel ih =>
    intro work work' run run' htranslates hrun hrun' hwith hwith'
    cases htranslates with
    | command h =>
      obtain @⟨_, id, hid⟩ := hrun
      obtain @⟨_, id', hid'⟩ := hrun'
      exact command_congruent hP hm hm' hw ih h hid hid' hwith hwith'
    | sequence h =>
      obtain ⟨⟩ | @⟨_, ids, hids⟩ := hrun
      obtain ⟨⟩ | @⟨_, ids', hids'⟩ := hrun'
      cases h with
      | nil =>
        match ids, ids', hids, hids' with
        | [], [], _, _ => exact hP.pure ()
      | cons hc hcs =>
        match ids, ids', hids, hids' with
        | id :: ids, id' :: ids', ⟨hid, hids⟩, ⟨hid', hids'⟩ =>
          obtain ⟨hwc, hwcs⟩ := within_append.mp hwith
          obtain ⟨hwc', hwcs'⟩ := within_append.mp hwith'
          show P (m.execAll (fuel + 1) (id :: ids)) (m'.execAll (fuel + 1) (id' :: ids'))
          rw [execAll_cons, execAll_cons]
          refine hP.bind (ih (.command hc) (.command hid) (.command hid') hwc hwc') fun _ => ?_
          exact ih (.sequence hcs) (.sequence hids) (.sequence hids') hwcs hwcs'
    | choice hbs hl =>
      obtain ⟨⟩ | ⟨⟩ | ⟨hos, hil⟩ := hrun
      obtain ⟨⟩ | ⟨⟩ | ⟨hos', hil'⟩ := hrun'
      exact choice_congruent hP hm hm' hw ih hbs hl hos hos' hil hil' hwith hwith'
    | turns hx hstop hstep hbody =>
      obtain ⟨⟩ | ⟨⟩ | ⟨⟩ | ⟨hj, hk, hb⟩ := hrun
      obtain ⟨⟩ | ⟨⟩ | ⟨⟩ | ⟨hj', hk', hb'⟩ := hrun'
      exact turns_congruent hP hm hm' hw ih (.turns hx hstop hstep hbody) hj hj' hk hk' hb hb'
        hwith hwith'

/-- Machines whose programs have commands that are translations of each other have related runs. -/
theorem run_congruent (hcommands : List.Forall₂ (Command.Translates τ) w.program.commands
    w'.program.commands) (fuel : Nat) : P (m.run fuel) (m'.run fuel) :=
  congruent hP hm hm' hw fuel (.sequence hcommands) hm.implements_run hm'.implements_run
    w.program.commands_within w'.program.commands_within

end

end Machine

/-! ## Programs -/

namespace Program

variable {τ : Translation} {p p' : Program}

theorem commands_translate (h : List.Forall₂ (Instruction.Translates τ) p p') :
    List.Forall₂ (Command.Translates τ) p.commands p'.commands := by
  induction h with
  | nil => exact .nil
  | cons hi _ ih =>
    cases hi with
    | command hc => exact .cons hc ih
    | declare _ => exact ih

theorem declarations_translate (h : List.Forall₂ (Instruction.Translates τ) p p') :
    List.Forall₂ (Declaration.Translates τ) p.declarations p'.declarations := by
  induction h with
  | nil => exact .nil
  | cons hi _ ih =>
    cases hi with
    | command _ => exact ih
    | declare hd => exact .cons hd ih

end Program

/-- Settings whose programs are translations of each other, with functions that keep their
numbers. -/
theorem Setting.translates_of_forall₂ {τ : Translation} {w w' : Setting}
    (htext : ∀ {x x'}, τ.name x x' → w.names.text x = w'.names.text x')
    (hdepth : w.maxDepth = w'.maxDepth) (hfunction : ∀ {f f'}, τ.function f f' → f = f')
    (h : List.Forall₂ (Instruction.Translates τ) w.program w'.program) : w.Translates τ w' where
  text := htext
  maxDepth := hdepth
  declaration := by
    intro f f' d d' hf hd hd'
    obtain rfl := hfunction hf
    obtain ⟨hlt, rfl⟩ := List.getElem?_eq_some_iff.mp hd
    obtain ⟨hlt', rfl⟩ := List.getElem?_eq_some_iff.mp hd'
    exact (Program.declarations_translate h).get hlt hlt'

end Enquanto

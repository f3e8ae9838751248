import Enquanto.Proofs.LoopExpansion
import Enquanto.Proofs.ReadBack

/-!
# Loops and their expansions on the machine

The expansion of a counting loop is added to the arena, around the parts of the loop that stand
there. The machine of the grown arena runs it as it runs the loop: the two end alike, or both run
forever. The states in which they end differ in the variable at most, which the expansion has moved
once more.

* `Setting.behind`: a program with a command behind it, which its machine can run too if the command
  calls nothing new: `Machine.Serves.hosts_behind`;
* `CountLoop.expand` adds the expansion of a loop, and `CountLoop.Stands.holds_expand` says that it
  stands there;
* `Machine.AdvancesFit`: no advance overflows, and `Machine.Hosts.unrolls`: such a loop has what its
  expansion needs;
* `Machine.Expands`: a loop of a program, and how it and its expansion end;
* `Module.parse_expands`: the same of the counting loops of a source.
-/

namespace Enquanto

open Filter Run Flattening

/-! ## One more command behind a program -/

/-- The setting with a command behind its program. -/
def Setting.behind (w : Setting) (c : Command) : Setting :=
  { w with program := w.program ++ [.command c] }

section
variable {w : Setting} {c : Command}

theorem Setting.declarations_behind :
    (w.behind c).program.declarations = w.program.declarations := by
  simp [behind, Program.declarations, List.filterMap_append]

theorem Program.flatFrom_behind (program : Program) (declared : Nat) :
    ((program ++ [Instruction.command c]).flatFrom declared).exprs =
      (program.flatFrom declared).exprs ++ (c.flat .root).exprs := by
  induction program generalizing declared with
  | nil => simp [flatFrom]
  | cons instruction rest ih => cases instruction <;> simp [flatFrom, ih]

theorem Setting.flat_behind : (w.behind c).program.flat.exprs =
    w.program.flat.exprs ++ (c.flat .root).exprs :=
  w.program.flatFrom_behind 0

theorem Flattening.Within.behind {f : Flattening} (h : f.Within w.program.flat) :
    f.Within (w.behind c).program.flat := by
  rw [Within, Setting.flat_behind]
  exact List.Subset.trans h (List.subset_append_left _ _)

theorem Setting.within_behind : (c.flat .root).Within (w.behind c).program.flat := by
  rw [Within, Setting.flat_behind]
  exact List.subset_append_right _ _

theorem Program.Ignores.behind {e : Expr} {x : Name} (h : w.program.Ignores e x) :
    (w.behind c).program.Ignores e x := by
  unfold Ignores Hides Expr.Reaches Reaches Calls at *
  rwa [Setting.declarations_behind]

/-- A command that calls nothing new needs nothing more of a machine. -/
theorem Machine.Serves.hosts_behind {m : Machine} (hm : m.Serves w)
    (hc : ∀ scope f args span, (scope, Expr.call f args span) ∈ (c.flat .root).exprs →
      (scope, Expr.call f args span) ∈ w.program.flat.exprs) : m.Hosts (w.behind c) where
  names := hm.names
  maxDepth := hm.maxDepth
  callee := by
    intro scope f args span hcall
    rw [Setting.flat_behind, List.mem_append] at hcall
    obtain ⟨d, body, hd, hlen, hf, hb, hw⟩ := hm.callee (hcall.elim id (hc scope f args span))
    rw [Setting.declarations_behind]
    exact ⟨d, body, hd, hlen, hf, hb, hw.behind⟩

end

/-! ## The expansion in an arena -/

namespace Arena

variable {a : Arena} {scope : ScopeId}

theorem HoldsExpr.addArith {l r : Expr} {i j : ExprId} (hl : a.HoldsExpr scope l i) (op : ArithOp)
    (hr : a.HoldsExpr scope r j) (span : Span) :
    (a.addExpr (.arith op i j) span).2.HoldsExpr scope (.arith op l r span)
      (a.addExpr (.arith op i j) span).1 := by
  have hg := extends_addExpr a (.arith op i j) span
  exact ⟨i, j, expr?_addExpr _ _ _, hl.lt_size, hr.lt_size, hl.mono hg, hr.mono hg⟩

theorem HoldsPred.addLoop {test : Pred} {body : Command} {t : PredId} {b : CommandId}
    (ht : a.HoldsPred scope test t) (hb : a.HoldsCommand scope body b) (span : Span) :
    (a.addCommand (.loop t b) span).2.HoldsCommand scope (.loop test body span)
      (a.addCommand (.loop t b) span).1 := by
  have hg := extends_addCommand a (.loop t b) span
  exact ⟨t, b, command?_addCommand _ _ _, hb.lt_size, ht.mono hg, hb.mono hg⟩

theorem HoldsCommand.addPair {c d : Command} {i j : CommandId} (hc : a.HoldsCommand scope c i)
    (hd : a.HoldsCommand scope d j) (span : Span) :
    (a.addBlock [i, j] span).2.HoldsCommand scope (.block [c, d] span)
      (a.addBlock [i, j] span).1 := by
  have hg := extends_addBlock a [i, j] span
  refine ⟨_, [i, j], command?_addCommand _ _ _, body?_addBlock a [i, j] span, ?_, hc.mono hg,
    hd.mono hg, trivial⟩
  simpa using ⟨hc.lt_size, hd.lt_size⟩

end Arena

namespace CountLoop

/-- Adds the test of the expansion. -/
def addTest (loop : CountLoop) (place : Span) (a : Arena) : PredId × Arena :=
  let (current, a) := a.addExpr (.var loop.var loop.scope) place
  a.addPred (.rel .le current loop.stop) place

/-- Adds the move of the variable. -/
def addMove (loop : CountLoop) (place : Span) (a : Arena) : CommandId × Arena :=
  let (current, a) := a.addExpr (.var loop.var loop.scope) place
  let (sum, a) := a.addExpr (.arith .add current loop.step) place
  a.addCommand (.assign loop.var loop.scope sum) place

/-- Adds the body of the expansion: the body of the loop, and then the move of the variable. -/
def addTurn (loop : CountLoop) (place : Span) (a : Arena) : CommandId × Arena :=
  let (move, a) := loop.addMove place a
  a.addBlock [loop.body, move] place

/-- Adds the expansion of a loop, around the parts of the loop that are there. The new nodes get
one place. -/
def expand (loop : CountLoop) (place : Span) (a : Arena) : CommandId × Arena :=
  let (first, a) := a.addCommand (.assign loop.var loop.scope loop.start) place
  let (test, a) := loop.addTest place a
  let (turn, a) := loop.addTurn place a
  let (again, a) := a.addCommand (.loop test turn) place
  a.addBlock [first, again] place

/-- The parts of the loop stand in the arena, and it is at the top of a program. -/
structure Stands (loop : CountLoop) (a : Arena) (c : CountTree) : Prop where
  scope : loop.scope = .root
  var : loop.var = c.var
  start : a.HoldsExpr .root c.start loop.start
  stop : a.HoldsExpr .root c.stop loop.stop
  step : a.HoldsExpr .root c.step loop.step
  body : a.HoldsCommand .root c.body loop.body

variable {loop : CountLoop} {a b : Arena} {c : CountTree}

theorem Stands.mono (h : loop.Stands a c) (hab : a.Extends b) : loop.Stands b c :=
  ⟨h.scope, h.var, h.start.mono hab, h.stop.mono hab, h.step.mono hab, h.body.mono hab⟩

theorem Stands.holds_var (h : loop.Stands a c) (place : Span) :
    (a.addExpr (.var loop.var loop.scope) place).2.HoldsExpr .root (.var c.var place)
      (a.addExpr (.var loop.var loop.scope) place).1 := by
  rw [h.scope, h.var]
  exact Arena.expr?_addExpr a _ place

theorem extends_addTest (loop : CountLoop) (place : Span) (a : Arena) :
    a.Extends (loop.addTest place a).2 :=
  (Arena.extends_addExpr ..).trans (Arena.extends_addPred ..)

theorem Stands.holds_test (h : loop.Stands a c) (place : Span) :
    (loop.addTest place a).2.HoldsPred .root (c.test place) (loop.addTest place a).1 := by
  have hg := Arena.extends_addPred (a.addExpr (.var loop.var loop.scope) place).2
    (.rel .le (a.addExpr (.var loop.var loop.scope) place).1 loop.stop) place
  exact ⟨_, _, Arena.pred?_addPred _ _ _, (h.holds_var place).mono hg,
    (h.stop.mono (Arena.extends_addExpr ..)).mono hg⟩

theorem extends_addMove (loop : CountLoop) (place : Span) (a : Arena) :
    a.Extends (loop.addMove place a).2 :=
  ((Arena.extends_addExpr ..).trans (Arena.extends_addExpr ..)).trans (Arena.extends_addCommand ..)

theorem Stands.holds_move (h : loop.Stands a c) (place : Span) :
    (loop.addMove place a).2.HoldsCommand .root (c.move place) (loop.addMove place a).1 := by
  have hvar := h.holds_var place
  have hstep := h.step.mono (Arena.extends_addExpr a (.var loop.var loop.scope) place)
  have hsum := hvar.addArith .add hstep place
  refine ⟨_, ?_, hsum.mono (Arena.extends_addCommand ..)⟩
  rw [← h.scope, ← h.var]
  exact Arena.command?_addCommand _ _ _

theorem extends_addTurn (loop : CountLoop) (place : Span) (a : Arena) :
    a.Extends (loop.addTurn place a).2 :=
  (loop.extends_addMove place a).trans (Arena.extends_addBlock ..)

theorem Stands.holds_turn (h : loop.Stands a c) (place : Span) :
    (loop.addTurn place a).2.HoldsCommand .root (c.turn place) (loop.addTurn place a).1 :=
  (h.body.mono (loop.extends_addMove place a)).addPair (h.holds_move place) place

theorem extends_expand (loop : CountLoop) (place : Span) (a : Arena) :
    a.Extends (loop.expand place a).2 :=
  ((((Arena.extends_addCommand ..).trans (loop.extends_addTest ..)).trans
    (loop.extends_addTurn ..)).trans (Arena.extends_addCommand ..)).trans
      (Arena.extends_addBlock ..)

/-- The expansion stands where it was added. -/
theorem Stands.holds_expand (h : loop.Stands a c) (place : Span) :
    (loop.expand place a).2.HoldsCommand .root (c.expansion place) (loop.expand place a).1 := by
  have hassign : (a.addCommand (.assign loop.var loop.scope loop.start) place).2.HoldsCommand .root
      (.assign c.var c.start place)
      (a.addCommand (.assign loop.var loop.scope loop.start) place).1 := by
    refine ⟨loop.start, ?_, h.start.mono (Arena.extends_addCommand ..)⟩
    rw [← h.scope, ← h.var]
    exact Arena.command?_addCommand _ _ _
  have h₁ := h.mono (Arena.extends_addCommand a (.assign loop.var loop.scope loop.start) place)
  have h₂ := h₁.mono (loop.extends_addTest place _)
  have hturn := h₂.holds_turn place
  have hloop := ((h₁.holds_test place).mono (loop.extends_addTurn place _)).addLoop hturn place
  refine Arena.HoldsCommand.addPair (hassign.mono ?_) hloop place
  exact ((loop.extends_addTest ..).trans (loop.extends_addTurn ..)).trans
    (Arena.extends_addCommand ..)

end CountLoop

/-! ## On the machine -/

/-- The expansion calls nothing that the loop does not call. -/
theorem CountTree.mem_of_expansion {c : CountTree} {scope : ScopeId} {f : FunctionId}
    {args : List Expr} {span place : Span} (count : Span)
    (h : (scope, Expr.call f args span) ∈ ((c.expansion place).flat .root).exprs) :
    (scope, Expr.call f args span) ∈ ((c.count count).flat .root).exprs := by
  simp [expansion, loop, test, turn, move, Command.flat, Command.flatAll, Pred.flat, Expr.flat,
    Flattening.command, Flattening.pred, Flattening.expr] at h
  simp [CountTree.count, Command.flat, Flattening.command]
  tauto

namespace Machine

variable {m : Machine} {w : Setting} {scope : ScopeId} {s s' : State}

/-- The machine with another arena. -/
def withArena (m : Machine) (a : Arena) : Machine :=
  { m with module := { m.module with arena := a } }

theorem Hosts.withArena {b : Arena} (hm : m.Hosts w) (h : m.module.arena.Extends b) :
    (m.withArena b).Hosts w where
  names := hm.names
  maxDepth := hm.maxDepth
  callee := by
    intro scope f args span hcall
    obtain ⟨d, body, hd, hlen, hf, hb, hw⟩ := hm.callee hcall
    exact ⟨d, body, hd, hlen, hf, hb.mono h, hw⟩

theorem Hosts.evaluated_iff (hm : m.Hosts w) {e : Expr} {id : ExprId} {r : Except Fault Int32}
    (hid : m.module.arena.HoldsExpr scope e id) (hw : (e.flat scope).Within w.program.flat) :
    m.Evaluated id s r s' ↔ Evaluates w 0 scope e s r s' := by
  refine ⟨fun h => ?_, fun h => hm.evalExpr_ends h id hid hw⟩
  obtain ⟨fuel, hfuel⟩ := h.exists
  exact (hm.evalExpr_yields fuel 0 hid hw s).of_ended hfuel

theorem Hosts.executed_iff (hm : m.Hosts w) {c : Command} {id : CommandId}
    {r : Except Fault Unit} (hid : m.module.arena.HoldsCommand scope c id)
    (hw : (c.flat scope).Within w.program.flat) :
    m.Executed id s r s' ↔ Executes w scope (.command c) s r s' := by
  refine ⟨fun h => ?_, fun h => hm.exec_ends h (.command hid) hw⟩
  obtain ⟨fuel, hfuel⟩ := h.exists
  exact (hm.exec_yields (.command hid) hw fuel s).of_ended hfuel

/-- A command that ends in no way runs for as long as there is fuel. -/
theorem Hosts.exhausts_iff (hm : m.Hosts w) {c : Command} {id : CommandId}
    (hid : m.module.arena.HoldsCommand scope c id) (hw : (c.flat scope).Within w.program.flat) :
    (∀ fuel, (m.exec fuel id).Exhausts s) ↔
      ∀ r s', ¬ Executes w scope (.command c) s r s' := by
  constructor
  · exact fun h r s' hr => ((hm.executed_iff hid hw).mpr hr).not_exhausts h
  · intro h fuel
    rcases (hm.exec_yields (.command hid) hw fuel s).exists_ended with he | ⟨r, s', -, hr⟩
    · exact he
    · exact absurd hr (h r s')

/-! ### The executions of a body -/

section
variable {loop : CountLoop} {t t' u : State} {j : Nat}

theorem Enters.unique (h : m.Enters loop s t) (h' : m.Enters loop s u) : t = u := by
  obtain ⟨hstart, hstop, -⟩ := h
  obtain ⟨hstart', hstop', -⟩ := h'
  obtain ⟨hfirst, rfl⟩ := hstart.unique hstart'
  cases hfirst
  exact (hstop.unique hstop').2

theorem Turns.unique (h : m.Turns loop t t') (h' : m.Turns loop t u) : t' = u := by
  obtain ⟨hbody, hstep, hnext, hstop, -⟩ := h
  obtain ⟨hbody', hstep', hnext', hstop', -⟩ := h'
  obtain ⟨-, rfl⟩ := hbody.unique hbody'
  obtain ⟨hamount, rfl⟩ := hstep.unique hstep'
  cases hamount
  cases hnext.symm.trans hnext'
  obtain ⟨-, rfl⟩ := hstop.unique hstop'
  rfl

theorem StartsBody.unique (h : m.StartsBody loop s j t) (h' : m.StartsBody loop s j u) :
    t = u := by
  induction h generalizing u with
  | first h =>
    cases h' with
    | first h' => exact h.unique h'
  | next _ ht ih =>
    cases h' with
    | next h' ht' =>
      cases ih h'
      exact ht.unique ht'

/-- If the body does not run once more, its last execution is the one that started in `t`. -/
theorem StartsBody.bodyRuns (h : m.StartsBody loop s j t) (hlast : ∀ t', ¬ m.Turns loop t t') :
    m.BodyRuns loop s (j + 1) := by
  refine fun i => ⟨fun ⟨u, hu⟩ => ?_, fun hi => h.exists_of_le (Nat.le_of_lt_succ hi)⟩
  by_contra hi
  obtain ⟨v, hv⟩ := hu.exists_of_le (Nat.le_of_not_lt hi)
  cases hv with
  | next hv ht =>
    cases hv.unique h
    exact hlast _ ht

end

/-- When the loop runs from `s`, no advance of its variable overflows. -/
def AdvancesFit (m : Machine) (loop : CountLoop) (s : State) : Prop :=
  ∀ j t t₁ t₂ amount, m.StartsBody loop s j t → m.Executed loop.body t (.ok ()) t₁ →
    m.Evaluated loop.step t₁ (.ok amount) t₂ → advance? (loop.value t₁) amount ≠ none

/-- A loop with a literal bound and step never overflows if there is room for one more step behind
the bound. -/
theorem advancesFit_of_steady {loop : CountLoop} {amount a b : Int32}
    {holds : State → Int32 → Prop} {s₁ : State} (h : loop.Steady m amount holds)
    (hstart : m.Evaluated loop.start s (.ok a) s₁) (ha : holds (loop.set s₁ a) a)
    (hb : ∀ t, m.Evaluated loop.stop t (.ok b) t) (hpos : 1 ≤ amount.toInt)
    (hroom : b.toInt + amount.toInt ≤ 2147483647) : m.AdvancesFit loop s := by
  intro j t t₁ t₂ amount' ht hbody hstep
  obtain ⟨v, hv, heq⟩ := h.exists_holds hstart ha ht
  obtain ⟨hamount, -⟩ := hstep.unique (h.step t₁)
  cases hamount
  have hle := h.le_bound hstart ha hb ht
  have hmin := (toInt_bounds v).1
  have hsum : (Int32.ofInt (v.toInt + amount.toInt)).toInt = v.toInt + amount.toInt :=
    Int32.toInt_ofInt_of_le (by omega) (by omega)
  rw [h.value (h.holds_body hv hbody), advance?_eq_some_iff.mpr hsum]
  exact Option.some_ne_none _

/-- When the loop runs from `s`, an execution of its body starts in the state, which has a frame for
every function and a value for the variable. -/
structure Starts (m : Machine) (w : Setting) (loop : CountLoop) (s t : State) : Prop where
  startsBody : ∃ j, m.StartsBody loop s j t
  size : w.program.declarations.length < t.env.size
  isSome : (t.env.getLocal? .root loop.var).isSome

/-- What all states have in which the bound has been evaluated after a store to the variable. -/
theorem Starts.of_evaluates {loop : CountLoop} {t t' : State} {e : Expr} {v : Int32}
    {r : Except Fault Int32} {j : Nat} (hs : w.program.declarations.length < t.env.size)
    (h : Evaluates w 0 .root e (t.store .root loop.var v) r t') (hj : m.StartsBody loop s j t') :
    m.Starts w loop s t' := by
  have hg := (State.Grows.store t .root loop.var v).trans h.grows
  have hroot : ScopeId.root.index < t.env.size := Nat.zero_lt_of_lt hs
  refine ⟨⟨j, hj⟩, hg.lt hs, h.grows.isSome _ _ ?_⟩
  rw [State.store, Environment.getLocal?_store_self hroot]
  rfl

/-- A loop of a program whose advances fit can be expanded, as long as its bound does not depend on
its variable. -/
theorem Hosts.unrolls (hm : m.Hosts w) {loop : CountLoop} {c : CountTree} {span : Span}
    (hc : loop.Stands m.module.arena c) (hw : ((c.count span).flat .root).Within w.program.flat)
    (hfit : m.AdvancesFit loop s) (hx : w.program.Ignores c.stop c.var)
    (hstop : Terminates fun fuel => m.evalExpr fuel 0 loop.stop) :
    c.Unrolls w (m.Starts w loop s) := by
  simp only [CountTree.count, Command.flat, within_append] at hw
  obtain ⟨⟨⟨⟨hwi, hwj⟩, hwk⟩, hwb⟩, -⟩ := hw
  have hbody {t t' r} : m.Executed loop.body t r t' ↔ Executes w .root (.command c.body) t r t' :=
    hm.executed_iff hc.body hwb
  have hstep {t t' r} : m.Evaluated loop.step t r t' ↔ Evaluates w 0 .root c.step t r t' :=
    hm.evaluated_iff hc.step hwk
  have hbound {t t' r} : m.Evaluated loop.stop t r t' ↔ Evaluates w 0 .root c.stop t r t' :=
    hm.evaluated_iff hc.stop hwj
  have hvalue (t : State) : loop.value t = t.env.lookup .root c.var := by
    rw [CountLoop.value, hc.scope, hc.var]
  have hset (t : State) (v : Int32) : loop.set t v = c.set t v := by
    rw [CountLoop.set, hc.scope, hc.var, CountTree.set]
  refine ⟨?_, ?_, ?_, hx, ?_, ?_⟩
  · intro t r t' ht h
    exact (h.grows hwb).lt ht.size
  · intro t t₁ t₂ t₃ amount next bound ht h₁ h₂ hsum h₃ hle
    have hs₂ := h₂.grows.lt ((h₁.grows hwb).lt ht.size)
    obtain ⟨j, hj⟩ := ht.startsBody
    have hnext : advance? (loop.value t₁) amount = some next := by
      rw [hvalue]
      exact advance?_eq_some_iff.mpr hsum
    have hturn := Turns.intro (hbody.mpr h₁) (hstep.mpr h₂) hnext (hbound.mpr h₃) hle
    rw [hset] at hturn
    have h₃' : Evaluates w 0 .root c.stop (t₂.store .root loop.var next) (.ok bound)
        (c.set t₃ next) := by
      rw [hc.var]
      exact hx.store_root h₃ hs₂ next
    exact .of_evaluates hs₂ h₃' (.next hj hturn)
  · intro t t₁ t₂ amount ht h₁ h₂
    obtain ⟨j, hj⟩ := ht.startsBody
    have hno := hfit j t t₁ t₂ amount hj (hbody.mpr h₁) (hstep.mpr h₂)
    obtain ⟨next, hnext⟩ := Option.ne_none_iff_exists'.mp hno
    rw [hvalue] at hnext
    exact ⟨next, advance?_eq_some_iff.mp hnext⟩
  · intro t
    obtain ⟨r, t', hr⟩ := hstop.exists_ends t
    exact ⟨r, t', hbound.mp hr⟩
  · intro t r t' r₁ t₁ h h'
    exact (hbound.mpr h).unique (hbound.mpr h')

section
variable {loop : CountLoop} {c : CountTree} {id : CommandId} {span : Span} {r : Except Fault Unit}
  {t' : State}

/-- Where the expansion moved the variable past the bound, the body of the loop was last executed
from a state from which the amount of the move comes. -/
theorem Hosts.exists_last (hm : m.Hosts w) (hc : loop.Stands m.module.arena c)
    (hw : ((c.count span).flat .root).Within w.program.flat)
    (h : c.Overruns w (m.Starts w loop s) s' (.ok ()) t') :
    ∃ j t t₁ t₂ amount, m.StartsBody loop s j t ∧ m.BodyRuns loop s (j + 1) ∧
      m.Executed loop.body t (.ok ()) t₁ ∧ m.Evaluated loop.step t₁ (.ok amount) t₂ ∧
      (loop.value t').toInt = (loop.value s').toInt + amount.toInt := by
  simp only [CountTree.count, Command.flat, within_append] at hw
  obtain ⟨⟨⟨⟨-, hwj⟩, hwk⟩, hwb⟩, -⟩ := hw
  have hvalue (t : State) : loop.value t = t.env.lookup .root c.var := by
    rw [CountLoop.value, hc.scope, hc.var]
  cases h with
  | @past t t₁ t₂ amount next bound ht hbody hstep hsum hstop hle =>
    obtain ⟨⟨j, hj⟩, hsize, hsome⟩ := ht
    have hbody' := (hm.executed_iff hc.body hwb).mpr hbody
    have hstep' := (hm.evaluated_iff hc.step hwk).mpr hstep
    have hstop' := (hm.evaluated_iff hc.stop hwj).mpr hstop
    have hlast : ∀ u, ¬ m.Turns loop t u := by
      rintro _ ⟨hbody₁, hstep₁, hnext₁, hstop₁, hle₁⟩
      obtain ⟨-, rfl⟩ := hbody₁.unique hbody'
      obtain ⟨hamount, rfl⟩ := hstep₁.unique hstep'
      cases hamount
      obtain ⟨hbound, -⟩ := hstop₁.unique hstop'
      cases hbound
      rw [hvalue, advance?_eq_some_iff.mpr hsum] at hnext₁
      cases hnext₁
      exact hle hle₁
    refine ⟨j, t, t₁, t₂, amount, hj, hj.bodyRuns hlast, hbody', hstep', ?_⟩
    -- The step and the bound leave the variable as the body left it.
    have hs₁ := (hbody.grows hwb).lt hsize
    have hs₂ := hstep.grows.lt hs₁
    have hs' := hstop.grows.lt hs₂
    have hsome₁ := (hbody.grows hwb).isSome _ _ hsome
    rw [hc.var] at hsome₁
    obtain ⟨v, hv⟩ := Option.isSome_iff_exists.mp hsome₁
    have hv' : s'.env.getLocal? .root c.var = some v := by
      rw [(hstop.changesOnly hs₂).getLocal?_root, (hstep.changesOnly hs₁).getLocal?_root, hv]
    have hlookup {u : State} (hu : w.program.declarations.length < u.env.size)
        (h : u.env.getLocal? .root c.var = some v) : u.env.lookup .root c.var = v :=
      Environment.lookup_of_getLocal? (Nat.zero_lt_of_lt hu) h
    rw [hvalue, hvalue, CountTree.lookup_set (Nat.zero_lt_of_lt hs'), hsum, hlookup hs₁ hv,
      hlookup hs' hv']

end

/-! ### A loop and its expansion -/

/-- The machine with the expansion of a loop added to its arena. -/
def expanded (m : Machine) (loop : CountLoop) (place : Span) : Machine :=
  m.withArena (loop.expand place m.module.arena).2

/-- The loop is a command of a program that is run from `s`, its bound does not depend on its
variable, and its advances fit. -/
structure Expands (m : Machine) (w : Setting) (loop : CountLoop) (id : CommandId) (s : State)
    (c : CountTree) (span : Span) : Prop where
  serves : m.Serves w
  stands : loop.Stands m.module.arena c
  holds : m.module.arena.HoldsCommand .root (c.count span) id
  within : ((c.count span).flat .root).Within w.program.flat
  ignores : w.program.Ignores c.stop c.var
  size : w.program.declarations.length < s.env.size
  fit : m.AdvancesFit loop s

/-- The counting loops of a program stand in its module. -/
theorem Serves.exists_expands (hm : m.Serves w) {loop : CountLoop} {id : CommandId} {span : Span}
    (hn : m.module.arena.command? id = some ⟨loop.node, span⟩)
    (hx : ¬ m.module.ReadsGlobal (.expr loop.stop) loop.var)
    (hs : w.program.declarations.length < s.env.size) (hfit : m.AdvancesFit loop s) :
    ∃ c, m.Expands w loop id s c span := by
  obtain ⟨command, hholds, hw⟩ := hm.module.exists_rootCommand hn
  obtain ⟨hscope, start, stop, step, body, rfl, hi, hj, hk, hb⟩ := hholds.eq_count hn
  exact ⟨⟨loop.var, start, stop, step, body⟩, hm, ⟨hscope, rfl, hi, hj, hk, hb⟩, hholds, hw,
    hm.module.ignores hj hx, hs, hfit⟩

namespace Expands

variable {loop : CountLoop} {c : CountTree} {id : CommandId} {span : Span}
  {r : Except Fault Unit} {t' : State} (h : m.Expands w loop id s c span) (place : Span)
include h

/-- The machine can run the expansion too. -/
theorem hosts : m.Hosts (w.behind (c.expansion place)) :=
  h.serves.hosts_behind fun _ _ _ _ hcall => h.within (CountTree.mem_of_expansion span hcall)

theorem executed_iff : m.Executed id s r s' ↔
    Executes (w.behind (c.expansion place)) .root (.command (c.count span)) s r s' :=
  (h.hosts place).executed_iff h.holds h.within.behind

theorem executed_expansion_iff :
    (m.expanded loop place).Executed (loop.expand place m.module.arena).1 s r t' ↔
      Executes (w.behind (c.expansion place)) .root (.command (c.expansion place)) s r t' :=
  ((h.hosts place).withArena (loop.extends_expand place _)).executed_iff
    (h.stands.holds_expand place) Setting.within_behind

/-- The first value and the first bound are on the machine what they are by the rules. -/
theorem first_iff {first : Int32} {s₁ t : State} {b : Except Fault Int32} :
    (m.Evaluated loop.start s (.ok first) s₁ ↔
      Evaluates (w.behind (c.expansion place)) 0 .root c.start s (.ok first) s₁) ∧
    (m.Evaluated loop.stop (loop.set s₁ first) b t ↔
      Evaluates (w.behind (c.expansion place)) 0 .root c.stop (c.set s₁ first) b t) := by
  have hw := h.within
  simp only [CountTree.count, Command.flat, within_append] at hw
  obtain ⟨⟨⟨⟨hwi, hwj⟩, -⟩, -⟩, -⟩ := hw
  rw [CountLoop.set, h.stands.scope, h.stands.var]
  exact ⟨(h.hosts place).evaluated_iff h.stands.start hwi.behind,
    (h.hosts place).evaluated_iff h.stands.stop hwj.behind⟩

theorem starts {first bound : Int32} {s₁ t : State}
    (hstart : Evaluates (w.behind (c.expansion place)) 0 .root c.start s (.ok first) s₁)
    (hstop : Evaluates (w.behind (c.expansion place)) 0 .root c.stop (c.set s₁ first) (.ok bound) t)
    (hle : first ≤ bound) : m.Starts (w.behind (c.expansion place)) loop s t := by
  have hs : (w.behind (c.expansion place)).program.declarations.length < s.env.size := by
    rw [Setting.declarations_behind]
    exact h.size
  obtain ⟨hfirst, hbound⟩ := h.first_iff place
  have henters : m.Enters loop s t := ⟨hfirst.mpr hstart, hbound.mpr hstop, hle⟩
  rw [CountTree.set, ← h.stands.var] at hstop
  exact .of_evaluates (hstart.grows.lt hs) hstop (.first henters)

theorem unrolls : c.Unrolls (w.behind (c.expansion place))
    (m.Starts (w.behind (c.expansion place)) loop s) := by
  have hwj : (c.stop.flat .root).Within w.program.flat := by
    have hw := h.within
    simp only [CountTree.count, Command.flat, within_append] at hw
    exact hw.1.1.1.2
  exact (h.hosts place).unrolls h.stands h.within.behind h.fit h.ignores.behind
    (evalExpr_terminates h.serves 0 h.stands.stop hwj)

/-- The expansion ends if the loop does. -/
theorem exists_expanded (hr : m.Executed id s r s') :
    ∃ t', (m.expanded loop place).Executed (loop.expand place m.module.arena).1 s r t' ∧
      c.Follows (w.behind (c.expansion place)) (m.Starts (w.behind (c.expansion place)) loop s)
        s s' r t' := by
  obtain ⟨t', ht, hf⟩ := (h.unrolls place).exists_expanded place (Nat.zero_lt_of_lt h.size)
    (h.starts place) ((h.executed_iff place).mp hr)
  exact ⟨t', (h.executed_expansion_iff place).mpr ht, hf⟩

/-- The loop ends if the expansion does. -/
theorem exists_executed
    (ht : (m.expanded loop place).Executed (loop.expand place m.module.arena).1 s r t') :
    ∃ s', m.Executed id s r s' ∧ c.Follows (w.behind (c.expansion place))
      (m.Starts (w.behind (c.expansion place)) loop s) s s' r t' := by
  obtain ⟨r₁, s', hr⟩ : ∃ r₁ s', Executes (w.behind (c.expansion place)) .root
      (.command (c.count span)) s r₁ s' :=
    (h.unrolls place).exists_count (Nat.zero_lt_of_lt h.size) (h.starts place)
      ((h.executed_expansion_iff place).mp ht)
  have hr' := (h.executed_iff place).mpr hr
  obtain ⟨u, hu, hf⟩ := h.exists_expanded place hr'
  obtain ⟨rfl, rfl⟩ := hu.unique ht
  exact ⟨s', hr', hf⟩

/-- The loop runs for as long as there is fuel if the expansion does. -/
theorem exhausts_iff : (∀ fuel, (m.exec fuel id).Exhausts s) ↔ ∀ fuel,
    ((m.expanded loop place).exec fuel (loop.expand place m.module.arena).1).Exhausts s := by
  have hexpanded := ((h.hosts place).withArena (loop.extends_expand place _)).exhausts_iff
    (s := s) (h.stands.holds_expand place) Setting.within_behind
  refine ((h.hosts place).exhausts_iff h.holds h.within.behind).trans (Iff.trans ?_ hexpanded.symm)
  constructor
  · intro hno r t' ht
    obtain ⟨s', hr, -⟩ := h.exists_executed place ((h.executed_expansion_iff place).mpr ht)
    exact hno r s' ((h.executed_iff place).mp hr)
  · intro hno r s' hr
    obtain ⟨t', ht, -⟩ := h.exists_expanded place ((h.executed_iff place).mpr hr)
    exact hno r t' ((h.executed_expansion_iff place).mp ht)

/-- In the end, the two differ in the variable at most. -/
theorem sameBut (hr : m.Executed id s r s') (hf : c.Follows (w.behind (c.expansion place))
    (m.Starts (w.behind (c.expansion place)) loop s) s s' r t') : s'.SameBut loop.var t' := by
  rw [h.stands.var]
  exact hf.sameBut ((((h.executed_iff place).mp hr).grows h.within.behind).lt
    (Nat.zero_lt_of_lt h.size))

/-- When the body starts at all, the expansion leaves the variable moved once more than the loop
does. -/
theorem exists_last (hf : c.Follows (w.behind (c.expansion place))
      (m.Starts (w.behind (c.expansion place)) loop s) s s' (.ok ()) t')
    {t : State} (ht : m.StartsBody loop s 0 t) :
    ∃ j t t₁ t₂ amount, m.StartsBody loop s j t ∧ m.BodyRuns loop s (j + 1) ∧
      m.Executed loop.body t (.ok ()) t₁ ∧ m.Evaluated loop.step t₁ (.ok amount) t₂ ∧
      (loop.value t').toInt = (loop.value s').toInt + amount.toInt := by
  obtain ⟨⟨first, s₁, bound, hstart, hstop, hle⟩, -⟩ | hf := hf
  · obtain @⟨_, ⟨hstart', hstop', hle'⟩⟩ := ht
    obtain ⟨hfirst, hbound⟩ := h.first_iff place
    obtain ⟨heq, rfl⟩ := (hfirst.mpr hstart).unique hstart'
    cases heq
    obtain ⟨heq, -⟩ := (hbound.mpr hstop).unique hstop'
    cases heq
    exact absurd hle' hle
  · exact (h.hosts place).exists_last h.stands h.within.behind hf

end Expands

end Machine

/-- In a source that is read, let neither the bound `T` of `para i de F ate T passo S faca B` nor a
function that it reaches read the global variable `i`. From a state with a frame for every scope and
from which no advance of `i` overflows, the loop ends as `i := F; enquanto i <= T faca [B; i := i +
S]` with the same parts, wherever its new nodes are placed: with the same result or fault, and in
the same state but for `i`; or both run for as long as there is fuel. If both end without a fault
and the body started at all, the expansion has moved `i` once more, by the value that `S` had after
the last execution of the body. -/
theorem Module.parse_expands (source : String) (names names' : Names) (m : Module)
    (h : Module.parse source names = (.ok m, names')) (maxDepth : Nat) (loop : CountLoop)
    (id : CommandId) (span : Span) (hn : m.arena.command? id = some ⟨loop.node, span⟩)
    (hx : ¬ m.ReadsGlobal (.expr loop.stop) loop.var) (s : State)
    (hs : m.scopes.size ≤ s.env.size)
    (hfit : Machine.AdvancesFit ⟨names', m, maxDepth⟩ loop s) (place : Span) :
    let machine : Machine := ⟨names', m, maxDepth⟩
    let expanded := machine.expanded loop place
    let expansion := (loop.expand place m.arena).1
    (∀ r s', machine.Executed id s r s' →
      ∃ t', expanded.Executed expansion s r t' ∧ s'.SameBut loop.var t') ∧
    (∀ r t', expanded.Executed expansion s r t' →
      ∃ s', machine.Executed id s r s' ∧ s'.SameBut loop.var t') ∧
    ((∀ fuel, (machine.exec fuel id).Exhausts s) ↔
      ∀ fuel, (expanded.exec fuel expansion).Exhausts s) ∧
    ∀ s' t', machine.Executed id s (.ok ()) s' → expanded.Executed expansion s (.ok ()) t' →
      (∃ t, machine.StartsBody loop s 0 t) →
      ∃ j t t₁ t₂ amount, machine.StartsBody loop s j t ∧ machine.BodyRuns loop s (j + 1) ∧
        machine.Executed loop.body t (.ok ()) t₁ ∧
        machine.Evaluated loop.step t₁ (.ok amount) t₂ ∧
        (loop.value t').toInt = (loop.value s').toInt + amount.toInt := by
  obtain ⟨program, -, hserves⟩ := Machine.serves_of_parse h
  have hm := hserves maxDepth
  have hsize : program.declarations.length < s.env.size := by
    rw [hm.module.scopes_size, hm.module.functions_size] at hs
    exact hs
  obtain ⟨c, hc⟩ := hm.exists_expands hn hx hsize hfit
  refine ⟨?_, ?_, hc.exhausts_iff place, ?_⟩
  · intro r s' hr
    obtain ⟨t', ht, hf⟩ := hc.exists_expanded place hr
    exact ⟨t', ht, hc.sameBut place hr hf⟩
  · intro r t' ht
    obtain ⟨s', hr, hf⟩ := hc.exists_executed place ht
    exact ⟨s', hr, hc.sameBut place hr hf⟩
  · rintro s' t' hr ht ⟨t, hstarts⟩
    obtain ⟨u, hu, hf⟩ := hc.exists_expanded place hr
    obtain ⟨-, rfl⟩ := hu.unique ht
    exact hc.exists_last place hf hstarts

/-- A loop over two values, with its step left out. -/
def Module.upToTwo : String := "para i de 1 ate 2 faca escreva i"

/-- The program of `upToTwo`. -/
def Module.upToTwoProgram : Program :=
  [.command (.count ⟨1⟩ (.int 1 ⟨10, 11⟩) (.int 2 ⟨16, 17⟩) (.int 1 ⟨17, 17⟩)
    (.printInt (.var ⟨1⟩ ⟨31, 32⟩) ⟨23, 32⟩) ⟨0, 32⟩)]

/-- The loop and its expansion print the same, and the expansion moves the variable once more. -/
theorem Module.parse_expands_upToTwo : ∃ (m : Module) (names : Names),
    Module.parse upToTwo .initial = (.ok m, names) ∧
    let machine : Machine := ⟨names, m, 10⟩
    let loop : CountLoop := ⟨⟨1⟩, .root, ⟨0⟩, ⟨1⟩, ⟨2⟩, ⟨0⟩⟩
    let s := Machine.start m (.ofString "")
    ∃ s' t', machine.Executed ⟨1⟩ s (.ok ()) s' ∧
      (machine.expanded loop ⟨0, 32⟩).Executed (loop.expand ⟨0, 32⟩ m.arena).1 s (.ok ()) t' ∧
      t'.output = "1\n2\n" ∧ (loop.value s').toInt = 2 ∧ (loop.value t').toInt = 3 := by
  have h : Module.parse upToTwo .initial = (.ok (.ofProgram upToTwoProgram), ⟨#["", "i"]⟩) := by
    decide +kernel
  let m := ofProgram upToTwoProgram
  let machine : Machine := ⟨⟨#["", "i"]⟩, m, 10⟩
  let loop : CountLoop := ⟨⟨1⟩, .root, ⟨0⟩, ⟨1⟩, ⟨2⟩, ⟨0⟩⟩
  let s := Machine.start m (.ofString "")
  have hn : m.arena.command? ⟨1⟩ = some ⟨loop.node, ⟨0, 32⟩⟩ := rfl
  have hreads : ¬ m.ReadsGlobal (.expr loop.stop) loop.var := by
    rintro (⟨id, span, hbelow, hvar⟩ | ⟨g, f, -, -, -, -, hf, -⟩)
    · obtain ⟨⟩ | ⟨hparts, hp, -⟩ := hbelow
      · cases hvar
      · cases hparts
        cases hp
    · cases hf
  have hbody : ¬ m.StoresBelow (.command loop.body) loop.var := by
    rintro ⟨q, ⟨⟩ | ⟨hparts, hp, hq⟩, hx⟩
    · cases hx
    · cases hparts
      cases List.mem_singleton.mp hp
      obtain ⟨⟩ | ⟨hparts, hp, -⟩ := hq
      · cases hx
      · cases hparts
        cases hp
  have hstart : machine.Evaluated ⟨0⟩ s (.ok 1) s :=
    ends_pure.of_succ fun _ => Machine.evalExpr_int rfl
  have hstop : ∀ t, machine.Evaluated ⟨1⟩ t (.ok 2) t := fun t =>
    ends_pure.of_succ fun _ => Machine.evalExpr_int rfl
  have hstep : ∀ t, machine.Evaluated ⟨2⟩ t (.ok 1) t := fun t =>
    ends_pure.of_succ fun _ => Machine.evalExpr_int rfl
  obtain ⟨program, -, hserves⟩ := Machine.serves_of_parse h
  have hs : m.scopes.size ≤ s.env.size := (Environment.fits_ofScopes _).size
  obtain ⟨-, hsteady⟩ := Machine.steady_of_serves (hserves 10) hn rfl hbody
  have hfirst : program.declarations.length < (loop.set s 1).env.size ∧
      (loop.set s 1).env.getLocal? .root loop.var = some 1 := by
    have hsize : program.declarations.length < s.env.size := by
      rw [(hserves 10).module.scopes_size, (hserves 10).module.functions_size] at hs
      exact hs
    exact ⟨by rwa [CountLoop.set, State.store, Environment.size_store],
      Environment.getLocal?_store_self (Nat.zero_lt_of_lt hsize)⟩
  have hfit : machine.AdvancesFit loop s :=
    Machine.advancesFit_of_steady hsteady hstart hfirst hstop (by decide) (by decide)
  obtain ⟨hforth, -, -, hlast⟩ := Module.parse_expands upToTwo .initial _ _ h 10 loop ⟨1⟩ _ hn
    hreads s hs hfit ⟨0, 32⟩
  have hshown : shown (fun _ s' => (s'.output, (loop.value s').toInt)) (machine.exec 10 ⟨1⟩ s) =
      some ("1\n2\n", 2) := by
    decide +kernel
  obtain ⟨_, s', hs', hlook⟩ := exists_of_shown hshown
  have houtput : s'.output = "1\n2\n" := (Prod.ext_iff.mp hlook).1
  have hvalue : (loop.value s').toInt = 2 := (Prod.ext_iff.mp hlook).2
  have hr : machine.Executed ⟨1⟩ s (.ok ()) s' := Machine.executed_of_ended (hserves 10) hn hs'
  obtain ⟨t', ht', hsame⟩ := hforth _ _ hr
  obtain ⟨j, t, t₁, t₂, amount, -, -, -, hamount, hmoved⟩ :=
    hlast s' t' hr ht' ⟨_, .first ⟨hstart, hstop _, by decide⟩⟩
  cases (hamount.unique (hstep t₁)).1
  refine ⟨_, _, h, s', t', hr, ht', hsame.output.trans houtput, hvalue, ?_⟩
  rw [hmoved, hvalue]
  rfl

end Enquanto

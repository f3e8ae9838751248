import Enquanto.Proofs.CallLimit
import Enquanto.Proofs.NodeCalls

/-!
# Functions that call themselves

A body is an expression, and all parts of an expression are evaluated. So a function whose body
calls the function itself never returns, and neither does anything that leads to such a call: it
goes on until the limit of open calls, or another fault, ends it. A function that does not call
itself calls earlier functions only. So without functions that call themselves no more calls are
open at once than there are functions.

* `Evaluates.exists_fault` and `Decides.exists_fault`: what reaches a function that calls itself has
  no value;
* `Module.parse_recursion_faults`: so the nodes of a source that reach one end with a fault;
* `Evaluates.not_isOverflow`: the number of open calls and the number of the function that is called
  next stay below the limit together;
* `Module.parse_never_overflows`: so a source without recursion never overflows.
-/

namespace Enquanto

open Run

variable {w : Setting} {g : FunctionId}

/-! ## Recursion has no value -/

/-- A function that leads to one that calls itself leads there through its body. -/
theorem Program.Reaches.body {program : Program} {f : FunctionId} {d : Declaration}
    (h : program.Reaches f g) (hg : program.Calls g g)
    (hd : program.declarations[f.index]? = some d) : d.body.Reaches program g := by
  rcases h.cases_head with rfl | ⟨f', ⟨d', hd', hf'⟩, hr⟩
  · obtain ⟨d', hd', hf⟩ := hg
    cases hd.symm.trans hd'
    exact ⟨f, hf, .refl⟩
  · cases hd.symm.trans hd'
    exact ⟨f', hf', hr⟩

theorem exists_mem_zip_of_mem {params : List Name} {args : List Expr} {arg : Expr}
    (hn : args.length = params.length) (harg : arg ∈ args) : ∃ q ∈ params.zip args, q.2 = arg := by
  have hsnd : (params.zip args).map Prod.snd = args := List.map_snd_zip (Nat.le_of_eq hn)
  rw [← hsnd] at harg
  exact List.mem_map.mp harg

mutual

/-- An expression that reaches a function that calls itself has no value. -/
theorem Evaluates.exists_fault (hg : w.program.Calls g g) : ∀ {depth : Nat} {scope : ScopeId}
    {e : Expr} {s s' : State} {result : Except Fault Int32},
    Evaluates w depth scope e s result s' → e.Reaches w.program g → ∃ f, result = .error f
  | _, _, _, _, _, _, .int, ⟨_, hf, _⟩ | _, _, _, _, _, _, .var, ⟨_, hf, _⟩
  | _, _, _, _, _, _, .read _, ⟨_, hf, _⟩ => nomatch hf
  | _, _, _, _, _, _, .read_fault _, _ | _, _, _, _, _, _, .neg_fault _, _
  | _, _, _, _, _, _, .arith_undefined _ _ _, _ | _, _, _, _, _, _, .arith_left _, _
  | _, _, _, _, _, _, .arith_right _ _, _ | _, _, _, _, _, _, .call_limit _ _ _ _, _
  | _, _, _, _, _, _, .call_args _ _ _, _ => ⟨_, rfl⟩
  | _, _, _, _, _, _, .neg h, hr => by
    obtain ⟨_, ⟨⟩⟩ := h.exists_fault hg hr
  | _, _, _, _, _, _, .arith hl hr _, h => by
    rcases Expr.reaches_arith.mp h with h | h
    · obtain ⟨_, ⟨⟩⟩ := hl.exists_fault hg h
    · obtain ⟨_, ⟨⟩⟩ := hr.exists_fault hg h
  | _, _, _, _, _, _, .call hd hn hargs _ hbody, h => by
    rcases Expr.reaches_call.mp h with h | ⟨arg, harg, h⟩
    -- The callee may be the function that calls itself; then its body reaches it again.
    · exact hbody.exists_fault hg (h.body hg hd)
    · obtain ⟨q, hq, rfl⟩ := exists_mem_zip_of_mem hn harg
      obtain ⟨_, ⟨⟩⟩ := hargs.exists_fault hg q hq h

theorem Binds.exists_fault (hg : w.program.Calls g g) : ∀ {depth : Nat} {scope callee : ScopeId}
    {args : List (Name × Expr)} {s s' : State} {result : Except Fault Unit},
    Binds w depth scope callee args s result s' →
    ∀ q ∈ args, q.2.Reaches w.program g → ∃ f, result = .error f
  | _, _, _, _, _, _, _, .nil, _, hq, _ => nomatch hq
  | _, _, _, _, _, _, _, .cons h hrest, q, hq, hr => by
    rcases List.mem_cons.mp hq with rfl | hq
    · obtain ⟨_, ⟨⟩⟩ := h.exists_fault hg hr
    · exact hrest.exists_fault hg q hq hr
  | _, _, _, _, _, _, _, .fault _, _, _, _ => ⟨_, rfl⟩

end

/-- A predicate that reaches a function that calls itself has no truth value. -/
theorem Decides.exists_fault (hg : w.program.Calls g g) {scope : ScopeId} {p : Pred} {s s' : State}
    {result : Except Fault Bool} (h : Decides w scope p s result s')
    (hr : p.Reaches w.program g) : ∃ f, result = .error f := by
  induction h with
  | lit => exact absurd hr Pred.not_reaches_lit
  | not _ ih =>
    obtain ⟨_, ⟨⟩⟩ := ih hr
  | logic _ _ ihl ihr =>
    rcases Pred.reaches_logic.mp hr with hr | hr
    · obtain ⟨_, ⟨⟩⟩ := ihl hr
    · obtain ⟨_, ⟨⟩⟩ := ihr hr
  | rel hl hr' =>
    rcases Pred.reaches_rel.mp hr with hr | hr
    · obtain ⟨_, ⟨⟩⟩ := hl.exists_fault hg hr
    · obtain ⟨_, ⟨⟩⟩ := hr'.exists_fault hg hr
  | not_fault _ _ | logic_left _ _ | logic_right _ _ _ _ | rel_left _ | rel_right _ _ =>
    exact ⟨_, rfl⟩

/-- With enough fuel, the run ends with a fault, and with less it gives no other answer. -/
def Run.AlwaysFaults {α : Type} (run : Nat → Run α) (s : State) : Prop :=
  ∃ f s', Ends run s (.error f) s' ∧
    ∀ fuel, (run fuel).Exhausts s ∨ run fuel s = ended (.error f) s'

namespace Machine.Serves

variable {m : Machine} {scope : ScopeId}

theorem evalExpr_alwaysFaults (hm : m.Serves w) (hg : w.program.Calls g g) {e : Expr} {id : ExprId}
    (hid : m.module.arena.HoldsExpr scope e id) (hw : (e.flat scope).Within w.program.flat)
    (hr : e.Reaches w.program g) (depth : Nat) (s : State) :
    AlwaysFaults (fun fuel => m.evalExpr fuel depth id) s := by
  obtain ⟨r, s', h⟩ := exists_evaluates hm.resolved depth hw s
  obtain ⟨f, rfl⟩ := h.exists_fault hg hr
  exact ⟨f, s', evalExpr_ends hm h id hid hw, fun fuel => evalExpr_exhausts_or hm fuel h hid hw⟩

theorem evalPred_alwaysFaults (hm : m.Serves w) (hg : w.program.Calls g g) {p : Pred} {id : PredId}
    (hid : m.module.arena.HoldsPred scope p id) (hw : (p.flat scope).Within w.program.flat)
    (hr : p.Reaches w.program g) (s : State) :
    AlwaysFaults (fun fuel => m.evalPred fuel id) s := by
  obtain ⟨r, s', h⟩ := exists_decides hm.resolved p hw s
  obtain ⟨f, rfl⟩ := h.exists_fault hg hr
  exact ⟨f, s', evalPred_ends hm h hid hw, fun fuel => evalPred_exhausts_or hm fuel h hid hw⟩

end Machine.Serves

/-- In a source that was read, what reaches a function that calls itself has no value: whatever the
state and the limit of open calls, it ends with a fault. -/
theorem Module.parse_recursion_faults (source : String) (names names' : Names) (m : Module)
    (h : Module.parse source names = (.ok m, names')) (g : FunctionId) (hg : m.Calls g g)
    (maxDepth : Nat) (s : State) :
    let machine : Machine := ⟨names', m, maxDepth⟩
    (∀ (id : ExprId) (depth : Nat), id.index < m.arena.exprs.size → m.ReachesBelow (.expr id) g →
      AlwaysFaults (fun fuel => machine.evalExpr fuel depth id) s) ∧
    ∀ id : PredId, id.index < m.arena.preds.size → m.ReachesBelow (.pred id) g →
      AlwaysFaults (fun fuel => machine.evalPred fuel id) s := by
  obtain ⟨program, -, hserves⟩ := Machine.serves_of_parse h
  have hm := hserves maxDepth
  have hg' := hm.module.calls_iff.mp hg
  refine ⟨fun id depth hid hr => ?_, fun id hid hr => ?_⟩
  · obtain ⟨scope, e, hholds, hw⟩ := hm.module.exists_expr hid
    have hr := (hm.module.reachesBelow_expr hholds).mp hr
    exact hm.evalExpr_alwaysFaults hg' hholds hw hr depth s
  · obtain ⟨scope, p, hholds, hw⟩ := hm.module.exists_pred hid
    have hr := (hm.module.reachesBelow_pred hholds).mp hr
    exact hm.evalPred_alwaysFaults hg' hholds hw hr s

/-- A function that calls itself, and a test that leads to it through another function. -/
def Module.indirect : String :=
  "def f(x) = f(x - 1); def g(y) = 1 + f(y); se g(3) > 0 entao skip"

/-- The program of `indirect`. -/
def Module.indirectProgram : Program :=
  [.declare ⟨⟨1⟩, [⟨2⟩], .call ⟨0⟩ [.arith .sub (.var ⟨2⟩ ⟨13, 14⟩) (.int 1 ⟨17, 18⟩) ⟨13, 18⟩]
      ⟨11, 19⟩, ⟨0, 10⟩⟩,
    .declare ⟨⟨3⟩, [⟨4⟩], .arith .add (.int 1 ⟨32, 33⟩) (.call ⟨0⟩ [.var ⟨4⟩ ⟨38, 39⟩] ⟨36, 40⟩)
      ⟨32, 40⟩, ⟨21, 31⟩⟩,
    .command (.cond (.rel .gt (.call ⟨1⟩ [.int 3 ⟨47, 48⟩] ⟨45, 49⟩) (.int 0 ⟨52, 53⟩) ⟨45, 53⟩)
      (.skip ⟨60, 64⟩) [] (.skip ⟨64, 64⟩) ⟨42, 64⟩)]

/-- Whatever the limit, the test neither holds nor fails to hold. -/
theorem Module.parse_recursion_faults_indirect : ∃ (m : Module) (names : Names),
    Module.parse indirect .initial = (.ok m, names) ∧ m.Calls ⟨0⟩ ⟨0⟩ ∧
    m.ReachesBelow (.pred ⟨0⟩) ⟨0⟩ ∧ ∀ (maxDepth : Nat) (s : State),
      AlwaysFaults (fun fuel => Machine.evalPred ⟨names, m, maxDepth⟩ fuel ⟨0⟩) s := by
  have h : Module.parse indirect .initial =
      (.ok (.ofProgram indirectProgram), ⟨#["", "f", "x", "g", "y"]⟩) := by
    decide +kernel
  have hm := Module.ofProgram_represents indirectProgram
  have hself : (ofProgram indirectProgram).Calls ⟨0⟩ ⟨0⟩ := hm.calls_iff.mpr ⟨_, rfl, by decide⟩
  have hcalls : (ofProgram indirectProgram).Calls ⟨1⟩ ⟨0⟩ := hm.calls_iff.mpr ⟨_, rfl, by decide⟩
  have hreaches : (ofProgram indirectProgram).ReachesBelow (.pred ⟨0⟩) ⟨0⟩ :=
    ⟨⟨1⟩, ⟨⟨9⟩, ⟨2, 1⟩, ⟨45, 49⟩, .part rfl List.mem_cons_self .refl, rfl⟩, .single hcalls⟩
  exact ⟨_, _, h, hself, hreaches, fun maxDepth s =>
    (Module.parse_recursion_faults _ _ _ _ h ⟨0⟩ hself maxDepth s).2 ⟨0⟩ (by decide) hreaches⟩

/-! ## Without recursion -/

/-- The body of a function calls earlier functions only. -/
def Program.Falls (program : Program) : Prop :=
  ∀ (i : Nat) (d : Declaration), program.declarations[i]? = some d →
    ∀ f ∈ d.body.callees, f.index < i

theorem Program.Descends.falls {program : Program} (h : program.Descends)
    (hself : ∀ f, ¬ program.Calls f f) : program.Falls := by
  intro i d hd f hf
  have hne : f.index ≠ i := by
    rintro rfl
    exact hself f ⟨d, hd, hf⟩
  exact Nat.lt_of_le_of_ne (h i d hd f hf) hne

mutual

/-- An expression does not overflow if the number of open calls leaves room for each function that
it calls and for all that were declared before it. -/
theorem Evaluates.not_isOverflow (hp : w.program.Falls) : ∀ {depth : Nat} {scope : ScopeId}
    {e : Expr} {s s' : State} {result : Except Fault Int32},
    Evaluates w depth scope e s result s' →
    (∀ f ∈ e.callees, depth + f.index < w.maxDepth) → FaultsOnly (¬ ·.IsOverflow) result
  | _, _, _, _, _, _, .int, _ | _, _, _, _, _, _, .var, _ | _, _, _, _, _, _, .read _, _
  | _, _, _, _, _, _, .neg _, _ | _, _, _, _, _, _, .arith _ _ _, _ => trivial
  | _, _, _, _, _, _, .neg_fault h, hb => h.not_isOverflow hp hb
  | _, _, _, _, _, _, .arith_undefined _ _ _, _ | _, _, _, _, _, _, .read_fault _, _ => by
    rintro ⟨limit, hl⟩
    cases hl
  | _, _, _, _, _, _, .arith_left hl, hb => hl.not_isOverflow hp (List.forall_mem_append.mp hb).1
  | _, _, _, _, _, _, .arith_right _ hr, hb =>
    hr.not_isOverflow hp (List.forall_mem_append.mp hb).2
  | _, _, _, _, _, _, .call hd _ _ _ hbody, hb => by
    -- One call more is open, and the body calls functions with smaller numbers.
    refine hbody.not_isOverflow hp fun f hf => ?_
    have hlt := hp _ _ hd f hf
    have hroom := hb _ List.mem_cons_self
    omega
  | _, _, _, _, _, _, .call_limit _ _ _ hlimit, hb => by
    have hroom := hb _ List.mem_cons_self
    omega
  | _, _, _, _, _, _, .call_args _ _ hargs, hb => by
    refine hargs.not_isOverflow hp fun q hq f hf => ?_
    exact hb f (List.mem_cons_of_mem _ (Expr.mem_calleesAll.mpr ⟨q.2, (List.of_mem_zip hq).2, hf⟩))

theorem Binds.not_isOverflow (hp : w.program.Falls) : ∀ {depth : Nat} {scope callee : ScopeId}
    {args : List (Name × Expr)} {s s' : State} {result : Except Fault Unit},
    Binds w depth scope callee args s result s' →
    (∀ q ∈ args, ∀ f ∈ q.2.callees, depth + f.index < w.maxDepth) →
    FaultsOnly (¬ ·.IsOverflow) result
  | _, _, _, _, _, _, _, .nil, _ => trivial
  | _, _, _, _, _, _, _, .cons _ hrest, hb =>
    hrest.not_isOverflow hp (List.forall_mem_cons.mp hb).2
  | _, _, _, _, _, _, _, .fault h, hb => h.not_isOverflow hp (List.forall_mem_cons.mp hb).1

end

/-- Outside all calls there is room for all functions. -/
theorem Setting.keepsIn_not_isOverflow (hp : w.program.Falls)
    (hr : w.program.flat.Resolved w.program.headers)
    (hsize : w.program.declarations.length ≤ w.maxDepth) (scope : ScopeId) :
    w.KeepsIn scope (fun _ => True) (fun _ => True) (¬ ·.IsOverflow) where
  evaluates := by
    intro e s s' result h hw _
    refine ⟨trivial, h.not_isOverflow hp fun f hf => ?_⟩
    obtain ⟨args, span, hm⟩ := Expr.exists_call_of_mem_callees scope hf
    obtain ⟨d, hd, -⟩ := Program.resolves_headers_iff.mp (hr _ _ _ _ (hw hm))
    have hlt := (List.getElem?_eq_some_iff.mp hd).1
    omega
  store := fun _ _ _ => trivial
  print := fun _ _ => trivial

/-- What the machine does for work among the subtrees of the program does not overflow. -/
theorem Machine.Implements.not_overflows {m : Machine} {scope : ScopeId} (hm : m.Serves w)
    (hp : w.program.Falls) (hsize : w.program.declarations.length ≤ w.maxDepth) {work : Work}
    {run : Nat → Run Unit} (hi : m.Implements scope work run)
    (hw : (work.flat scope).Within w.program.flat) (fuel : Nat) (s : State) :
    ¬ Overflows (run fuel s) := by
  rintro ⟨f, s', he, hover⟩
  have hexec := (hi.yields hm hw fuel s).of_ended (r := .error f) he
  have hk := Setting.keepsIn_not_isOverflow hp hm.resolved hsize scope
  exact (hexec.keepsIn hk hw (fun _ _ => trivial) trivial).2 hover

/-- A source in which no function calls itself never overflows, if the limit allows as many open
calls as there are functions. -/
theorem Module.parse_never_overflows (source : String) (names names' : Names) (m : Module)
    (h : Module.parse source names = (.ok m, names')) (hself : ∀ f, ¬ m.Calls f f)
    (maxDepth : Nat) (hsize : m.functions.size ≤ maxDepth) (fuel : Nat) (s : State) :
    let machine : Machine := ⟨names', m, maxDepth⟩
    ¬ Overflows (machine.run fuel s) ∧
      ∀ id : CommandId, id.index < m.arena.commands.size →
        ¬ Overflows (machine.exec fuel id s) := by
  obtain ⟨program, rfl, hp⟩ := exists_program_of_parse h
  have hm : Machine.Serves ⟨names', .ofProgram program, maxDepth⟩ ⟨names', program, maxDepth⟩ :=
    Machine.serves_ofProgram hp maxDepth
  simp only [hm.module.calls_iff] at hself
  have hfalls := (Program.parse_descends hp).falls hself
  rw [hm.module.functions_size] at hsize
  refine ⟨?_, fun id hid => ?_⟩
  · exact hm.implements_run.not_overflows hm hfalls hsize program.commands_within fuel s
  · obtain ⟨scope, c, hholds, hw⟩ := hm.module.exists_command hid
    exact (Machine.Implements.command hholds).not_overflows hm hfalls hsize hw fuel s

/-- Calls in arguments and calls in bodies, inside each other. -/
def Module.nested : String := "def f(x) = x + 1; def g(x) = f(f(x)); escreva g(f(g(2)))"

/-- The program of `nested`. -/
def Module.nestedProgram : Program :=
  [.declare ⟨⟨1⟩, [⟨2⟩], .arith .add (.var ⟨2⟩ ⟨11, 12⟩) (.int 1 ⟨15, 16⟩) ⟨11, 16⟩, ⟨0, 10⟩⟩,
    .declare ⟨⟨3⟩, [⟨2⟩], .call ⟨0⟩ [.call ⟨0⟩ [.var ⟨2⟩ ⟨33, 34⟩] ⟨31, 35⟩] ⟨29, 36⟩, ⟨18, 28⟩⟩,
    .command (.printInt (.call ⟨1⟩ [.call ⟨0⟩ [.call ⟨1⟩ [.int 2 ⟨52, 53⟩] ⟨50, 54⟩] ⟨48, 55⟩]
      ⟨46, 56⟩) ⟨38, 56⟩)]

/-- Two open calls are enough for it. -/
theorem Module.parse_never_overflows_nested : ∃ (m : Module) (names : Names),
    Module.parse nested .initial = (.ok m, names) ∧ (∀ f, ¬ m.Calls f f) ∧ m.functions.size = 2 ∧
    ∀ (fuel : Nat) (s : State), ¬ Overflows (Machine.run ⟨names, m, 2⟩ fuel s) := by
  have h : Module.parse nested .initial =
      (.ok (.ofProgram nestedProgram), ⟨#["", "f", "x", "g"]⟩) := by
    decide +kernel
  have hself : ∀ f, ¬ (ofProgram nestedProgram).Calls f f := by
    intro f hf
    obtain ⟨d, hd, hd'⟩ := (Module.ofProgram_represents nestedProgram).calls_iff.mp hf
    match f, hd with
    | ⟨0⟩, hd =>
      cases hd
      cases hd'
    | ⟨1⟩, hd =>
      cases hd
      simp [Expr.callees, Expr.calleesAll] at hd'
  refine ⟨_, _, h, hself, rfl, fun fuel s => ?_⟩
  exact (Module.parse_never_overflows _ _ _ _ h hself 2 (Nat.le_refl 2) fuel s).1

end Enquanto

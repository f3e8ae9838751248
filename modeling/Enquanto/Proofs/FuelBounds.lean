import Enquanto.Proofs.Adequacy
import Enquanto.Proofs.NodeCalls

/-!
# How much fuel evaluation takes

Evaluation ends after a number of levels that the code alone fixes: the state, the values and the
input have no part in it. A call adds one to the number of open calls, which is bounded, and all
else descends in the tree that stands at a node. A command ends in the same way if no loop stands
below it.

* `Run.Settles`: from every state, a run ends with so much fuel;
* `Machine.exists_evalExpr_settles` and `Machine.exists_evalPred_settles`: evaluation ends, by the
  number of calls that may still be opened and then by the tree;
* `Machine.exists_exec_settles`: so does a command without loops;
* `Module.parse_terminates`: the same of the nodes of a source.
-/

namespace Enquanto

open Run Flattening

/-! ## Runs with enough fuel -/

namespace Run

variable {α β : Type} {n : Nat}

/-- From every state, the run ends with `n` levels of fuel, and with more in the same way. -/
def Settles (run : Nat → Run α) (n : Nat) : Prop :=
  ∀ s, ∃ r s', ∀ fuel, n ≤ fuel → run fuel s = ended r s'

/-- Some amount of fuel is enough from every state. -/
def Terminates (run : Nat → Run α) : Prop := ∃ n, Settles run n

section
variable {run : Nat → Run α} {next : Nat → α → Run β}

theorem Settles.mono (h : Settles run n) {k : Nat} (hk : n ≤ k) : Settles run k := by
  intro s
  obtain ⟨r, s', h⟩ := h s
  exact ⟨r, s', fun fuel hfuel => h fuel (hk.trans hfuel)⟩

/-- With enough fuel the run ends, in one way. -/
theorem Terminates.exists_ends (h : Terminates run) (s : State) : ∃ r s', Ends run s r s' := by
  obtain ⟨n, h⟩ := h
  obtain ⟨r, s', h⟩ := h s
  exact ⟨r, s', Filter.eventually_atTop.mpr ⟨n, h⟩⟩

theorem settles_of_ended {step : Run α} (h : ∀ s, ∃ r s', step s = ended r s') (n : Nat) :
    Settles (fun _ => step) n := by
  intro s
  obtain ⟨r, s', h⟩ := h s
  exact ⟨r, s', fun _ _ => h⟩

theorem settles_pure {a : α} : Settles (fun _ => pure a) n :=
  settles_of_ended (fun s => ⟨.ok a, s, rfl⟩) n

theorem settles_fault {cause : Fault.Cause} {span : Option Span} :
    Settles (fun _ => (fault cause span : Run α)) n :=
  settles_of_ended (fun s => ⟨.error ⟨cause, span⟩, s, rfl⟩) n

theorem settles_lookup {scope : ScopeId} {name : Name} : Settles (fun _ => lookup scope name) n :=
  settles_of_ended (fun s => ⟨.ok (s.env.lookup scope name), s, rfl⟩) n

theorem settles_store {scope : ScopeId} {name : Name} {value : Int32} :
    Settles (fun _ => store scope name value) n :=
  settles_of_ended (fun s => ⟨.ok (), s.store scope name value, rfl⟩) n

theorem settles_printLine {line : String} : Settles (fun _ => printLine line) n :=
  settles_of_ended (fun s => ⟨.ok (), s.print line, rfl⟩) n

theorem settles_readInt {span : Span} : Settles (fun _ => readInt span) n := by
  refine settles_of_ended (fun s => ?_) n
  rcases hread : s.input.readInt with ⟨error | value, input⟩
  · exact ⟨_, _, readInt_of_error hread⟩
  · exact ⟨_, _, readInt_of_ok hread⟩

/-- A chain ends when its links do. The second link may not need more fuel for one value than for
another. -/
theorem Settles.bind (h : Settles run n) (hn : ∀ a, Settles (fun fuel => next fuel a) n) :
    Settles (fun fuel => run fuel >>= next fuel) n := by
  intro s
  obtain ⟨r, s₁, hrun⟩ := h s
  cases r with
  | error f => exact ⟨.error f, s₁, fun fuel hfuel => bind_of_error (hrun fuel hfuel)⟩
  | ok a =>
    obtain ⟨r, s', hnext⟩ := hn a s₁
    exact ⟨r, s', fun fuel hfuel => (bind_of_ok (hrun fuel hfuel)).trans (hnext fuel hfuel)⟩

theorem Settles.orSpan (h : Settles run n) (span : Span) :
    Settles (fun fuel => orSpan span (run fuel)) n := by
  intro s
  obtain ⟨r, s', h⟩ := h s
  cases r with
  | ok a => exact ⟨.ok a, s', fun fuel hfuel => orSpan_of_ok (h fuel hfuel)⟩
  | error f => exact ⟨.error (f.orSpan span), s', fun fuel hfuel => orSpan_of_fault (h fuel hfuel)⟩

/-- A run that takes one level of fuel for what another does needs one level more. -/
theorem Settles.of_succ {run' : Nat → Run α} (h : Settles run' n)
    (hs : ∀ fuel, run (fuel + 1) = run' fuel) : Settles run (n + 1) := by
  intro s
  obtain ⟨r, s', h⟩ := h s
  refine ⟨r, s', fun fuel hfuel => ?_⟩
  obtain ⟨fuel, rfl⟩ := Nat.exists_eq_add_of_le' (Nat.one_le_of_lt hfuel)
  rw [hs, h fuel (Nat.le_of_succ_le_succ hfuel)]

/-- A test ends if both of its sides do. -/
theorem settles_ite {p : Prop} [Decidable p] {run' : Nat → Run α} (h : p → Settles run n)
    (h' : ¬ p → Settles run' n) : Settles (fun fuel => if p then run fuel else run' fuel) n := by
  by_cases hp : p
  · simpa [hp] using h hp
  · simpa [hp] using h' hp

end

end Run

namespace Machine

variable {m : Machine} {w : Setting} {scope : ScopeId}

/-! ## Evaluation -/

section
variable {depth : Nat}

/-- Inside one call more, the body of every function ends. -/
def BodiesTerminate (m : Machine) (w : Setting) (depth : Nat) : Prop :=
  depth < m.maxDepth → ∀ (f : FunctionId) (d : Declaration) (body : ExprId),
    w.program.declarations[f.index]? = some d → m.module.arena.HoldsExpr f.scope d.body body →
    Terminates fun fuel => m.evalExpr fuel (depth + 1) body

theorem bindArgs_nil {fuel : Nat} : m.bindArgs (fuel + 1) depth scope [] = pure () := by
  rw [bindArgs]

mutual

/-- Expressions end inside `depth` open calls if bodies end inside one call more. -/
theorem evalExpr_terminates_of_bodies (hm : m.Serves w) (hbody : m.BodiesTerminate w depth) :
    ∀ (e : Expr) (id : ExprId), m.module.arena.HoldsExpr scope e id →
      (e.flat scope).Within w.program.flat → Terminates fun fuel => m.evalExpr fuel depth id
  | .int value _, _, hid, _ =>
    ⟨1, (settles_pure (n := 0)).of_succ fun _ => evalExpr_int hid⟩
  | .var name _, _, hid, _ =>
    ⟨1, (settles_lookup (n := 0)).of_succ fun _ => evalExpr_var hid⟩
  | .read _, _, hid, _ => ⟨1, (settles_readInt (n := 0)).of_succ fun _ => evalExpr_read hid⟩
  | .neg e _, _, ⟨i, hn, _, hi⟩, hw => by
    obtain ⟨n, h⟩ := evalExpr_terminates_of_bodies hm hbody e i hi (within_append.mp hw).1
    exact ⟨n + 1, (h.bind fun x => settles_pure).of_succ fun _ => evalExpr_neg hn⟩
  | .arith op l r span, _, ⟨i, j, hn, _, _, hi, hj⟩, hw => by
    obtain ⟨hwl, hwr, -⟩ := within_arith hw
    obtain ⟨n, hl⟩ := evalExpr_terminates_of_bodies hm hbody l i hi hwl
    obtain ⟨k, hr⟩ := evalExpr_terminates_of_bodies hm hbody r j hj hwr
    refine ⟨max n k + 1, Settles.of_succ ?_ fun _ => evalExpr_arith hn⟩
    refine (hl.mono (le_max_left n k)).bind fun x => (hr.mono (le_max_right n k)).bind fun y => ?_
    cases op.apply x y with
    | some value => exact settles_pure
    | none => exact settles_fault
  | .call function args span, id, ⟨slice, ids, hnode, hs, _, hids⟩, hw => by
    obtain ⟨hwargs, hcall⟩ := within_call hw
    obtain ⟨d, body, hd, hn, hf, hbodyId, -⟩ := hm.callee hcall
    obtain ⟨n, hargs⟩ :=
      bindArgs_terminates_of_bodies hm hbody function.scope args ids d.params hids hwargs
    obtain ⟨k, hk⟩ : ∃ k, depth < m.maxDepth →
        Settles (fun fuel => m.evalExpr fuel (depth + 1) body) k := by
      by_cases hdepth : depth < m.maxDepth
      · obtain ⟨k, hk⟩ := hbody hdepth function d body hd hbodyId
        exact ⟨k, fun _ => hk⟩
      · exact ⟨0, fun h => absurd h hdepth⟩
    have hcalled : Settles (fun fuel => m.call fuel depth function slice) (max n k + 1) := by
      refine Settles.of_succ ?_ fun _ => call_of_arity hf rfl hs (hids.length_eq.trans hn)
      refine (hargs.mono (le_max_left n k)).bind fun _ => settles_ite (fun hdepth => ?_) fun _ => ?_
      · exact (hk hdepth).mono (le_max_right n k)
      · exact settles_fault
    exact ⟨_, (hcalled.orSpan span).of_succ fun _ => evalExpr_call hnode⟩

theorem bindArgs_terminates_of_bodies (hm : m.Serves w) (hbody : m.BodiesTerminate w depth)
    (callee : ScopeId) : ∀ (args : List Expr) (ids : List ExprId) (params : List Name),
      m.module.arena.HoldsExprs scope args ids →
      (Expr.flatAll scope args).Within w.program.flat →
      Terminates fun fuel => m.bindArgs fuel depth callee (params.zip ids)
  | [], [], params, _, _ => by
    rw [List.zip_nil_right]
    exact ⟨1, (settles_pure (n := 0)).of_succ fun _ => bindArgs_nil⟩
  | _ :: _, _ :: _, [], _, _ => by
    rw [List.zip_nil_left]
    exact ⟨1, (settles_pure (n := 0)).of_succ fun _ => bindArgs_nil⟩
  | e :: es, id :: ids, param :: params, ⟨hid, hids⟩, hw => by
    obtain ⟨hwe, hwes⟩ := within_append.mp hw
    obtain ⟨n, h⟩ := evalExpr_terminates_of_bodies hm hbody e id hid hwe
    obtain ⟨k, hs⟩ := bindArgs_terminates_of_bodies hm hbody callee es ids params hids hwes
    refine ⟨max n k + 1, Settles.of_succ ?_ fun _ => by rw [List.zip_cons_cons, bindArgs]⟩
    exact (h.mono (le_max_left n k)).bind fun _ =>
      settles_store.bind fun _ => hs.mono (le_max_right n k)

end

end

/-- Every expression of a program ends inside any number of open calls: the calls that may still be
opened go down with every call, and the tree with all else. -/
theorem evalExpr_terminates (hm : m.Serves w) (depth : Nat) {e : Expr} {id : ExprId}
    (hid : m.module.arena.HoldsExpr scope e id) (hw : (e.flat scope).Within w.program.flat) :
    Terminates fun fuel => m.evalExpr fuel depth id := by
  induction hroom : m.maxDepth - depth generalizing depth scope e id with
  | zero =>
    refine evalExpr_terminates_of_bodies hm (fun hdepth => ?_) e id hid hw
    omega
  | succ room ih =>
    refine evalExpr_terminates_of_bodies hm (fun hdepth f d body hd hbody => ?_) e id hid hw
    exact ih (depth + 1) hbody (Program.body_within hd) (by omega)

/-- Every predicate of a program ends. -/
theorem evalPred_terminates (hm : m.Serves w) (p : Pred) {id : PredId}
    (hid : m.module.arena.HoldsPred scope p id) (hw : (p.flat scope).Within w.program.flat) :
    Terminates fun fuel => m.evalPred fuel id := by
  induction p generalizing id with
  | lit value span => exact ⟨1, (settles_pure (n := 0)).of_succ fun _ => evalPred_lit hid⟩
  | not p span ih =>
    obtain ⟨i, hn, -, hi⟩ := hid
    obtain ⟨n, h⟩ := ih hi (within_append.mp hw).1
    exact ⟨n + 1, (h.bind fun x => settles_pure).of_succ fun _ => evalPred_not hn⟩
  | logic op l r span ihl ihr =>
    obtain ⟨i, j, hn, -, -, hi, hj⟩ := hid
    obtain ⟨hwl, hwr⟩ := within_append.mp (within_append.mp hw).1
    obtain ⟨n, hl⟩ := ihl hi hwl
    obtain ⟨k, hr⟩ := ihr hj hwr
    refine ⟨max n k + 1, Settles.of_succ ?_ fun _ => evalPred_logic hn⟩
    exact (hl.mono (le_max_left n k)).bind fun x => (hr.mono (le_max_right n k)).bind fun y =>
      settles_pure
  | rel op l r span =>
    obtain ⟨i, j, hn, hi, hj⟩ := hid
    obtain ⟨hwl, hwr⟩ := within_append.mp (within_append.mp hw).1
    obtain ⟨n, hl⟩ := evalExpr_terminates hm 0 hi hwl
    obtain ⟨k, hr⟩ := evalExpr_terminates hm 0 hj hwr
    refine ⟨max n k + 1, Settles.of_succ ?_ fun _ => evalPred_rel hn⟩
    exact (hl.mono (le_max_left n k)).bind fun x => (hr.mono (le_max_right n k)).bind fun y =>
      settles_pure

end Machine

/-! ## Commands without loops -/

/-- Whether a command is a loop, of either kind. -/
def CommandNode.isLoop : CommandNode → Bool
  | .loop _ _ | .count _ _ _ _ _ _ => true
  | _ => false

/-- A loop stands below the node, or at it. -/
def Module.LoopsBelow (m : Module) (n : Node) : Prop :=
  ∃ id node, m.arena.Below n (.command id) ∧ m.arena.command? id = some node ∧
    node.shape.isLoop = true

theorem Module.LoopsBelow.of_part {m : Module} {n p : Node} {parts : List Node}
    (hparts : m.arena.parts? n = some parts) (hp : p ∈ parts) (h : m.LoopsBelow p) :
    m.LoopsBelow n := by
  obtain ⟨id, node, hbelow, hnode⟩ := h
  exact ⟨id, node, .part hparts hp hbelow, hnode⟩

namespace Machine

variable {m : Machine} {w : Setting} {scope : ScopeId}

/-- A choice between branches ends if its tests and all of its commands do. -/
theorem execFirst_terminates (hm : m.Serves w) {l : CommandId}
    (hl : Terminates fun fuel => m.exec fuel l) : ∀ (bs : List (Pred × Command))
      (os : List (PredId × CommandId)), m.module.arena.HoldsBranches scope bs os →
      (Command.flatBranches scope bs).Within w.program.flat →
      (∀ o ∈ os, Terminates fun fuel => m.exec fuel o.2) →
      Terminates fun fuel => m.execFirst fuel os l
  | [], [], _, _, _ => by
    obtain ⟨n, hl⟩ := hl
    exact ⟨n + 1, hl.of_succ fun _ => by rw [execFirst]⟩
  | (test, _) :: bs, (t, b) :: os, ⟨⟨ht, _⟩, hos⟩, hw, hall => by
    obtain ⟨hwt, hwbs⟩ := within_append.mp hw
    obtain ⟨hb, hrest⟩ := List.forall_mem_cons.mp hall
    obtain ⟨n, ht⟩ := evalPred_terminates hm test ht (within_append.mp hwt).1
    obtain ⟨k, hb⟩ := hb
    obtain ⟨j, hrest⟩ := execFirst_terminates hm hl bs os hos hwbs hrest
    refine ⟨max n (max k j) + 1, Settles.of_succ ?_ fun _ => execFirst_cons⟩
    refine (ht.mono (le_max_left _ _)).bind fun x => settles_ite (fun _ => ?_) fun _ => ?_
    · exact hb.mono (le_max_of_le_right (le_max_left k j))
    · exact hrest.mono (le_max_of_le_right (le_max_right k j))

/-- One amount of fuel is enough for whichever case is chosen. -/
theorem exists_settles_case {d : CommandId} (hd : Terminates fun fuel => m.exec fuel d) :
    ∀ cs : List (Int32 × CommandId), (∀ c ∈ cs, Terminates fun fuel => m.exec fuel c.2) →
      ∃ n, ∀ value, Settles (fun fuel => m.exec fuel ((cs.lookup value).getD d)) n
  | [], _ => by
    obtain ⟨n, hd⟩ := hd
    exact ⟨n, fun _ => hd⟩
  | (label, c) :: cs, hall => by
    obtain ⟨⟨n, hc⟩, hrest⟩ := List.forall_mem_cons.mp hall
    obtain ⟨k, hcs⟩ := exists_settles_case hd cs hrest
    refine ⟨max n k, fun value => ?_⟩
    rw [List.lookup_cons]
    cases value == label with
    | true => exact hc.mono (le_max_left n k)
    | false => exact (hcs value).mono (le_max_right n k)

mutual

/-- A command ends if no loop stands below it. -/
theorem exec_terminates (hm : m.Serves w) : ∀ (c : Command) (id : CommandId),
    m.module.arena.HoldsCommand scope c id → (c.flat scope).Within w.program.flat →
    ¬ m.module.LoopsBelow (.command id) → Terminates fun fuel => m.exec fuel id
  | .skip _, _, hid, _, _ => ⟨1, (settles_pure (n := 0)).of_succ fun _ => exec_skip hid⟩
  | .printText _ _, _, hid, _, _ =>
    ⟨1, (settles_printLine (n := 0)).of_succ fun _ => exec_printText hid⟩
  | .assign _ e _, _, ⟨v, hn, hv⟩, hw, _ => by
    obtain ⟨n, h⟩ := evalExpr_terminates hm 0 hv (within_append.mp hw).1
    exact ⟨n + 1, (h.bind fun _ => settles_store).of_succ fun _ => exec_assign hn⟩
  | .printInt e _, _, ⟨v, hn, hv⟩, hw, _ => by
    obtain ⟨n, h⟩ := evalExpr_terminates hm 0 hv (within_append.mp hw).1
    exact ⟨n + 1, (h.bind fun _ => settles_printLine).of_succ fun _ => exec_printInt hn⟩
  | .block body _, id, ⟨slice, ids, hn, hs, _, hids⟩, hw, hno => by
    have hparts : m.module.arena.parts? (.command id) = some (ids.map .command) := by
      simp [Arena.parts?, hn, Arena.partsOfCommand?, hs]
    obtain ⟨n, h⟩ := execAll_terminates hm body ids hids (within_append.mp hw).1 fun i hi hl =>
      hno (hl.of_part hparts (List.mem_map_of_mem hi))
    exact ⟨n + 1, h.of_succ fun _ => exec_block hn hs⟩
  | .cond test body others last _, id, ⟨t, b, slice, os, l, hn, hs, _, _, _, ht, hb, hos, hl⟩, hw,
      hno => by
    simp only [Command.flat, within_append] at hw
    obtain ⟨⟨⟨⟨hwt, hwb⟩, hwo⟩, hwl⟩, -⟩ := hw
    have hparts : m.module.arena.parts? (.command id) = some ([.pred t, .command b] ++
        os.flatMap (fun o => [.pred o.1, .command o.2]) ++ [.command l]) := by
      simp [Arena.parts?, hn, Arena.partsOfCommand?, hs]
    have hbody := exec_terminates hm body b hb hwb fun h => hno (h.of_part hparts (by simp))
    have hlast := exec_terminates hm last l hl hwl fun h => hno (h.of_part hparts (by simp))
    have hothers := branches_terminate hm others os hos hwo fun o ho h =>
      hno (h.of_part hparts (List.mem_append_left _ (List.mem_append_right _
        (List.mem_flatMap.mpr ⟨o, ho, List.mem_pair.mpr (.inr rfl)⟩))))
    have hall := execFirst_terminates hm hlast ((test, body) :: others) ((t, b) :: os)
      ⟨⟨ht, hb⟩, hos⟩ (within_append.mpr ⟨within_append.mpr ⟨hwt, hwb⟩, hwo⟩)
      (List.forall_mem_cons.mpr ⟨hbody, hothers⟩)
    simpa only [exec_cond hn hs] using hall
  | .loop _ _ _, id, ⟨t, b, hn, _⟩, _, hno => absurd ⟨id, _, .refl, hn, rfl⟩ hno
  | .count _ _ _ _ _ _, id, ⟨i, j, k, b, hn, _⟩, _, hno => absurd ⟨id, _, .refl, hn, rfl⟩ hno
  | .switch selector cases default _, id, ⟨s, slice, cs, d, hn, hs, _, _, hsel, hcs, hd⟩, hw,
      hno => by
    simp only [Command.flat, within_append] at hw
    obtain ⟨⟨⟨hwe, hwc⟩, hwd⟩, -⟩ := hw
    have hparts : m.module.arena.parts? (.command id) = some ([.expr s] ++
        cs.map (.command ·.2) ++ [.command d]) := by
      simp [Arena.parts?, hn, Arena.partsOfCommand?, hs]
    obtain ⟨n, hsel⟩ := evalExpr_terminates hm 0 hsel hwe
    have hd := exec_terminates hm default d hd hwd fun h => hno (h.of_part hparts (by simp))
    have hall := cases_terminate hm cases cs hcs hwc fun c hc h =>
      hno (h.of_part hparts (List.mem_append_left _ (List.mem_append_right _
        (List.mem_map_of_mem hc))))
    obtain ⟨k, hcase⟩ := exists_settles_case hd cs hall
    refine ⟨max n k + 1, Settles.of_succ ?_ fun _ => exec_switch hn hs⟩
    exact (hsel.mono (le_max_left n k)).bind fun value => (hcase value).mono (le_max_right n k)

theorem execAll_terminates (hm : m.Serves w) : ∀ (cs : List Command) (ids : List CommandId),
    m.module.arena.HoldsCommands scope cs ids → (Command.flatAll scope cs).Within w.program.flat →
    (∀ id ∈ ids, ¬ m.module.LoopsBelow (.command id)) → Terminates fun fuel => m.execAll fuel ids
  | [], [], _, _, _ => ⟨1, (settles_pure (n := 0)).of_succ fun _ => by rw [execAll]⟩
  | c :: cs, id :: ids, ⟨hid, hids⟩, hw, hno => by
    obtain ⟨hwc, hwcs⟩ := within_append.mp hw
    obtain ⟨hfirst, hrest⟩ := List.forall_mem_cons.mp hno
    obtain ⟨n, h⟩ := exec_terminates hm c id hid hwc hfirst
    obtain ⟨k, hs⟩ := execAll_terminates hm cs ids hids hwcs hrest
    refine ⟨max n k + 1, Settles.of_succ ?_ fun _ => execAll_cons⟩
    exact (h.mono (le_max_left n k)).bind fun _ => hs.mono (le_max_right n k)

theorem branches_terminate (hm : m.Serves w) : ∀ (bs : List (Pred × Command))
    (os : List (PredId × CommandId)), m.module.arena.HoldsBranches scope bs os →
    (Command.flatBranches scope bs).Within w.program.flat →
    (∀ o ∈ os, ¬ m.module.LoopsBelow (.command o.2)) →
    ∀ o ∈ os, Terminates fun fuel => m.exec fuel o.2
  | [], [], _, _, _ => fun _ ho => nomatch ho
  | (_, body) :: bs, (t, b) :: os, ⟨⟨_, hb⟩, hos⟩, hw, hno => by
    obtain ⟨hwb, hwbs⟩ := within_append.mp hw
    obtain ⟨hfirst, hrest⟩ := List.forall_mem_cons.mp hno
    have hb := exec_terminates hm body b hb (within_append.mp hwb).2 hfirst
    exact List.forall_mem_cons.mpr ⟨hb, branches_terminate hm bs os hos hwbs hrest⟩

theorem cases_terminate (hm : m.Serves w) : ∀ (cases : List (Int32 × Command))
    (cs : List (Int32 × CommandId)), m.module.arena.HoldsCases scope cases cs →
    (Command.flatCases scope cases).Within w.program.flat →
    (∀ c ∈ cs, ¬ m.module.LoopsBelow (.command c.2)) →
    ∀ c ∈ cs, Terminates fun fuel => m.exec fuel c.2
  | [], [], _, _, _ => fun _ hc => nomatch hc
  | (_, body) :: cases, (_, b) :: cs, ⟨⟨_, hb⟩, hcs⟩, hw, hno => by
    obtain ⟨hwb, hwcs⟩ := within_append.mp hw
    obtain ⟨hfirst, hrest⟩ := List.forall_mem_cons.mp hno
    have hb := exec_terminates hm body b hb hwb hfirst
    exact List.forall_mem_cons.mpr ⟨hb, cases_terminate hm cases cs hcs hwcs hrest⟩

end

end Machine

/-! ## Sources -/

/-- In the module of a source that is read, evaluation ends from every state, with a value or with a
fault, at every expression and predicate and inside any number of open calls; so does every command
below which no loop stands. How much fuel is enough does not depend on the state. -/
theorem Module.parse_terminates (source : String) (names names' : Names) (m : Module)
    (h : Module.parse source names = (.ok m, names')) (maxDepth : Nat) :
    let machine : Machine := ⟨names', m, maxDepth⟩
    (∀ (id : ExprId) (depth : Nat), id.index < m.arena.exprs.size →
      Terminates fun fuel => machine.evalExpr fuel depth id) ∧
    (∀ id : PredId, id.index < m.arena.preds.size →
      Terminates fun fuel => machine.evalPred fuel id) ∧
    ∀ id : CommandId, id.index < m.arena.commands.size → ¬ m.LoopsBelow (.command id) →
      Terminates fun fuel => machine.exec fuel id := by
  obtain ⟨program, -, hserves⟩ := Machine.serves_of_parse h
  have hm := hserves maxDepth
  refine ⟨fun id depth hid => ?_, fun id hid => ?_, fun id hid hno => ?_⟩
  · obtain ⟨scope, e, hholds, hw⟩ := hm.module.exists_expr hid
    exact Machine.evalExpr_terminates hm depth hholds hw
  · obtain ⟨scope, p, hholds, hw⟩ := hm.module.exists_pred hid
    exact Machine.evalPred_terminates hm p hholds hw
  · obtain ⟨scope, c, hholds, hw⟩ := hm.module.exists_command hid
    exact Machine.exec_terminates hm c id hholds hw hno

/-- A function that calls itself, in its own argument as well, and a conditional that calls it. -/
def Module.recursive : String := "def f(n) = f(f(n)); se f(2) = 1 entao skip senao x := f(1)"

/-- The program of `recursive`. -/
def Module.recursiveProgram : Program :=
  [.declare ⟨⟨1⟩, [⟨2⟩], .call ⟨0⟩ [.call ⟨0⟩ [.var ⟨2⟩ ⟨15, 16⟩] ⟨13, 17⟩] ⟨11, 18⟩, ⟨0, 10⟩⟩,
    .command (.cond
      (.rel .eq (.call ⟨0⟩ [.int 2 ⟨25, 26⟩] ⟨23, 27⟩) (.int 1 ⟨30, 31⟩) ⟨23, 31⟩)
      (.skip ⟨38, 42⟩) []
      (.assign ⟨3⟩ (.call ⟨0⟩ [.int 1 ⟨56, 57⟩] ⟨54, 58⟩) ⟨49, 58⟩) ⟨20, 58⟩)]

/-- A function that would call itself for ever ends whatever the limit of calls is, and so do the
tests and the commands that call it. -/
theorem Module.parse_terminates_recursive : ∃ (m : Module) (names : Names),
    Module.parse recursive .initial = (.ok m, names) ∧ ∀ maxDepth,
    let machine : Machine := ⟨names, m, maxDepth⟩
    (∀ depth, Terminates fun fuel => machine.evalExpr fuel depth ⟨2⟩) ∧
    (Terminates fun fuel => machine.evalPred fuel ⟨0⟩) ∧
    ¬ m.LoopsBelow (.command ⟨2⟩) ∧ Terminates fun fuel => machine.exec fuel ⟨2⟩ := by
  have h : Module.parse recursive .initial =
      (.ok (.ofProgram recursiveProgram), ⟨#["", "f", "n", "x"]⟩) := by
    decide +kernel
  have hno : ¬ (ofProgram recursiveProgram).LoopsBelow (.command ⟨2⟩) := by
    rintro ⟨id, node, -, hnode, hloop⟩
    have hall : ∀ node ∈ (ofProgram recursiveProgram).arena.commands.toList,
        node.shape.isLoop = false := by
      decide +kernel
    have hmem := Array.mem_toList_iff.mpr (Array.mem_of_getElem? hnode)
    exact absurd ((hall node hmem).symm.trans hloop) Bool.false_ne_true
  refine ⟨_, _, h, fun maxDepth => ?_⟩
  obtain ⟨hexpr, hpred, hcommand⟩ := Module.parse_terminates _ _ _ _ h maxDepth
  exact ⟨fun depth => hexpr ⟨2⟩ depth (by decide +kernel), hpred ⟨0⟩ (by decide +kernel), hno,
    hcommand ⟨2⟩ (by decide +kernel) hno⟩

end Enquanto

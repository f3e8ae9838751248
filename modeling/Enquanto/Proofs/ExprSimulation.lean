import Enquanto.Proofs.Invariants
import Enquanto.Proofs.RunRules

/-!
# Expressions on the machine

The machine evaluates an expression of the arena exactly as the rules evaluate the tree that stands
there.

* `Machine.Serves`: a machine runs the module of a program that was read;
* `Machine.Hosts`: what the simulation needs of that. The module may hold more than the program;
* `Machine.evalExpr_yields` and `Machine.evalPred_yields`: what the machine gives is what the rules
  give;
* `Machine.evalExpr_ends` and `Machine.evalPred_ends`: what the rules give the machine gives, with
  enough fuel.
-/

namespace Enquanto

open Filter Run

namespace Machine

/-- The machine runs the module of a program whose calls are resolved. -/
structure Serves (m : Machine) (w : Setting) : Prop where
  names : m.names = w.names
  maxDepth : m.maxDepth = w.maxDepth
  module : m.module.Represents w.program
  resolved : w.program.flat.Resolved w.program.headers

variable {m : Machine} {w : Setting}

/-- A call among the subtrees of the program leads to a function with a body. -/
theorem Serves.callee (hm : m.Serves w) {scope : ScopeId} {function : FunctionId}
    {args : List Expr} {span : Span}
    (h : (scope, Expr.call function args span) ∈ w.program.flat.exprs) :
    ∃ d body, w.program.declarations[function.index]? = some d ∧
      args.length = d.params.length ∧
      m.module.functions.get? function =
        some ⟨d.name, d.params, some body, function.scope, d.span⟩ ∧
      m.module.arena.HoldsExpr function.scope d.body body ∧
      (d.body.flat function.scope).Within w.program.flat := by
  obtain ⟨d, hd, hn⟩ := Program.resolves_headers_iff.mp (hm.resolved _ _ _ _ h)
  obtain ⟨body, hf, hb⟩ := hm.module.function hd
  exact ⟨d, body, hd, hn.symm, hf, hb, Program.body_within hd⟩

/-- The machine has the functions of a setting in its module: a call among the subtrees of the
program leads to one whose body stands in the arena. -/
structure Hosts (m : Machine) (w : Setting) : Prop where
  names : m.names = w.names
  maxDepth : m.maxDepth = w.maxDepth
  callee : ∀ {scope : ScopeId} {function : FunctionId} {args : List Expr} {span : Span},
    (scope, Expr.call function args span) ∈ w.program.flat.exprs →
    ∃ d body, w.program.declarations[function.index]? = some d ∧
      args.length = d.params.length ∧
      m.module.functions.get? function =
        some ⟨d.name, d.params, some body, function.scope, d.span⟩ ∧
      m.module.arena.HoldsExpr function.scope d.body body ∧
      (d.body.flat function.scope).Within w.program.flat

theorem Serves.hosts (hm : m.Serves w) : m.Hosts w := ⟨hm.names, hm.maxDepth, hm.callee⟩

end Machine

/-- The arguments stand at the ids, each for its parameter. -/
def Arena.HoldsArgs (a : Arena) (scope : ScopeId) :
    List (Name × Expr) → List (Name × ExprId) → Prop
  | [], [] => True
  | (param, arg) :: rest, (name, id) :: ids =>
    (name = param ∧ a.HoldsExpr scope arg id) ∧ Arena.HoldsArgs a scope rest ids
  | _, _ => False

theorem Arena.HoldsExprs.zip {a : Arena} {scope : ScopeId} : ∀ (params : List Name)
    {args : List Expr} {ids : List ExprId}, a.HoldsExprs scope args ids →
    a.HoldsArgs scope (params.zip args) (params.zip ids)
  | [], _, _, _ => trivial
  | _ :: _, [], [], _ => trivial
  | _ :: params, _ :: _, _ :: _, ⟨h, hs⟩ => ⟨⟨rfl, h⟩, hs.zip params⟩

/-! ## Faults have a place -/

theorem Setting.keeps_isSome (w : Setting) : w.Keeps (fun _ => True) fun f => f.span.isSome where
  store := fun _ _ _ _ _ => trivial
  print := fun _ _ _ => trivial
  read := fun _ _ _ _ _ => trivial
  read_fault := fun _ _ _ _ _ _ _ _ => ⟨trivial, rfl⟩
  division := fun _ _ _ _ _ => rfl
  limit := fun _ _ _ _ _ => rfl

/-! ## Single steps -/

namespace Machine

section
variable {m : Machine} {fuel depth : Nat} {id : ExprId} {span : Span}

theorem evalExpr_int {value : Int32} (h : m.module.arena.expr? id = some ⟨.int value, span⟩) :
    m.evalExpr (fuel + 1) depth id = pure value :=
  found_bind_of_eq h _

theorem evalExpr_var {name : Name} {scope : ScopeId}
    (h : m.module.arena.expr? id = some ⟨.var name scope, span⟩) :
    m.evalExpr (fuel + 1) depth id = lookup scope name :=
  found_bind_of_eq h _

theorem evalExpr_neg {i : ExprId} (h : m.module.arena.expr? id = some ⟨.neg i, span⟩) :
    m.evalExpr (fuel + 1) depth id = (do return -(← m.evalExpr fuel depth i)) :=
  found_bind_of_eq h _

theorem evalExpr_arith {op : ArithOp} {l r : ExprId}
    (h : m.module.arena.expr? id = some ⟨.arith op l r, span⟩) :
    m.evalExpr (fuel + 1) depth id = (do
      let x ← m.evalExpr fuel depth l
      let y ← m.evalExpr fuel depth r
      match op.apply x y with
      | some value => return value
      | none => fault .divisionByZero span) :=
  found_bind_of_eq h _

theorem evalExpr_read (h : m.module.arena.expr? id = some ⟨.read, span⟩) :
    m.evalExpr (fuel + 1) depth id = readInt span :=
  found_bind_of_eq h _

theorem evalExpr_call {function : FunctionId} {slice : Slice}
    (h : m.module.arena.expr? id = some ⟨.call function slice, span⟩) :
    m.evalExpr (fuel + 1) depth id = orSpan span (m.call fuel depth function slice) :=
  found_bind_of_eq h _

/-- A call of a function that has a body, with the right number of arguments. -/
theorem call_of_arity {function : FunctionId} {slice : Slice} {ids : List ExprId} {f : Function}
    {body : ExprId} (hf : m.module.functions.get? function = some f) (hb : f.body = some body)
    (hs : m.module.arena.args? slice = some ids) (hn : ids.length = f.arity) :
    m.call (fuel + 1) depth function slice = (do
      m.bindArgs fuel depth f.scope (f.params.zip ids)
      if depth < m.maxDepth then m.evalExpr fuel (depth + 1) body
      else fault (.stackOverflow m.maxDepth)) := by
  rw [call, hf]
  simp only [hb]
  rw [found_bind_of_eq hs, if_neg (not_not_intro hn)]

end

end Machine

/-! ## What the machine gives -/

namespace Machine

/-- With this fuel, expressions are evaluated by the rules. -/
def EvalSound (m : Machine) (w : Setting) (fuel : Nat) : Prop :=
  ∀ (depth : Nat) (scope : ScopeId) (e : Expr) (id : ExprId) (s : State),
    m.module.arena.HoldsExpr scope e id →
    (e.flat scope).Within w.program.flat →
    (m.evalExpr fuel depth id).Yields s (Evaluates w depth scope e s)

/-- With this fuel, arguments are bound by the rules. -/
def BindSound (m : Machine) (w : Setting) (fuel : Nat) : Prop :=
  ∀ (depth : Nat) (scope callee : ScopeId) (args : List (Name × Expr))
    (ids : List (Name × ExprId)) (s : State), m.module.arena.HoldsArgs scope args ids →
    (Expr.flatAll scope (args.map Prod.snd)).Within w.program.flat →
    (m.bindArgs fuel depth callee ids).Yields s (Binds w depth scope callee args s)

/-- With this fuel, calls are evaluated by the rules. -/
def CallSound (m : Machine) (w : Setting) (fuel : Nat) : Prop :=
  ∀ (depth : Nat) (scope : ScopeId) (function : FunctionId) (args : List Expr) (span : Span)
    (slice : Slice) (ids : List ExprId) (s : State), m.module.arena.args? slice = some ids →
    m.module.arena.HoldsExprs scope args ids →
    ((Expr.call function args span).flat scope).Within w.program.flat →
    (orSpan span (m.call fuel depth function slice)).Yields s
      (Evaluates w depth scope (.call function args span) s)

variable {m : Machine} {w : Setting} {fuel : Nat}

theorem bindSound_succ (he : EvalSound m w fuel) (hb : BindSound m w fuel) :
    BindSound m w (fuel + 1) := by
  intro depth scope callee args ids s hids hw
  match args, ids, hids with
  | [], [], _ => exact yields_pure .nil
  | (_, arg) :: args, (param, id) :: ids, ⟨⟨rfl, hid⟩, hids⟩ =>
    obtain ⟨hw, hws⟩ := Flattening.within_append.mp hw
    refine (he depth scope arg id s hid hw).bind (fun value s₁ h₁ => ?_) fun f s₁ h₁ => .fault h₁
    exact (hb depth scope callee args ids _ hids hws).imp fun r s₂ h₂ => .cons h₁ h₂

theorem callSound_succ (hm : m.Hosts w) (he : EvalSound m w fuel) (hb : BindSound m w fuel) :
    CallSound m w (fuel + 1) := by
  intro depth scope function args span slice ids s hs hids hw
  obtain ⟨d, body, hd, hn, hf, hbody, hwbody⟩ := hm.callee (Flattening.within_call hw).2
  have hlen : ids.length = d.params.length := hids.length_eq.trans hn
  rw [call_of_arity hf rfl hs hlen, hm.maxDepth]
  -- Only the fault of the depth check has no place yet.
  have hchain : (m.bindArgs fuel depth function.scope (d.params.zip ids) >>= fun _ =>
      if depth < w.maxDepth then m.evalExpr fuel (depth + 1) body
      else fault (.stackOverflow w.maxDepth)).Yields s fun r s' =>
        Evaluates w depth scope (.call function args span) s r s' ∨
        r = .error ⟨.stackOverflow w.maxDepth, none⟩ ∧
          Evaluates w depth scope (.call function args span) s
            (.error ⟨.stackOverflow w.maxDepth, some span⟩) s' := by
    refine (hb depth scope function.scope _ _ s (hids.zip d.params)
      (Flattening.within_args hn hw)).bind (fun _ s₁ h₁ => ?_)
      fun f s₁ h₁ => .inl (.call_args hd hn h₁)
    by_cases hdepth : depth < w.maxDepth
    · rw [if_pos hdepth]
      exact (he (depth + 1) function.scope d.body body s₁ hbody hwbody).imp
        fun r s₂ h₂ => .inl (.call hd hn h₁ hdepth h₂)
    · rw [if_neg hdepth]
      exact yields_fault (.inr ⟨rfl, .call_limit hd hn h₁ hdepth⟩)
  refine hchain.orSpan (fun value s' h => ?_) fun f s' h => ?_
  · rcases h with h | ⟨h, -⟩
    · exact h
    · cases h
  · rcases h with h | ⟨h, h'⟩
    · rw [Fault.orSpan_of_isSome (h.keeps w.keeps_isSome hw trivial).2]
      exact h
    · cases h
      exact h'

theorem evalSound_succ (he : EvalSound m w fuel) (hc : CallSound m w fuel) :
    EvalSound m w (fuel + 1) := by
  intro depth scope e id s hid hw
  cases e with
  | int value span =>
    rw [evalExpr_int hid]
    exact yields_pure .int
  | var name span =>
    rw [evalExpr_var hid]
    exact yields_of_ended (r := .ok _) rfl .var
  | neg operand span =>
    obtain ⟨i, hn, -, hi⟩ := hid
    rw [evalExpr_neg hn]
    exact (he depth scope operand i s hi (Flattening.within_append.mp hw).1).bind
      (fun value s₁ h₁ => yields_pure (.neg h₁)) fun f s₁ h₁ => .neg_fault h₁
  | arith op left right span =>
    obtain ⟨l, r, hn, -, -, hl, hr⟩ := hid
    obtain ⟨hwl, hwr, -⟩ := Flattening.within_arith hw
    rw [evalExpr_arith hn]
    refine (he depth scope left l s hl hwl).bind (fun x s₁ h₁ => ?_) fun f s₁ h₁ => .arith_left h₁
    refine (he depth scope right r s₁ hr hwr).bind (fun y s₂ h₂ => ?_)
      fun f s₂ h₂ => .arith_right h₁ h₂
    cases hop : op.apply x y with
    | some value => exact yields_pure (.arith h₁ h₂ hop)
    | none => exact yields_fault (.arith_undefined h₁ h₂ hop)
  | read span =>
    rw [evalExpr_read hid]
    rcases hr : s.input.readInt with ⟨error | value, input⟩
    · exact yields_of_ended (readInt_of_error hr) (.read_fault hr)
    · exact yields_of_ended (readInt_of_ok hr) (.read hr)
  | call function args span =>
    obtain ⟨slice, ids, hn, hs, -, hids⟩ := hid
    rw [evalExpr_call hn]
    exact hc depth scope function args span slice ids s hs hids hw

theorem evalSound (hm : m.Hosts w) (fuel : Nat) :
    EvalSound m w fuel ∧ CallSound m w fuel ∧ BindSound m w fuel := by
  induction fuel with
  | zero =>
    exact ⟨fun _ _ _ _ _ _ _ => yields_outOfFuel, fun _ _ _ _ _ _ _ _ _ _ _ => trivial,
      fun _ _ _ _ _ _ _ _ => yields_outOfFuel⟩
  | succ fuel ih =>
    obtain ⟨he, hc, hb⟩ := ih
    exact ⟨evalSound_succ he hc, callSound_succ hm he hb, bindSound_succ he hb⟩

/-- What the machine gives for an expression is what the rules give. -/
theorem Hosts.evalExpr_yields (hm : m.Hosts w) (fuel depth : Nat) {scope : ScopeId} {e : Expr}
    {id : ExprId} (h : m.module.arena.HoldsExpr scope e id)
    (hw : (e.flat scope).Within w.program.flat) (s : State) :
    (m.evalExpr fuel depth id).Yields s (Evaluates w depth scope e s) :=
  (evalSound hm fuel).1 depth scope e id s h hw

/-! ## What the rules give -/

/-- A call ends as the binding of its arguments and its body end. -/
theorem evalExpr_ends_of_call {depth : Nat} {id body : ExprId} {function : FunctionId}
    {slice : Slice} {ids : List ExprId} {d : Declaration} {span : Span} {s s' : State}
    {r : Except Fault Int32}
    (hnode : m.module.arena.expr? id = some ⟨.call function slice, span⟩)
    (hs : m.module.arena.args? slice = some ids) (hlen : ids.length = d.params.length)
    (hf : m.module.functions.get? function =
      some ⟨d.name, d.params, some body, function.scope, d.span⟩)
    (h : Ends (fun fuel => orSpan span (m.bindArgs fuel depth function.scope (d.params.zip ids) >>=
      fun _ => if depth < m.maxDepth then m.evalExpr fuel (depth + 1) body
        else fault (.stackOverflow m.maxDepth))) s r s') :
    Ends (fun fuel => m.evalExpr fuel depth id) s r s' := by
  have hcall : Ends (fun fuel => orSpan span (m.call fuel depth function slice)) s r s' :=
    h.of_succ fun fuel => by rw [call_of_arity hf rfl hs hlen]
  exact hcall.of_succ fun fuel => evalExpr_call hnode

mutual

/-- What the rules give for an expression the machine gives, with enough fuel. -/
theorem Hosts.evalExpr_ends (hm : m.Hosts w) : ∀ {depth : Nat} {scope : ScopeId} {e : Expr}
    {s s' : State} {r : Except Fault Int32}, Evaluates w depth scope e s r s' → ∀ id : ExprId,
    m.module.arena.HoldsExpr scope e id → (e.flat scope).Within w.program.flat →
    Ends (fun fuel => m.evalExpr fuel depth id) s r s'
  | _, _, _, _, _, _, .int, id, hid, _ => ends_pure.of_succ fun _ => evalExpr_int hid
  | _, _, _, _, _, _, .var, id, hid, _ => ends_lookup.of_succ fun _ => evalExpr_var hid
  | _, _, _, _, _, _, .neg h, id, ⟨i, hn, _, hi⟩, hw => by
    have hi := hm.evalExpr_ends h i hi (Flattening.within_append.mp hw).1
    refine (hi.bind ?_).of_succ fun _ => evalExpr_neg hn
    exact ends_pure
  | _, _, _, _, _, _, .neg_fault h, id, ⟨i, hn, _, hi⟩, hw => by
    have hi := hm.evalExpr_ends h i hi (Flattening.within_append.mp hw).1
    exact hi.fault.of_succ fun _ => evalExpr_neg hn
  | _, _, _, _, _, _, .arith hl hr hop, id, ⟨l, r, hn, _, _, hil, hir⟩, hw => by
    obtain ⟨hwl, hwr, -⟩ := Flattening.within_arith hw
    have hl := hm.evalExpr_ends hl l hil hwl
    have hr := hm.evalExpr_ends hr r hir hwr
    refine (hl.bind (hr.bind ?_)).of_succ fun _ => evalExpr_arith hn
    rw [hop]
    exact ends_pure
  | _, _, _, _, _, _, .arith_undefined hl hr hop, id, ⟨l, r, hn, _, _, hil, hir⟩, hw => by
    obtain ⟨hwl, hwr, -⟩ := Flattening.within_arith hw
    have hl := hm.evalExpr_ends hl l hil hwl
    have hr := hm.evalExpr_ends hr r hir hwr
    refine (hl.bind (hr.bind ?_)).of_succ fun _ => evalExpr_arith hn
    rw [hop]
    exact .of_forall fun _ => rfl
  | _, _, _, _, _, _, .arith_left hl, id, ⟨l, r, hn, _, _, hil, _⟩, hw => by
    have hl := hm.evalExpr_ends hl l hil (Flattening.within_arith hw).1
    exact hl.fault.of_succ fun _ => evalExpr_arith hn
  | _, _, _, _, _, _, .arith_right hl hr, id, ⟨l, r, hn, _, _, hil, hir⟩, hw => by
    obtain ⟨hwl, hwr, -⟩ := Flattening.within_arith hw
    have hl := hm.evalExpr_ends hl l hil hwl
    have hr := hm.evalExpr_ends hr r hir hwr
    exact (hl.bind hr.fault).of_succ fun _ => evalExpr_arith hn
  | _, _, _, _, _, _, .read h, id, hid, _ => by
    refine Ends.of_succ (.of_forall fun _ => ?_) fun _ => evalExpr_read hid
    exact readInt_of_ok h
  | _, _, _, _, _, _, .read_fault h, id, hid, _ => by
    refine Ends.of_succ (.of_forall fun _ => ?_) fun _ => evalExpr_read hid
    exact readInt_of_error h
  | _, _, _, _, _, _, .call (d := d) hd hn hargs hdepth hbody, id,
      ⟨slice, ids, hnode, hs, _, hids⟩, hw => by
    obtain ⟨_, body, hd', -, hf, hb, hwb⟩ := hm.callee (Flattening.within_call hw).2
    cases hd.symm.trans hd'
    have hplace := (hbody.keeps w.keeps_isSome hwb trivial).2
    have hbind := hm.bindArgs_ends hargs _ (hids.zip d.params) (Flattening.within_args hn hw)
    refine evalExpr_ends_of_call hnode hs (hids.length_eq.trans hn) hf
      ((hbind.bind ?_).orSpan hplace.of_eq)
    simp only [hm.maxDepth, if_pos hdepth]
    exact hm.evalExpr_ends hbody body hb hwb
  | _, _, _, _, _, _, .call_limit (d := d) hd hn hargs hdepth, id,
      ⟨slice, ids, hnode, hs, _, hids⟩, hw => by
    obtain ⟨_, body, hd', -, hf, -, -⟩ := hm.callee (Flattening.within_call hw).2
    cases hd.symm.trans hd'
    have hbind := hm.bindArgs_ends hargs _ (hids.zip d.params) (Flattening.within_args hn hw)
    refine evalExpr_ends_of_call hnode hs (hids.length_eq.trans hn) hf (hbind.bind ?_).orSpan_none
    simp only [hm.maxDepth, if_neg hdepth]
    exact .of_forall fun _ => rfl
  | _, _, _, _, _, _, .call_args (d := d) hd hn hargs, id,
      ⟨slice, ids, hnode, hs, _, hids⟩, hw => by
    obtain ⟨_, body, hd', -, hf, -, -⟩ := hm.callee (Flattening.within_call hw).2
    cases hd.symm.trans hd'
    have hwargs := Flattening.within_args hn hw
    have hplace := (hargs.keeps w.keeps_isSome hwargs trivial).2
    have hbind := hm.bindArgs_ends hargs _ (hids.zip d.params) hwargs
    exact evalExpr_ends_of_call hnode hs (hids.length_eq.trans hn) hf
      (hbind.fault.orSpan fun f hf => hplace.of_eq f (congrArg _ (Except.error.inj hf)))

theorem Hosts.bindArgs_ends (hm : m.Hosts w) : ∀ {depth : Nat} {scope callee : ScopeId}
    {args : List (Name × Expr)} {s s' : State} {r : Except Fault Unit},
    Binds w depth scope callee args s r s' → ∀ ids : List (Name × ExprId),
    m.module.arena.HoldsArgs scope args ids →
    (Expr.flatAll scope (args.map Prod.snd)).Within w.program.flat →
    Ends (fun fuel => m.bindArgs fuel depth callee ids) s r s'
  | _, _, _, _, _, _, _, .nil, [], _, _ => ends_pure.of_succ fun _ => by rw [bindArgs]
  | _, _, _, _, _, _, _, .cons h hrest, (param, id) :: ids, ⟨⟨hp, hid⟩, hids⟩, hw => by
    obtain ⟨hwarg, hwrest⟩ := Flattening.within_append.mp hw
    have harg := hm.evalExpr_ends h id hid hwarg
    have hrest := hm.bindArgs_ends hrest ids hids hwrest
    exact (harg.bind (ends_store.bind hrest)).of_succ fun _ => by rw [bindArgs, hp]
  | _, _, _, _, _, _, _, .fault h, (param, id) :: ids, ⟨⟨_, hid⟩, _⟩, hw => by
    have harg := hm.evalExpr_ends h id hid (Flattening.within_append.mp hw).1
    exact harg.fault.of_succ fun _ => by rw [bindArgs]

end

/-! ## Predicates -/

section
variable {fuel : Nat} {id : PredId} {span : Span}

theorem evalPred_lit {value : Bool} (h : m.module.arena.pred? id = some ⟨.lit value, span⟩) :
    m.evalPred (fuel + 1) id = pure value :=
  found_bind_of_eq h _

theorem evalPred_not {i : PredId} (h : m.module.arena.pred? id = some ⟨.not i, span⟩) :
    m.evalPred (fuel + 1) id = (do return !(← m.evalPred fuel i)) :=
  found_bind_of_eq h _

theorem evalPred_logic {op : LogicOp} {l r : PredId}
    (h : m.module.arena.pred? id = some ⟨.logic op l r, span⟩) :
    m.evalPred (fuel + 1) id = (do
      let x ← m.evalPred fuel l
      let y ← m.evalPred fuel r
      return op.apply x y) :=
  found_bind_of_eq h _

theorem evalPred_rel {op : RelOp} {l r : ExprId}
    (h : m.module.arena.pred? id = some ⟨.rel op l r, span⟩) :
    m.evalPred (fuel + 1) id = (do
      let x ← m.evalExpr fuel 0 l
      let y ← m.evalExpr fuel 0 r
      return op.apply x y) :=
  found_bind_of_eq h _

end

/-- What the machine gives for a predicate is what the rules give. -/
theorem Hosts.evalPred_yields (hm : m.Hosts w) (fuel : Nat) {scope : ScopeId} {p : Pred}
    {id : PredId} (h : m.module.arena.HoldsPred scope p id)
    (hw : (p.flat scope).Within w.program.flat) (s : State) :
    (m.evalPred fuel id).Yields s (Decides w scope p s) := by
  induction fuel generalizing p id s with
  | zero => exact yields_outOfFuel
  | succ fuel ih =>
    cases p with
    | lit value span =>
      rw [evalPred_lit h]
      exact yields_pure .lit
    | not operand span =>
      obtain ⟨i, hn, -, hi⟩ := h
      rw [evalPred_not hn]
      exact (ih hi (Flattening.within_append.mp hw).1 s).bind
        (fun value s₁ h₁ => yields_pure (.not h₁)) fun f s₁ h₁ => .not_fault h₁
    | logic op left right span =>
      obtain ⟨l, r, hn, -, -, hl, hr⟩ := h
      obtain ⟨hwl, hwr⟩ := Flattening.within_append.mp (Flattening.within_append.mp hw).1
      rw [evalPred_logic hn]
      refine (ih hl hwl s).bind (fun x s₁ h₁ => ?_) fun f s₁ h₁ => .logic_left h₁
      exact (ih hr hwr s₁).bind (fun y s₂ h₂ => yields_pure (.logic h₁ h₂))
        fun f s₂ h₂ => .logic_right h₁ h₂
    | rel op left right span =>
      obtain ⟨l, r, hn, hl, hr⟩ := h
      obtain ⟨hwl, hwr⟩ := Flattening.within_append.mp (Flattening.within_append.mp hw).1
      rw [evalPred_rel hn]
      refine (hm.evalExpr_yields fuel 0 hl hwl s).bind (fun x s₁ h₁ => ?_)
        fun f s₁ h₁ => .rel_left h₁
      exact (hm.evalExpr_yields fuel 0 hr hwr s₁).bind (fun y s₂ h₂ => yields_pure (.rel h₁ h₂))
        fun f s₂ h₂ => .rel_right h₁ h₂

/-- What the rules give for a predicate the machine gives, with enough fuel. -/
theorem Hosts.evalPred_ends (hm : m.Hosts w) {scope : ScopeId} {p : Pred} {s s' : State}
    {r : Except Fault Bool} (h : Decides w scope p s r s') {id : PredId}
    (hid : m.module.arena.HoldsPred scope p id) (hw : (p.flat scope).Within w.program.flat) :
    Ends (fun fuel => m.evalPred fuel id) s r s' := by
  induction h generalizing id with
  | lit => exact ends_pure.of_succ fun _ => evalPred_lit hid
  | not _ ih =>
    obtain ⟨i, hn, -, hi⟩ := hid
    have hi := ih hi (Flattening.within_append.mp hw).1
    refine (hi.bind ?_).of_succ fun _ => evalPred_not hn
    exact ends_pure
  | not_fault _ ih =>
    obtain ⟨i, hn, -, hi⟩ := hid
    have hi := ih hi (Flattening.within_append.mp hw).1
    exact hi.fault.of_succ fun _ => evalPred_not hn
  | logic _ _ ihl ihr =>
    obtain ⟨l, r, hn, -, -, hl, hr⟩ := hid
    obtain ⟨hwl, hwr⟩ := Flattening.within_append.mp (Flattening.within_append.mp hw).1
    refine ((ihl hl hwl).bind ((ihr hr hwr).bind ?_)).of_succ fun _ => evalPred_logic hn
    exact ends_pure
  | logic_left _ ihl =>
    obtain ⟨l, r, hn, -, -, hl, -⟩ := hid
    have hwl := (Flattening.within_append.mp (Flattening.within_append.mp hw).1).1
    exact (ihl hl hwl).fault.of_succ fun _ => evalPred_logic hn
  | logic_right _ _ ihl ihr =>
    obtain ⟨l, r, hn, -, -, hl, hr⟩ := hid
    obtain ⟨hwl, hwr⟩ := Flattening.within_append.mp (Flattening.within_append.mp hw).1
    exact ((ihl hl hwl).bind (ihr hr hwr).fault).of_succ fun _ => evalPred_logic hn
  | rel hl hr =>
    obtain ⟨l, r, hn, hil, hir⟩ := hid
    obtain ⟨hwl, hwr⟩ := Flattening.within_append.mp (Flattening.within_append.mp hw).1
    have hl := hm.evalExpr_ends hl l hil hwl
    have hr := hm.evalExpr_ends hr r hir hwr
    refine (hl.bind (hr.bind ?_)).of_succ fun _ => evalPred_rel hn
    exact ends_pure
  | rel_left hl =>
    obtain ⟨l, r, hn, hil, -⟩ := hid
    have hwl := (Flattening.within_append.mp (Flattening.within_append.mp hw).1).1
    exact (hm.evalExpr_ends hl l hil hwl).fault.of_succ fun _ => evalPred_rel hn
  | rel_right hl hr =>
    obtain ⟨l, r, hn, hil, hir⟩ := hid
    obtain ⟨hwl, hwr⟩ := Flattening.within_append.mp (Flattening.within_append.mp hw).1
    have hl := hm.evalExpr_ends hl l hil hwl
    have hr := hm.evalExpr_ends hr r hir hwr
    exact (hl.bind hr.fault).of_succ fun _ => evalPred_rel hn

/-! ## On the machine of a program -/

section
variable (hm : m.Serves w) {scope : ScopeId} {s s' : State}
include hm

theorem evalExpr_yields (fuel depth : Nat) {e : Expr} {id : ExprId}
    (h : m.module.arena.HoldsExpr scope e id) (hw : (e.flat scope).Within w.program.flat)
    (s : State) : (m.evalExpr fuel depth id).Yields s (Evaluates w depth scope e s) :=
  hm.hosts.evalExpr_yields fuel depth h hw s

theorem evalExpr_ends {depth : Nat} {e : Expr} {r : Except Fault Int32}
    (h : Evaluates w depth scope e s r s') (id : ExprId)
    (hid : m.module.arena.HoldsExpr scope e id) (hw : (e.flat scope).Within w.program.flat) :
    Ends (fun fuel => m.evalExpr fuel depth id) s r s' :=
  hm.hosts.evalExpr_ends h id hid hw

theorem evalPred_yields (fuel : Nat) {p : Pred} {id : PredId}
    (h : m.module.arena.HoldsPred scope p id) (hw : (p.flat scope).Within w.program.flat)
    (s : State) : (m.evalPred fuel id).Yields s (Decides w scope p s) :=
  hm.hosts.evalPred_yields fuel h hw s

theorem evalPred_ends {p : Pred} {r : Except Fault Bool} (h : Decides w scope p s r s')
    {id : PredId} (hid : m.module.arena.HoldsPred scope p id)
    (hw : (p.flat scope).Within w.program.flat) :
    Ends (fun fuel => m.evalPred fuel id) s r s' :=
  hm.hosts.evalPred_ends h hid hw

end

end Machine

end Enquanto

import Enquanto.Interpret
import Enquanto.Proofs.InputItems
import Enquanto.Proofs.RunRules

/-!
# How much of the input an expression takes

An expression has no part that is evaluated on a condition only: both sides of every operator are,
all arguments of a call, and the body of the function behind them. So how many words it takes off
the input is written in the module. An expression that does not come to an end, because a function
calls itself, has no such number.

* `Module.Takes`: the number of words that an expression takes; `Module.TakesPred`: a predicate;
* `Module.Takes.unique`: there is one number at most;
* `Run.Consumes`: what a run with a value takes off its input;
* `Machine.takes_of_ok`: an evaluation with a value takes that number of words off the front.
-/

namespace Enquanto

/-! ## The number of words in the module -/

namespace Module

mutual

/-- The expression takes `n` words: what stands at its node does. -/
inductive Takes (m : Module) : ExprId → Nat → Prop where
  | node {id : ExprId} {node : Located ExprNode} {n : Nat} :
      m.arena.expr? id = some node → TakesShape m node.shape n → Takes m id n

/-- What stands at a node takes `n` words. One is taken by `read`; an operator takes those of both
sides, and a call those of its arguments and of the body of the function. -/
inductive TakesShape (m : Module) : ExprNode → Nat → Prop where
  | int {value : Int32} : TakesShape m (.int value) 0
  | var {name : Name} {scope : ScopeId} : TakesShape m (.var name scope) 0
  | neg {operand : ExprId} {n : Nat} : Takes m operand n → TakesShape m (.neg operand) n
  | arith {op : ArithOp} {left right : ExprId} {n k : Nat} :
      Takes m left n → Takes m right k → TakesShape m (.arith op left right) (n + k)
  | read : TakesShape m .read 1
  | call {id : FunctionId} {f : Function} {body : ExprId} {slice : Slice} {args : List ExprId}
      {n k : Nat} :
      m.functions.get? id = some f → f.body = some body → m.arena.args? slice = some args →
      TakesAll m args n → Takes m body k → TakesShape m (.call id slice) (n + k)

/-- The expressions take `n` words together. -/
inductive TakesAll (m : Module) : List ExprId → Nat → Prop where
  | nil : TakesAll m [] 0
  | cons {id : ExprId} {ids : List ExprId} {n k : Nat} :
      Takes m id n → TakesAll m ids k → TakesAll m (id :: ids) (n + k)

end

mutual

/-- The predicate takes `n` words. -/
inductive TakesPred (m : Module) : PredId → Nat → Prop where
  | node {id : PredId} {node : Located PredNode} {n : Nat} :
      m.arena.pred? id = some node → TakesPredShape m node.shape n → TakesPred m id n

/-- What stands at the node of a predicate takes `n` words: those of both sides, whatever the value
of the left one. -/
inductive TakesPredShape (m : Module) : PredNode → Nat → Prop where
  | lit {value : Bool} : TakesPredShape m (.lit value) 0
  | not {operand : PredId} {n : Nat} : TakesPred m operand n → TakesPredShape m (.not operand) n
  | logic {op : LogicOp} {left right : PredId} {n k : Nat} :
      TakesPred m left n → TakesPred m right k → TakesPredShape m (.logic op left right) (n + k)
  | rel {op : RelOp} {left right : ExprId} {n k : Nat} :
      m.Takes left n → m.Takes right k → TakesPredShape m (.rel op left right) (n + k)

end

section
variable {m : Module}

mutual

/-- An expression takes one number of words only. -/
theorem Takes.unique {n k : Nat} : ∀ {id : ExprId}, m.Takes id n → m.Takes id k → n = k
  | _, .node hn h, .node hn' h' => by
    cases hn.symm.trans hn'
    exact h.unique h'

theorem TakesShape.unique {n k : Nat} : ∀ {node : ExprNode}, m.TakesShape node n →
    m.TakesShape node k → n = k
  | _, .int, .int => rfl
  | _, .var, .var => rfl
  | _, .neg h, .neg h' => h.unique h'
  | _, .arith hl hr, .arith hl' hr' => by rw [hl.unique hl', hr.unique hr']
  | _, .read, .read => rfl
  | _, .call hf hb ha hargs hbody, .call hf' hb' ha' hargs' hbody' => by
    cases hf.symm.trans hf'
    cases hb.symm.trans hb'
    cases ha.symm.trans ha'
    rw [hargs.unique hargs', hbody.unique hbody']

theorem TakesAll.unique {n k : Nat} : ∀ {ids : List ExprId}, m.TakesAll ids n →
    m.TakesAll ids k → n = k
  | _, .nil, .nil => rfl
  | _, .cons h hs, .cons h' hs' => by rw [h.unique h', hs.unique hs']

end

mutual

/-- A predicate takes one number of words only. -/
theorem TakesPred.unique {n k : Nat} : ∀ {id : PredId}, m.TakesPred id n → m.TakesPred id k → n = k
  | _, .node hn h, .node hn' h' => by
    cases hn.symm.trans hn'
    exact h.unique h'

theorem TakesPredShape.unique {n k : Nat} : ∀ {node : PredNode}, m.TakesPredShape node n →
    m.TakesPredShape node k → n = k
  | _, .lit, .lit => rfl
  | _, .not h, .not h' => h.unique h'
  | _, .logic hl hr, .logic hl' hr' => by rw [hl.unique hl', hr.unique hr']
  | _, .rel hl hr, .rel hl' hr' => by rw [hl.unique hl', hr.unique hr']

end

end

end Module

/-! ## Words off the front of an input -/

namespace Input

/-- The first `n` items are words, and are taken off. -/
def Drops (n : Nat) (input rest : Input) : Prop :=
  rest = input.drop n ∧
    ∃ words : List String, words.length = n ∧ input.items = words.map .ok ++ rest.items

theorem drops_zero (input : Input) : Drops 0 input input := ⟨rfl, [], rfl, rfl⟩

theorem Drops.add {n k : Nat} {input mid rest : Input} (h : Drops n input mid)
    (h' : Drops k mid rest) : Drops (n + k) input rest := by
  obtain ⟨rfl, words, rfl, hw⟩ := h
  obtain ⟨rfl, more, rfl, hm⟩ := h'
  refine ⟨(drop_add _ _ _).symm, words ++ more, List.length_append, ?_⟩
  rw [hw, hm, List.map_append, List.append_assoc]

/-- An integer that was read is one word. -/
theorem drops_one {input rest : Input} {value : Int32} (h : input.readInt = (.ok value, rest)) :
    Drops 1 input rest := by
  rw [readInt_eq] at h
  obtain ⟨hvalue, rfl⟩ := Prod.mk.inj h
  cases hitems : input.items with
  | nil =>
    rw [hitems] at hvalue
    cases hvalue
  | cons item items =>
    cases item with
    | error message =>
      rw [hitems] at hvalue
      cases hvalue
    | ok word =>
      refine ⟨rfl, [word], rfl, ?_⟩
      rw [(next_eq input).2, hitems]
      rfl

end Input

/-! ## Runs that take words -/

namespace Run

variable {α β : Type}

/-- Whenever the run has a value, it has taken a number of words as described off its input. -/
def Consumes (run : Run α) (count : Nat → Prop) : Prop :=
  ∀ s a s', run s = .ok a s' → ∃ n, count n ∧ Input.Drops n s.input s'.input

section
variable {run : Run α} {next : α → Run β} {C D E : Nat → Prop}

theorem Consumes.bind (h : run.Consumes C) (hn : ∀ a, (next a).Consumes D)
    (hadd : ∀ n k, C n → D k → E (n + k)) : (run >>= next).Consumes E := by
  intro s b s' hr
  rcases he : run s with ⟨a, s₁⟩ | ⟨halt, s₁⟩
  · rw [bind_of_ok he] at hr
    obtain ⟨n, hcn, hdn⟩ := h s a s₁ he
    obtain ⟨k, hck, hdk⟩ := hn a s₁ b s' hr
    exact ⟨n + k, hadd n k hcn hck, hdn.add hdk⟩
  · rw [bind_of_error he] at hr
    cases hr

/-- What takes nothing counts for nothing in front of what follows. -/
theorem Consumes.bind_right (h : run.Consumes (0 = ·)) (hn : ∀ a, (next a).Consumes D) :
    (run >>= next).Consumes D :=
  h.bind hn fun n k hn hk => by
    subst hn
    rwa [Nat.zero_add]

/-- What takes nothing counts for nothing behind what was before. -/
theorem Consumes.bind_left (h : run.Consumes C) (hn : ∀ a, (next a).Consumes (0 = ·)) :
    (run >>= next).Consumes C :=
  h.bind hn fun n k hn hk => by
    subst hk
    exact hn

theorem Consumes.imp (h : run.Consumes C) (hi : ∀ n, C n → D n) : run.Consumes D := fun s a s' hr =>
  let ⟨n, hc, hd⟩ := h s a s' hr
  ⟨n, hi n hc, hd⟩

theorem consumes_throw {halt : Halt} : (throw halt : Run α).Consumes C := fun _ _ _ h => nomatch h

theorem consumes_fault {cause : Fault.Cause} {span : Option Span} :
    (fault cause span : Run α).Consumes C := consumes_throw

theorem consumes_pure {a : α} (h : C 0) : (pure a : Run α).Consumes C := by
  rintro s b s' hr
  cases hr
  exact ⟨0, h, Input.drops_zero _⟩

theorem consumes_lookup {scope : ScopeId} {name : Name} (h : C 0) :
    (lookup scope name).Consumes C := by
  rintro s b s' hr
  cases hr
  exact ⟨0, h, Input.drops_zero _⟩

theorem consumes_store {scope : ScopeId} {name : Name} {value : Int32} (h : C 0) :
    (store scope name value).Consumes C := by
  rintro s b s' hr
  cases hr
  exact ⟨0, h, Input.drops_zero _⟩

theorem consumes_readInt {span : Span} (h : C 1) : (readInt span).Consumes C := by
  intro s a s' hr
  rcases hread : s.input.readInt with ⟨result | result, rest⟩
  · rw [readInt_of_error hread] at hr
    cases hr
  · rw [readInt_of_ok hread] at hr
    cases hr
    exact ⟨1, h, Input.drops_one hread⟩

theorem consumes_found_bind {o : Option α} (h : ∀ a, o = some a → (next a).Consumes D) :
    (found o >>= next).Consumes D := by
  cases o with
  | none => exact fun _ _ _ hr => nomatch hr
  | some a => exact h a rfl

theorem Consumes.orSpan {span : Span} (h : run.Consumes C) : (orSpan span run).Consumes C := by
  intro s a s' hr
  unfold Run.orSpan at hr
  split at hr
  · cases hr
  · exact h s a s' hr

end

end Run

/-! ## Evaluations -/

namespace Machine

open Run

/-- What the evaluations take with some fuel: as many words as their nodes say. -/
structure Counts (m : Machine) (fuel : Nat) : Prop where
  evalExpr (depth : Nat) (id : ExprId) : (m.evalExpr fuel depth id).Consumes (m.module.Takes id)
  call (depth : Nat) (id : FunctionId) (args : Slice) :
    (m.call fuel depth id args).Consumes (m.module.TakesShape (.call id args))
  bindArgs (depth : Nat) (scope : ScopeId) {params : List Name} {args : List ExprId}
    (h : args.length = params.length) :
    (m.bindArgs fuel depth scope (params.zip args)).Consumes (m.module.TakesAll args)

section
variable {m : Machine} {fuel : Nat}

theorem Counts.evalExpr_succ (h : m.Counts fuel) (depth : Nat) (id : ExprId) :
    (m.evalExpr (fuel + 1) depth id).Consumes (m.module.Takes id) := by
  refine consumes_found_bind fun node hnode => ?_
  suffices hs : Run.Consumes _ (m.module.TakesShape node.shape) from
    hs.imp fun n hn => .node hnode hn
  obtain ⟨shape, span⟩ := node
  cases shape with
  | int value => exact consumes_pure .int
  | var name scope => exact consumes_lookup .var
  | neg operand =>
    exact ((h.evalExpr depth operand).imp fun n hn => .neg hn).bind_left fun x => consumes_pure rfl
  | arith op left right =>
    refine (h.evalExpr depth left).bind (fun x => (h.evalExpr depth right).bind_left fun y => ?_)
      fun n k hn hk => .arith hn hk
    dsimp only
    cases op.apply x y with
    | none => exact consumes_fault
    | some value => exact consumes_pure rfl
  | read => exact consumes_readInt .read
  | call function args => exact (h.call depth function args).orSpan

theorem Counts.call_succ (h : m.Counts fuel) (depth : Nat) (id : FunctionId) (args : Slice) :
    (m.call (fuel + 1) depth id args).Consumes (m.module.TakesShape (.call id args)) := by
  unfold Machine.call
  cases hf : m.module.functions.get? id with
  | none => exact consumes_fault
  | some f =>
    dsimp only
    cases hb : f.body with
    | none => exact consumes_fault
    | some body =>
      refine consumes_found_bind fun ids hids => ?_
      split
      · exact consumes_fault
      · next harity =>
        refine (h.bindArgs depth f.scope (Decidable.not_not.mp harity)).bind (fun _ => ?_)
          fun n k hn hk => .call hf hb hids hn hk
        split
        · exact h.evalExpr (depth + 1) body
        · exact consumes_fault

theorem Counts.bindArgs_succ (h : m.Counts fuel) (depth : Nat) (scope : ScopeId)
    {params : List Name} {args : List ExprId} (hlen : args.length = params.length) :
    (m.bindArgs (fuel + 1) depth scope (params.zip args)).Consumes (m.module.TakesAll args) := by
  cases args with
  | nil =>
    rw [List.zip_nil_right]
    exact consumes_pure .nil
  | cons arg args =>
    obtain ⟨param, params, rfl⟩ := List.exists_cons_of_length_eq_add_one hlen.symm
    rw [List.zip_cons_cons]
    exact (h.evalExpr depth arg).bind
      (fun value => (consumes_store rfl).bind_right fun _ =>
        h.bindArgs depth scope (Nat.succ.inj hlen))
      fun n k hn hk => .cons hn hk

end

theorem counts (m : Machine) (fuel : Nat) : m.Counts fuel := by
  induction fuel with
  | zero =>
    exact ⟨fun _ _ => consumes_throw, fun _ _ _ => consumes_throw, fun _ _ _ _ _ => consumes_throw⟩
  | succ fuel ih => exact ⟨ih.evalExpr_succ, ih.call_succ, ih.bindArgs_succ⟩

theorem evalPred_consumes (m : Machine) (fuel : Nat) (id : PredId) :
    (m.evalPred fuel id).Consumes (m.module.TakesPred id) := by
  induction fuel generalizing id with
  | zero => exact consumes_throw
  | succ fuel ih =>
    refine consumes_found_bind fun node hnode => ?_
    suffices hs : Run.Consumes _ (m.module.TakesPredShape node.shape) from
      hs.imp fun n hn => .node hnode hn
    obtain ⟨shape, span⟩ := node
    cases shape with
    | lit value => exact consumes_pure .lit
    | not operand =>
      exact ((ih operand).imp fun n hn => .not hn).bind_left fun x => consumes_pure rfl
    | logic op left right =>
      exact (ih left).bind (fun x => (ih right).bind_left fun y => consumes_pure rfl)
        fun n k hn hk => .logic hn hk
    | rel op left right =>
      exact ((m.counts fuel).evalExpr 0 left).bind
        (fun x => ((m.counts fuel).evalExpr 0 right).bind_left fun y => consumes_pure rfl)
        fun n k hn hk => .rel hn hk

/-- In any module, an expression or a predicate with a value has taken off the front of the input
exactly the words that its node says, whatever the state was; and its node says one number. -/
theorem takes_of_ok (m : Machine) (fuel : Nat) (s s' : State) :
    (∀ (depth : Nat) (id : ExprId) (value : Int32), m.evalExpr fuel depth id s = .ok value s' →
      ∃ n, (∀ k, m.module.Takes id k ↔ k = n) ∧ Input.Drops n s.input s'.input) ∧
    ∀ (id : PredId) (value : Bool), m.evalPred fuel id s = .ok value s' →
      ∃ n, (∀ k, m.module.TakesPred id k ↔ k = n) ∧ Input.Drops n s.input s'.input := by
  refine ⟨fun depth id value h => ?expr, fun id value h => ?pred⟩
  case expr =>
    obtain ⟨n, hn, hdrops⟩ := (m.counts fuel).evalExpr depth id s value s' h
    exact ⟨n, fun k => ⟨fun hk => hk.unique hn, fun hk => hk ▸ hn⟩, hdrops⟩
  case pred =>
    obtain ⟨n, hn, hdrops⟩ := m.evalPred_consumes fuel id s value s' h
    exact ⟨n, fun k => ⟨fun hk => hk.unique hn, fun hk => hk ▸ hn⟩, hdrops⟩

end Machine

/-- A test whose left side is false, and whose right side reads in a function too. -/
def Module.readingTest : String :=
  "def f(n) = n + leia; se falso e leia = f(leia) entao skip senao skip"

/-- The program of `readingTest`. -/
def Module.readingTestProgram : Program :=
  [.declare ⟨⟨1⟩, [⟨2⟩], .arith .add (.var ⟨2⟩ ⟨11, 12⟩) (.read ⟨15, 19⟩) ⟨11, 19⟩, ⟨0, 10⟩⟩,
    .command (.cond
      (.logic .and (.lit false ⟨24, 29⟩)
        (.rel .eq (.read ⟨32, 36⟩) (.call ⟨0⟩ [.read ⟨41, 45⟩] ⟨39, 46⟩) ⟨32, 46⟩) ⟨24, 46⟩)
      (.skip ⟨53, 57⟩) [] (.skip ⟨64, 68⟩) ⟨21, 68⟩)]

/-- The right side reads three words all the same, and a fourth one is left. -/
theorem Machine.takes_of_ok_readingTest : ∃ (m : Module) (names : Names) (s' : State),
    Module.parse Module.readingTest .initial = (.ok m, names) ∧
    let s := Machine.start m ⟨["4", "5", "6", "7"], []⟩
    Machine.evalPred ⟨names, m, 10⟩ 20 ⟨2⟩ s = .ok false s' ∧ s'.input = ⟨["7"], []⟩ ∧
    (∀ k, m.TakesPred ⟨2⟩ k ↔ k = 3) ∧ Input.Drops 3 s.input s'.input := by
  have h : Module.parse Module.readingTest .initial =
      (.ok (.ofProgram Module.readingTestProgram), ⟨#["", "f", "n"]⟩) := by
    decide +kernel
  let machine : Machine := ⟨⟨#["", "f", "n"]⟩, .ofProgram Module.readingTestProgram, 10⟩
  have hshown : Run.shown (fun value s' => (value, s'.input)) (machine.evalPred 20 ⟨2⟩
      (Machine.start machine.module ⟨["4", "5", "6", "7"], []⟩)) = some (false, ⟨["7"], []⟩) := by
    decide +kernel
  obtain ⟨_, s', hs', hlook⟩ := Run.exists_of_shown hshown
  obtain ⟨rfl, hinput⟩ := Prod.mk.inj hlook
  obtain ⟨n, hcount, hdrops⟩ := (Machine.takes_of_ok machine 20 _ s').2 ⟨2⟩ false hs'
  obtain rfl : n = 3 := by
    obtain ⟨-, words, rfl, hitems⟩ := hdrops
    rw [hinput] at hitems
    have hlength := congrArg List.length hitems
    rw [List.length_append, List.length_map] at hlength
    exact (Nat.succ.inj hlength).symm
  exact ⟨_, _, s', h, hs', hinput, hcount, hdrops⟩

end Enquanto

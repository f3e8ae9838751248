import Enquanto.Machine
import Enquanto.Proofs.ModuleLayout

/-!
# The meaning of programs

What a program does, said on its trees by rules and without fuel. A judgement relates a tree and a
state to how the tree ends there, with a result or with a fault, and to the state in which it ends.

* `Evaluates` and `Binds` give the value of an expression and bind the arguments of a call. Operands
  are evaluated from left to right, and always both; an argument is stored before the next one is
  evaluated, in the one frame that all calls of the function share; only then is the number of open
  calls checked, and the body evaluated;
* `Decides` gives the truth of a predicate, of which both sides are always evaluated too;
* `Executes` runs a command, or what is left of one. A fault ends a run at once, and what was done
  before it stays;
* `Diverges` says that a command never ends. It is coinductive: it stands for an endless chain of
  work that waits for other work, while the derivations of all else are finite.
-/

namespace Enquanto

/-- What stays the same in a run: the strings of names, the program with its functions, and the
greatest number of calls that may be open at once. -/
structure Setting where
  names : Names
  program : Program
  maxDepth : Nat

namespace State

/-- The state with a variable stored. -/
def store (s : State) (scope : ScopeId) (name : Name) (value : Int32) : State :=
  { s with env := s.env.store scope name value }

/-- The state with a line printed. -/
def print (s : State) (line : String) : State :=
  { s with output := Output.withLine s.output line }

/-- The state with another input. -/
def withInput (s : State) (input : Input) : State := { s with input }

end State

/-! ## Expressions -/

/-- The scope of a function. Scope 0 is the root. -/
def FunctionId.scope (f : FunctionId) : ScopeId := ⟨f.index + 1⟩

theorem FunctionId.scope_ne_root (f : FunctionId) : f.scope ≠ .root :=
  fun e => Nat.succ_ne_zero f.index (congrArg TableId.index e)

theorem FunctionId.scope_injective {f g : FunctionId} (h : f.scope = g.scope) : f = g :=
  congrArg TableId.mk (Nat.succ.inj (congrArg TableId.index h))

mutual

/-- Inside `depth` open calls, with its variables in `scope`, the expression leads from one state to
a value or a fault in another. -/
inductive Evaluates (w : Setting) :
    (depth : Nat) → (scope : ScopeId) → Expr → State → Except Fault Int32 → State → Prop
  | int {depth : Nat} {scope : ScopeId} {value : Int32} {span : Span} {s : State} :
    Evaluates w depth scope (.int value span) s (.ok value) s
  | var {depth : Nat} {scope : ScopeId} {name : Name} {span : Span} {s : State} :
    Evaluates w depth scope (.var name span) s (.ok (s.env.lookup scope name)) s
  | neg {depth : Nat} {scope : ScopeId} {e : Expr} {span : Span} {s s' : State} {value : Int32} :
    Evaluates w depth scope e s (.ok value) s' →
    Evaluates w depth scope (.neg e span) s (.ok (-value)) s'
  | neg_fault {depth : Nat} {scope : ScopeId} {e : Expr} {span : Span} {s s' : State} {f : Fault} :
    Evaluates w depth scope e s (.error f) s' →
    Evaluates w depth scope (.neg e span) s (.error f) s'
  | arith {depth : Nat} {scope : ScopeId} {op : ArithOp} {l r : Expr} {span : Span}
      {s s₁ s₂ : State} {x y value : Int32} :
    Evaluates w depth scope l s (.ok x) s₁ → Evaluates w depth scope r s₁ (.ok y) s₂ →
    op.apply x y = some value →
    Evaluates w depth scope (.arith op l r span) s (.ok value) s₂
  | arith_undefined {depth : Nat} {scope : ScopeId} {op : ArithOp} {l r : Expr} {span : Span}
      {s s₁ s₂ : State} {x y : Int32} :
    Evaluates w depth scope l s (.ok x) s₁ → Evaluates w depth scope r s₁ (.ok y) s₂ →
    op.apply x y = none →
    Evaluates w depth scope (.arith op l r span) s (.error ⟨.divisionByZero, some span⟩) s₂
  | arith_left {depth : Nat} {scope : ScopeId} {op : ArithOp} {l r : Expr} {span : Span}
      {s s' : State} {f : Fault} :
    Evaluates w depth scope l s (.error f) s' →
    Evaluates w depth scope (.arith op l r span) s (.error f) s'
  | arith_right {depth : Nat} {scope : ScopeId} {op : ArithOp} {l r : Expr} {span : Span}
      {s s₁ s₂ : State} {x : Int32} {f : Fault} :
    Evaluates w depth scope l s (.ok x) s₁ → Evaluates w depth scope r s₁ (.error f) s₂ →
    Evaluates w depth scope (.arith op l r span) s (.error f) s₂
  | read {depth : Nat} {scope : ScopeId} {span : Span} {s : State} {value : Int32}
      {input : Input} :
    s.input.readInt = (.ok value, input) →
    Evaluates w depth scope (.read span) s (.ok value) (s.withInput input)
  | read_fault {depth : Nat} {scope : ScopeId} {span : Span} {s : State} {error : ReadError}
      {input : Input} :
    s.input.readInt = (.error error, input) →
    Evaluates w depth scope (.read span) s (.error ⟨.read error, some span⟩) (s.withInput input)
  | call {depth : Nat} {scope : ScopeId} {function : FunctionId} {args : List Expr} {span : Span}
      {d : Declaration} {s s₁ s₂ : State} {result : Except Fault Int32} :
    w.program.declarations[function.index]? = some d → args.length = d.params.length →
    Binds w depth scope function.scope (d.params.zip args) s (.ok ()) s₁ →
    depth < w.maxDepth →
    Evaluates w (depth + 1) function.scope d.body s₁ result s₂ →
    Evaluates w depth scope (.call function args span) s result s₂
  | call_limit {depth : Nat} {scope : ScopeId} {function : FunctionId} {args : List Expr}
      {span : Span} {d : Declaration} {s s' : State} :
    w.program.declarations[function.index]? = some d → args.length = d.params.length →
    Binds w depth scope function.scope (d.params.zip args) s (.ok ()) s' →
    ¬ depth < w.maxDepth →
    Evaluates w depth scope (.call function args span) s
      (.error ⟨.stackOverflow w.maxDepth, some span⟩) s'
  | call_args {depth : Nat} {scope : ScopeId} {function : FunctionId} {args : List Expr}
      {span : Span} {d : Declaration} {s s' : State} {f : Fault} :
    w.program.declarations[function.index]? = some d → args.length = d.params.length →
    Binds w depth scope function.scope (d.params.zip args) s (.error f) s' →
    Evaluates w depth scope (.call function args span) s (.error f) s'

/-- The arguments are evaluated one after the other, and each value is stored for its parameter, in
the scope of the callee, before the next one is evaluated. -/
inductive Binds (w : Setting) : (depth : Nat) → (scope callee : ScopeId) → List (Name × Expr) →
    State → Except Fault Unit → State → Prop
  | nil {depth : Nat} {scope callee : ScopeId} {s : State} :
    Binds w depth scope callee [] s (.ok ()) s
  | cons {depth : Nat} {scope callee : ScopeId} {param : Name} {arg : Expr}
      {rest : List (Name × Expr)} {s s₁ s₂ : State} {value : Int32} {result : Except Fault Unit} :
    Evaluates w depth scope arg s (.ok value) s₁ →
    Binds w depth scope callee rest (s₁.store callee param value) result s₂ →
    Binds w depth scope callee ((param, arg) :: rest) s result s₂
  | fault {depth : Nat} {scope callee : ScopeId} {param : Name} {arg : Expr}
      {rest : List (Name × Expr)} {s s' : State} {f : Fault} :
    Evaluates w depth scope arg s (.error f) s' →
    Binds w depth scope callee ((param, arg) :: rest) s (.error f) s'

end

/-! ## Predicates -/

/-- With its variables in `scope`, the predicate leads from one state to a truth value or a fault in
another. -/
inductive Decides (w : Setting) (scope : ScopeId) :
    Pred → State → Except Fault Bool → State → Prop
  | lit {value : Bool} {span : Span} {s : State} : Decides w scope (.lit value span) s (.ok value) s
  | not {p : Pred} {span : Span} {s s' : State} {value : Bool} :
    Decides w scope p s (.ok value) s' → Decides w scope (.not p span) s (.ok !value) s'
  | not_fault {p : Pred} {span : Span} {s s' : State} {f : Fault} :
    Decides w scope p s (.error f) s' → Decides w scope (.not p span) s (.error f) s'
  | logic {op : LogicOp} {l r : Pred} {span : Span} {s s₁ s₂ : State} {x y : Bool} :
    Decides w scope l s (.ok x) s₁ → Decides w scope r s₁ (.ok y) s₂ →
    Decides w scope (.logic op l r span) s (.ok (op.apply x y)) s₂
  | logic_left {op : LogicOp} {l r : Pred} {span : Span} {s s' : State} {f : Fault} :
    Decides w scope l s (.error f) s' → Decides w scope (.logic op l r span) s (.error f) s'
  | logic_right {op : LogicOp} {l r : Pred} {span : Span} {s s₁ s₂ : State} {x : Bool}
      {f : Fault} :
    Decides w scope l s (.ok x) s₁ → Decides w scope r s₁ (.error f) s₂ →
    Decides w scope (.logic op l r span) s (.error f) s₂
  | rel {op : RelOp} {l r : Expr} {span : Span} {s s₁ s₂ : State} {x y : Int32} :
    Evaluates w 0 scope l s (.ok x) s₁ → Evaluates w 0 scope r s₁ (.ok y) s₂ →
    Decides w scope (.rel op l r span) s (.ok (op.apply x y)) s₂
  | rel_left {op : RelOp} {l r : Expr} {span : Span} {s s' : State} {f : Fault} :
    Evaluates w 0 scope l s (.error f) s' → Decides w scope (.rel op l r span) s (.error f) s'
  | rel_right {op : RelOp} {l r : Expr} {span : Span} {s s₁ s₂ : State} {x : Int32} {f : Fault} :
    Evaluates w 0 scope l s (.ok x) s₁ → Evaluates w 0 scope r s₁ (.error f) s₂ →
    Decides w scope (.rel op l r span) s (.error f) s₂

/-! ## Commands -/

/-- What is to be run: a command, or what is left of one. -/
inductive Work where
  | command (command : Command)
  /-- The commands of a block that are still to come. -/
  | sequence (body : List Command)
  /-- The branches of a conditional that are still to be tested. -/
  | choice (branches : List (Pred × Command)) (last : Command)
  /-- The turns of a counting loop that has passed its test. -/
  | turns (var : Name) (stop step : Expr) (body : Command)

/-- With its variables in `scope`, the work leads from one state to its end, or to a fault, in
another. -/
inductive Executes (w : Setting) (scope : ScopeId) :
    Work → State → Except Fault Unit → State → Prop
  | skip {span : Span} {s : State} : Executes w scope (.command (.skip span)) s (.ok ()) s
  | assign {target : Name} {e : Expr} {span : Span} {s s' : State} {value : Int32} :
    Evaluates w 0 scope e s (.ok value) s' →
    Executes w scope (.command (.assign target e span)) s (.ok ()) (s'.store scope target value)
  | assign_fault {target : Name} {e : Expr} {span : Span} {s s' : State} {f : Fault} :
    Evaluates w 0 scope e s (.error f) s' →
    Executes w scope (.command (.assign target e span)) s (.error f) s'
  | printInt {e : Expr} {span : Span} {s s' : State} {value : Int32} :
    Evaluates w 0 scope e s (.ok value) s' →
    Executes w scope (.command (.printInt e span)) s (.ok ()) (s'.print (Decimal.text value))
  | printInt_fault {e : Expr} {span : Span} {s s' : State} {f : Fault} :
    Evaluates w 0 scope e s (.error f) s' →
    Executes w scope (.command (.printInt e span)) s (.error f) s'
  | printText {text : Name} {span : Span} {s : State} :
    Executes w scope (.command (.printText text span)) s (.ok ()) (s.print (w.names.text text))
  -- A block runs its commands in order.
  | block {body : List Command} {span : Span} {s s' : State} {result : Except Fault Unit} :
    Executes w scope (.sequence body) s result s' →
    Executes w scope (.command (.block body span)) s result s'
  | sequence_nil {s : State} : Executes w scope (.sequence []) s (.ok ()) s
  | sequence_cons {c : Command} {rest : List Command} {s s₁ s₂ : State}
      {result : Except Fault Unit} :
    Executes w scope (.command c) s (.ok ()) s₁ → Executes w scope (.sequence rest) s₁ result s₂ →
    Executes w scope (.sequence (c :: rest)) s result s₂
  | sequence_fault {c : Command} {rest : List Command} {s s' : State} {f : Fault} :
    Executes w scope (.command c) s (.error f) s' →
    Executes w scope (.sequence (c :: rest)) s (.error f) s'
  -- A conditional runs the first branch whose test holds; later tests are not evaluated.
  | cond {test : Pred} {body last : Command} {others : List (Pred × Command)} {span : Span}
      {s s' : State} {result : Except Fault Unit} :
    Executes w scope (.choice ((test, body) :: others) last) s result s' →
    Executes w scope (.command (.cond test body others last span)) s result s'
  | choice_last {last : Command} {s s' : State} {result : Except Fault Unit} :
    Executes w scope (.command last) s result s' → Executes w scope (.choice [] last) s result s'
  | choice_taken {test : Pred} {body last : Command} {others : List (Pred × Command)}
      {s s₁ s₂ : State} {result : Except Fault Unit} :
    Decides w scope test s (.ok true) s₁ → Executes w scope (.command body) s₁ result s₂ →
    Executes w scope (.choice ((test, body) :: others) last) s result s₂
  | choice_passed {test : Pred} {body last : Command} {others : List (Pred × Command)}
      {s s₁ s₂ : State} {result : Except Fault Unit} :
    Decides w scope test s (.ok false) s₁ → Executes w scope (.choice others last) s₁ result s₂ →
    Executes w scope (.choice ((test, body) :: others) last) s result s₂
  | choice_fault {test : Pred} {body last : Command} {others : List (Pred × Command)}
      {s s' : State} {f : Fault} :
    Decides w scope test s (.error f) s' →
    Executes w scope (.choice ((test, body) :: others) last) s (.error f) s'
  -- A loop tests before each turn.
  | loop_done {test : Pred} {body : Command} {span : Span} {s s' : State} :
    Decides w scope test s (.ok false) s' →
    Executes w scope (.command (.loop test body span)) s (.ok ()) s'
  | loop_turn {test : Pred} {body : Command} {span : Span} {s s₁ s₂ s₃ : State}
      {result : Except Fault Unit} :
    Decides w scope test s (.ok true) s₁ → Executes w scope (.command body) s₁ (.ok ()) s₂ →
    Executes w scope (.command (.loop test body span)) s₂ result s₃ →
    Executes w scope (.command (.loop test body span)) s result s₃
  | loop_fault {test : Pred} {body : Command} {span : Span} {s s' : State} {f : Fault} :
    Decides w scope test s (.error f) s' →
    Executes w scope (.command (.loop test body span)) s (.error f) s'
  | loop_body {test : Pred} {body : Command} {span : Span} {s s₁ s₂ : State} {f : Fault} :
    Decides w scope test s (.ok true) s₁ → Executes w scope (.command body) s₁ (.error f) s₂ →
    Executes w scope (.command (.loop test body span)) s (.error f) s₂
  -- A counting loop stores its first value, and tests it against the bound.
  | count_none {var : Name} {start stop step : Expr} {body : Command} {span : Span}
      {s s₁ s₂ : State} {first bound : Int32} :
    Evaluates w 0 scope start s (.ok first) s₁ →
    Evaluates w 0 scope stop (s₁.store scope var first) (.ok bound) s₂ → ¬ first ≤ bound →
    Executes w scope (.command (.count var start stop step body span)) s (.ok ()) s₂
  | count_some {var : Name} {start stop step : Expr} {body : Command} {span : Span}
      {s s₁ s₂ s₃ : State} {first bound : Int32} {result : Except Fault Unit} :
    Evaluates w 0 scope start s (.ok first) s₁ →
    Evaluates w 0 scope stop (s₁.store scope var first) (.ok bound) s₂ → first ≤ bound →
    Executes w scope (.turns var stop step body) s₂ result s₃ →
    Executes w scope (.command (.count var start stop step body span)) s result s₃
  | count_start {var : Name} {start stop step : Expr} {body : Command} {span : Span}
      {s s' : State} {f : Fault} :
    Evaluates w 0 scope start s (.error f) s' →
    Executes w scope (.command (.count var start stop step body span)) s (.error f) s'
  | count_stop {var : Name} {start stop step : Expr} {body : Command} {span : Span}
      {s s₁ s₂ : State} {first : Int32} {f : Fault} :
    Evaluates w 0 scope start s (.ok first) s₁ →
    Evaluates w 0 scope stop (s₁.store scope var first) (.error f) s₂ →
    Executes w scope (.command (.count var start stop step body span)) s (.error f) s₂
  -- A turn advances from the value that the variable has after the body. The new value is stored
  -- only if it is a value at all and passes the test.
  | turns_overflow {var : Name} {stop step : Expr} {body : Command} {s s₁ s₂ : State}
      {amount : Int32} :
    Executes w scope (.command body) s (.ok ()) s₁ → Evaluates w 0 scope step s₁ (.ok amount) s₂ →
    (∀ next : Int32, next.toInt ≠ (s₁.env.lookup scope var).toInt + amount.toInt) →
    Executes w scope (.turns var stop step body) s (.ok ()) s₂
  | turns_done {var : Name} {stop step : Expr} {body : Command} {s s₁ s₂ s₃ : State}
      {amount next bound : Int32} :
    Executes w scope (.command body) s (.ok ()) s₁ → Evaluates w 0 scope step s₁ (.ok amount) s₂ →
    next.toInt = (s₁.env.lookup scope var).toInt + amount.toInt →
    Evaluates w 0 scope stop s₂ (.ok bound) s₃ → ¬ next ≤ bound →
    Executes w scope (.turns var stop step body) s (.ok ()) s₃
  | turns_next {var : Name} {stop step : Expr} {body : Command} {s s₁ s₂ s₃ s₄ : State}
      {amount next bound : Int32} {result : Except Fault Unit} :
    Executes w scope (.command body) s (.ok ()) s₁ → Evaluates w 0 scope step s₁ (.ok amount) s₂ →
    next.toInt = (s₁.env.lookup scope var).toInt + amount.toInt →
    Evaluates w 0 scope stop s₂ (.ok bound) s₃ → next ≤ bound →
    Executes w scope (.turns var stop step body) (s₃.store scope var next) result s₄ →
    Executes w scope (.turns var stop step body) s result s₄
  | turns_body {var : Name} {stop step : Expr} {body : Command} {s s' : State} {f : Fault} :
    Executes w scope (.command body) s (.error f) s' →
    Executes w scope (.turns var stop step body) s (.error f) s'
  | turns_step {var : Name} {stop step : Expr} {body : Command} {s s₁ s₂ : State} {f : Fault} :
    Executes w scope (.command body) s (.ok ()) s₁ → Evaluates w 0 scope step s₁ (.error f) s₂ →
    Executes w scope (.turns var stop step body) s (.error f) s₂
  | turns_stop {var : Name} {stop step : Expr} {body : Command} {s s₁ s₂ s₃ : State}
      {amount next : Int32} {f : Fault} :
    Executes w scope (.command body) s (.ok ()) s₁ → Evaluates w 0 scope step s₁ (.ok amount) s₂ →
    next.toInt = (s₁.env.lookup scope var).toInt + amount.toInt →
    Evaluates w 0 scope stop s₂ (.error f) s₃ →
    Executes w scope (.turns var stop step body) s (.error f) s₃
  -- A choice evaluates its selector once and runs the first case that is equal to it.
  | switch_case {selector : Expr} {cases before after : List (Int32 × Command)}
      {c default : Command} {span : Span} {s s₁ s₂ : State} {value : Int32}
      {result : Except Fault Unit} :
    Evaluates w 0 scope selector s (.ok value) s₁ → cases = before ++ (value, c) :: after →
    (∀ label ∈ before, label.1 ≠ value) → Executes w scope (.command c) s₁ result s₂ →
    Executes w scope (.command (.switch selector cases default span)) s result s₂
  | switch_default {selector : Expr} {cases : List (Int32 × Command)} {default : Command}
      {span : Span} {s s₁ s₂ : State} {value : Int32} {result : Except Fault Unit} :
    Evaluates w 0 scope selector s (.ok value) s₁ → (∀ label ∈ cases, label.1 ≠ value) →
    Executes w scope (.command default) s₁ result s₂ →
    Executes w scope (.command (.switch selector cases default span)) s result s₂
  | switch_fault {selector : Expr} {cases : List (Int32 × Command)} {default : Command}
      {span : Span} {s s' : State} {f : Fault} :
    Evaluates w 0 scope selector s (.error f) s' →
    Executes w scope (.command (.switch selector cases default span)) s (.error f) s'

/-! ## Divergence -/

/-- With its variables in `scope`, the first work cannot end in its state unless the second one ends
in its own. -/
inductive Awaits (w : Setting) (scope : ScopeId) : Work → State → Work → State → Prop
  | block {body : List Command} {span : Span} {s : State} :
    Awaits w scope (.command (.block body span)) s (.sequence body) s
  | sequence_first {c : Command} {rest : List Command} {s : State} :
    Awaits w scope (.sequence (c :: rest)) s (.command c) s
  | sequence_later {c : Command} {rest : List Command} {s s' : State} :
    Executes w scope (.command c) s (.ok ()) s' →
    Awaits w scope (.sequence (c :: rest)) s (.sequence rest) s'
  | cond {test : Pred} {body last : Command} {others : List (Pred × Command)} {span : Span}
      {s : State} :
    Awaits w scope (.command (.cond test body others last span)) s
      (.choice ((test, body) :: others) last) s
  | choice_last {last : Command} {s : State} :
    Awaits w scope (.choice [] last) s (.command last) s
  | choice_taken {test : Pred} {body last : Command} {others : List (Pred × Command)}
      {s s' : State} :
    Decides w scope test s (.ok true) s' →
    Awaits w scope (.choice ((test, body) :: others) last) s (.command body) s'
  | choice_passed {test : Pred} {body last : Command} {others : List (Pred × Command)}
      {s s' : State} :
    Decides w scope test s (.ok false) s' →
    Awaits w scope (.choice ((test, body) :: others) last) s (.choice others last) s'
  | loop_body {test : Pred} {body : Command} {span : Span} {s s' : State} :
    Decides w scope test s (.ok true) s' →
    Awaits w scope (.command (.loop test body span)) s (.command body) s'
  | loop_turn {test : Pred} {body : Command} {span : Span} {s s₁ s₂ : State} :
    Decides w scope test s (.ok true) s₁ → Executes w scope (.command body) s₁ (.ok ()) s₂ →
    Awaits w scope (.command (.loop test body span)) s (.command (.loop test body span)) s₂
  | count {var : Name} {start stop step : Expr} {body : Command} {span : Span} {s s₁ s₂ : State}
      {first bound : Int32} :
    Evaluates w 0 scope start s (.ok first) s₁ →
    Evaluates w 0 scope stop (s₁.store scope var first) (.ok bound) s₂ → first ≤ bound →
    Awaits w scope (.command (.count var start stop step body span)) s
      (.turns var stop step body) s₂
  | turns_body {var : Name} {stop step : Expr} {body : Command} {s : State} :
    Awaits w scope (.turns var stop step body) s (.command body) s
  | turns_next {var : Name} {stop step : Expr} {body : Command} {s s₁ s₂ s₃ : State}
      {amount next bound : Int32} :
    Executes w scope (.command body) s (.ok ()) s₁ → Evaluates w 0 scope step s₁ (.ok amount) s₂ →
    next.toInt = (s₁.env.lookup scope var).toInt + amount.toInt →
    Evaluates w 0 scope stop s₂ (.ok bound) s₃ → next ≤ bound →
    Awaits w scope (.turns var stop step body) s (.turns var stop step body)
      (s₃.store scope var next)
  | switch_case {selector : Expr} {cases before after : List (Int32 × Command)}
      {c default : Command} {span : Span} {s s' : State} {value : Int32} :
    Evaluates w 0 scope selector s (.ok value) s' → cases = before ++ (value, c) :: after →
    (∀ label ∈ before, label.1 ≠ value) →
    Awaits w scope (.command (.switch selector cases default span)) s (.command c) s'
  | switch_default {selector : Expr} {cases : List (Int32 × Command)} {default : Command}
      {span : Span} {s s' : State} {value : Int32} :
    Evaluates w 0 scope selector s (.ok value) s' → (∀ label ∈ cases, label.1 ≠ value) →
    Awaits w scope (.command (.switch selector cases default span)) s (.command default) s'

/-- With its variables in `scope`, the work never ends: it waits for work that never ends. -/
coinductive Diverges (w : Setting) (scope : ScopeId) : Work → State → Prop
  | awaits {work work' : Work} {s s' : State} :
    Awaits w scope work s work' s' → Diverges w scope work' s' → Diverges w scope work s

end Enquanto

import Enquanto.Proofs.Semantics

/-!
# Calls with frames of their own

An interpreter that runs the trees of a program with ordinary calls. All arguments of a call are
evaluated from left to right where the call stands; then the number of open calls is checked, and
the body is evaluated in a fresh frame that holds the parameters only. Global variables, the input
and the output are kept in a state, of which no frame but the root is used.

All else is as on the machine: operands are evaluated from left to right and always both, and a run
is given fuel in the same way.

* `Reference.evalExpr` and `Reference.call`: expressions and calls, with the variables of the frame
  at hand;
* `Reference.perform`: commands, and what is left of them;
* `Reference.run`: programs.
-/

namespace Enquanto

namespace Reference

open Run

/-- The frame of a call: its parameters with their values. The last one of a name counts. -/
def frame (params : List Name) (values : List Int32) : List (Name × Int32) :=
  (params.zip values).reverse

/-- The value of a variable: that in the frame, or else that of the global variable. -/
def lookup (locals : List (Name × Int32)) (name : Name) : Run Int32 :=
  match locals.lookup name with
  | some value => return value
  | none => Run.lookup .root name

/-! ## Expressions -/

mutual

/-- The value of an expression inside `depth` open calls. -/
def evalExpr (w : Setting) (fuel depth : Nat) (locals : List (Name × Int32)) (e : Expr) :
    Run Int32 :=
  match fuel with
  | 0 => throw .outOfFuel
  | fuel + 1 =>
    match e with
    | .int value _ => return value
    | .var name _ => lookup locals name
    | .neg operand _ => return -(← evalExpr w fuel depth locals operand)
    | .arith op left right span => do
      let x ← evalExpr w fuel depth locals left
      let y ← evalExpr w fuel depth locals right
      match op.apply x y with
      | some value => return value
      | none => fault .divisionByZero span
    | .read span => readInt span
    | .call function args span => orSpan span (call w fuel depth locals function args)
termination_by structural fuel

/-- The value of a call. -/
def call (w : Setting) (fuel depth : Nat) (locals : List (Name × Int32)) (function : FunctionId)
    (args : List Expr) : Run Int32 :=
  match fuel with
  | 0 => throw .outOfFuel
  | fuel + 1 =>
    match w.program.declarations[function.index]? with
    | none => fault (.undefinedFunction function)
    | some d =>
      if args.length ≠ d.params.length then
        fault (.arity ⟨w.names.text d.name, d.params.length, args.length⟩)
      else do
        let values ← evalArgs w fuel depth locals args
        if depth < w.maxDepth then evalExpr w fuel (depth + 1) (frame d.params values) d.body
        else fault (.stackOverflow w.maxDepth)
termination_by structural fuel

/-- The values of arguments. -/
def evalArgs (w : Setting) (fuel depth : Nat) (locals : List (Name × Int32))
    (args : List Expr) : Run (List Int32) :=
  match fuel with
  | 0 => throw .outOfFuel
  | fuel + 1 =>
    match args with
    | [] => return []
    | arg :: rest => do
      let value ← evalExpr w fuel depth locals arg
      let values ← evalArgs w fuel depth locals rest
      return value :: values
termination_by structural fuel

end

/-! ## Predicates and commands -/

/-- The truth of a predicate. -/
def evalPred (w : Setting) (fuel : Nat) (p : Pred) : Run Bool :=
  match fuel with
  | 0 => throw .outOfFuel
  | fuel + 1 =>
    match p with
    | .lit value _ => return value
    | .not operand _ => return !(← evalPred w fuel operand)
    | .logic op left right _ => do
      let x ← evalPred w fuel left
      let y ← evalPred w fuel right
      return op.apply x y
    | .rel op left right _ => do
      let x ← evalExpr w fuel 0 [] left
      let y ← evalExpr w fuel 0 [] right
      return op.apply x y

/-- Runs a command, or what is left of one. -/
def perform (w : Setting) (fuel : Nat) (work : Work) : Run Unit :=
  match fuel with
  | 0 => throw .outOfFuel
  | fuel + 1 =>
    match work with
    | .command (.skip _) => return
    | .command (.assign target value _) => do
      store .root target (← evalExpr w fuel 0 [] value)
    | .command (.block body _) => perform w fuel (.sequence body)
    | .command (.cond test body others last _) => do
      if ← evalPred w fuel test then perform w fuel (.command body)
      else perform w fuel (.choice others last)
    | .command (.loop test body span) => do
      if ← evalPred w fuel test then
        perform w fuel (.command body)
        perform w fuel (.command (.loop test body span))
    | .command (.count var start stop step body _) => do
      let first ← evalExpr w fuel 0 [] start
      store .root var first
      if first ≤ (← evalExpr w fuel 0 [] stop) then perform w fuel (.turns var stop step body)
    | .command (.switch selector cases default _) => do
      let value ← evalExpr w fuel 0 [] selector
      perform w fuel (.command ((cases.lookup value).getD default))
    | .command (.printInt value _) => do
      printLine (Decimal.text (← evalExpr w fuel 0 [] value))
    | .command (.printText text _) => printLine (w.names.text text)
    | .sequence [] => return
    | .sequence (c :: rest) => do
      perform w fuel (.command c)
      perform w fuel (.sequence rest)
    | .choice [] last => perform w fuel (.command last)
    | .choice ((test, body) :: rest) last => do
      if ← evalPred w fuel test then perform w fuel (.command body)
      else perform w fuel (.choice rest last)
    | .turns var stop step body => do
      perform w fuel (.command body)
      let current ← Run.lookup .root var
      match Machine.advance? current (← evalExpr w fuel 0 [] step) with
      | none => return
      | some next => do
        if next ≤ (← evalExpr w fuel 0 [] stop) then
          store .root var next
          perform w fuel (.turns var stop step body)

/-- Runs the commands of the program. -/
def run (w : Setting) (fuel : Nat) : Run Unit := perform w fuel (.sequence w.program.commands)

end Reference

end Enquanto

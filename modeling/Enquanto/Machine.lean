import Enquanto.Environment
import Enquanto.Fault

/-!
# The machine

A machine runs the commands of a module on a state: an environment, an input and the output so far.
A run that stops early keeps the state that it reached.

Programs may loop, so a run is given fuel, a bound on the depth of the evaluation in which every
turn of a loop counts as one more level. Running out of fuel is an outcome of its own, and no answer
depends on how much fuel was left.

* `Machine.evalExpr` and `Machine.evalPred` evaluate both sides of every operator, from left to
  right;
* a call stores each argument in the frame of the function as soon as it has its value, then checks
  the number of calls that are open, then evaluates the body; the frame is shared by all calls of
  the function;
* `Machine.exec` runs a command and `Machine.run` a program.
-/

namespace Enquanto

/-- What a machine runs: a module, the strings of its names, and the greatest number of calls that
may be open at once. -/
structure Machine where
  names : Names
  module : Module
  maxDepth : Nat

/-- An output with one more line. -/
def Output.withLine (output line : String) : String := output ++ line ++ "\n"

/-- What a run changes. -/
structure State where
  env : Environment
  input : Input
  output : String := ""

/-- Why a run has no result. -/
inductive Halt where
  | fault (fault : Fault)
  /-- An id or a slice of the module leads nowhere. -/
  | dangling
  | outOfFuel
  deriving DecidableEq, Repr

/-- A computation on a state, which keeps the state when it stops early. -/
abbrev Run := EStateM Halt State

namespace Run

variable {α : Type}

def fault (cause : Fault.Cause) (span : Option Span := none) : Run α :=
  throw (.fault ⟨cause, span⟩)

/-- What a look-up in a module found. -/
def found : Option α → Run α
  | some a => pure a
  | none => throw .dangling

/-- Gives a span to a fault that has none. -/
@[inline] def orSpan (span : Span) (run : Run α) : Run α := fun s =>
  match run s with
  | .error (.fault f) s => .error (.fault (f.orSpan span)) s
  | result => result

def lookup (scope : ScopeId) (name : Name) : Run Int32 := return (← get).env.lookup scope name

def store (scope : ScopeId) (name : Name) (value : Int32) : Run Unit :=
  modify fun s => { s with env := s.env.store scope name value }

/-- Prints a line. -/
def printLine (line : String) : Run Unit :=
  modify fun s => { s with output := Output.withLine s.output line }

/-- Reads an integer for the node at a span. -/
def readInt (span : Span) : Run Int32 := fun s =>
  match s.input.readInt with
  | (.ok value, input) => .ok value { s with input }
  | (.error e, input) => .error (.fault ⟨.read e, some span⟩) { s with input }

end Run

namespace Machine

open Run

/-! ## Expressions -/

mutual

/-- The value of an expression inside `depth` open calls. -/
def evalExpr (m : Machine) (fuel depth : Nat) (id : ExprId) : Run Int32 :=
  match fuel with
  | 0 => throw .outOfFuel
  | fuel + 1 => do
    let node ← found (m.module.arena.expr? id)
    match node.shape with
    | .int value => return value
    | .var name scope => lookup scope name
    | .neg operand => return -(← evalExpr m fuel depth operand)
    | .arith op left right => do
      let x ← evalExpr m fuel depth left
      let y ← evalExpr m fuel depth right
      match op.apply x y with
      | some value => return value
      | none => fault .divisionByZero node.span
    | .read => readInt node.span
    | .call function args => orSpan node.span (call m fuel depth function args)
termination_by structural fuel

/-- The value of a call. -/
def call (m : Machine) (fuel depth : Nat) (id : FunctionId) (args : Slice) : Run Int32 :=
  match fuel with
  | 0 => throw .outOfFuel
  | fuel + 1 =>
    match m.module.functions.get? id with
    | none => fault (.undefinedFunction id)
    | some f =>
      match f.body with
      | none => fault (.missingBody (m.names.text f.name))
      | some body => do
        let args ← found (m.module.arena.args? args)
        if args.length ≠ f.arity then
          fault (.arity ⟨m.names.text f.name, f.arity, args.length⟩)
        else
          bindArgs m fuel depth f.scope (f.params.zip args)
          if depth < m.maxDepth then evalExpr m fuel (depth + 1) body
          else fault (.stackOverflow m.maxDepth)
termination_by structural fuel

/-- Stores the values of arguments, each before the next is evaluated. -/
def bindArgs (m : Machine) (fuel depth : Nat) (scope : ScopeId) (args : List (Name × ExprId)) :
    Run Unit :=
  match fuel with
  | 0 => throw .outOfFuel
  | fuel + 1 =>
    match args with
    | [] => return
    | (param, arg) :: rest => do
      store scope param (← evalExpr m fuel depth arg)
      bindArgs m fuel depth scope rest
termination_by structural fuel

end

/-! ## Predicates -/

/-- The truth of a predicate. -/
def evalPred (m : Machine) (fuel : Nat) (id : PredId) : Run Bool :=
  match fuel with
  | 0 => throw .outOfFuel
  | fuel + 1 => do
    let node ← found (m.module.arena.pred? id)
    match node.shape with
    | .lit value => return value
    | .not operand => return !(← evalPred m fuel operand)
    | .logic op left right => do
      let x ← evalPred m fuel left
      let y ← evalPred m fuel right
      return op.apply x y
    | .rel op left right => do
      let x ← evalExpr m fuel 0 left
      let y ← evalExpr m fuel 0 right
      return op.apply x y

/-! ## Commands -/

/-- The next value of a counting loop, unless it overflows. -/
def advance? (current step : Int32) : Option Int32 := Decimal.fit? (current.toInt + step.toInt)

mutual

/-- Runs a command. -/
def exec (m : Machine) (fuel : Nat) (id : CommandId) : Run Unit :=
  match fuel with
  | 0 => throw .outOfFuel
  | fuel + 1 => do
    let node ← found (m.module.arena.command? id)
    match node.shape with
    | .skip => return
    | .assign target scope value => store scope target (← evalExpr m fuel 0 value)
    | .block body => execAll m fuel (← found (m.module.arena.body? body))
    | .cond test body others last => do
      if ← evalPred m fuel test then exec m fuel body
      else execFirst m fuel (← found (m.module.arena.branches? others)) last
    | .loop test body => do
      if ← evalPred m fuel test then
        exec m fuel body
        exec m fuel id
    | .count var scope start stop step body => do
      let first ← evalExpr m fuel 0 start
      store scope var first
      if first ≤ (← evalExpr m fuel 0 stop) then execCount m fuel var scope stop step body
    | .switch selector cases default => do
      let value ← evalExpr m fuel 0 selector
      let cases ← found (m.module.arena.cases? cases)
      exec m fuel ((cases.lookup value).getD default)
    | .printInt value => printLine (Decimal.text (← evalExpr m fuel 0 value))
    | .printText text => printLine (m.names.text text)
termination_by structural fuel

/-- Runs commands one after the other. -/
def execAll (m : Machine) (fuel : Nat) (body : List CommandId) : Run Unit :=
  match fuel with
  | 0 => throw .outOfFuel
  | fuel + 1 =>
    match body with
    | [] => return
    | id :: rest => do
      exec m fuel id
      execAll m fuel rest
termination_by structural fuel

/-- Runs the first branch whose test holds, or else the last command. -/
def execFirst (m : Machine) (fuel : Nat) (branches : List (PredId × CommandId))
    (last : CommandId) : Run Unit :=
  match fuel with
  | 0 => throw .outOfFuel
  | fuel + 1 =>
    match branches with
    | [] => exec m fuel last
    | (test, body) :: rest => do
      if ← evalPred m fuel test then exec m fuel body else execFirst m fuel rest last
termination_by structural fuel

/-- Runs the body of a counting loop, and goes on as long as the next value neither overflows nor
passes the bound. Only then is the variable moved. -/
def execCount (m : Machine) (fuel : Nat) (var : Name) (scope : ScopeId) (stop step : ExprId)
    (body : CommandId) : Run Unit :=
  match fuel with
  | 0 => throw .outOfFuel
  | fuel + 1 => do
    exec m fuel body
    let current ← lookup scope var
    match advance? current (← evalExpr m fuel 0 step) with
    | none => return
    | some next => do
      if next ≤ (← evalExpr m fuel 0 stop) then
        store scope var next
        execCount m fuel var scope stop step body
termination_by structural fuel

end

/-- Runs the top-level commands of the module. -/
def run (m : Machine) (fuel : Nat) : Run Unit := m.execAll fuel m.module.commands

end Machine

end Enquanto

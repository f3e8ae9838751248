import Enquanto.Module.Id
import Enquanto.Names
import Enquanto.Operator
import Enquanto.Span

/-!
# The arena of a module

The nodes of a module lie in three tables, for expressions, predicates and commands, and point to
each other by ids. What a node has any number of (the arguments of a call, the commands of a block,
the further branches of a conditional, the cases of a choice) lies in four tables of lists, as a
slice.

* `Arena.expr?` and its siblings look a node or a slice up; a module built by hand may lead
  nowhere;
* `Arena.addExpr` and its siblings append a node or a list and give its place;
* `Arena.mark` records the sizes of the tables, and `Arena.truncate` cuts them back to a mark.
-/

namespace Enquanto

/-- Something with its span. -/
structure Located (α : Type) where
  shape : α
  span : Span
  deriving DecidableEq, Repr

/-- An expression whose parts are ids. A variable carries the scope that it is looked up in. -/
inductive ExprNode where
  | int (value : Int32)
  | var (name : Name) (scope : ScopeId)
  | neg (operand : ExprId)
  | arith (op : ArithOp) (left right : ExprId)
  | read
  | call (function : FunctionId) (args : Slice)
  deriving DecidableEq, Repr

/-- A predicate whose parts are ids. -/
inductive PredNode where
  | lit (value : Bool)
  | not (operand : PredId)
  | logic (op : LogicOp) (left right : PredId)
  | rel (op : RelOp) (left right : ExprId)
  deriving DecidableEq, Repr

/-- A command whose parts are ids. A variable that it stores to carries its scope. -/
inductive CommandNode where
  | skip
  | assign (target : Name) (scope : ScopeId) (value : ExprId)
  | block (body : Slice)
  | cond (test : PredId) (body : CommandId) (others : Slice) (last : CommandId)
  | loop (test : PredId) (body : CommandId)
  | count (var : Name) (scope : ScopeId) (start stop step : ExprId) (body : CommandId)
  | switch (selector : ExprId) (cases : Slice) (default : CommandId)
  | printInt (value : ExprId)
  | printText (text : Name)
  deriving DecidableEq, Repr

/-- The tables of nodes and of lists. -/
structure Arena where
  exprs : Array (Located ExprNode) := #[]
  preds : Array (Located PredNode) := #[]
  commands : Array (Located CommandNode) := #[]
  /-- The arguments of calls. -/
  args : Array ExprId := #[]
  /-- The commands of blocks. -/
  bodies : Array CommandId := #[]
  /-- The further branches of conditionals. -/
  branches : Array (PredId × CommandId) := #[]
  /-- The cases of choices. -/
  cases : Array (Int32 × CommandId) := #[]
  deriving DecidableEq, Repr

namespace Arena

instance : Inhabited Arena := ⟨{}⟩

/-! ## Look-up -/

def expr? (a : Arena) (id : ExprId) : Option (Located ExprNode) := a.exprs[id.index]?

def pred? (a : Arena) (id : PredId) : Option (Located PredNode) := a.preds[id.index]?

def command? (a : Arena) (id : CommandId) : Option (Located CommandNode) := a.commands[id.index]?

def args? (a : Arena) (slice : Slice) : Option (List ExprId) := slice.of? a.args

def body? (a : Arena) (slice : Slice) : Option (List CommandId) := slice.of? a.bodies

def branches? (a : Arena) (slice : Slice) : Option (List (PredId × CommandId)) :=
  slice.of? a.branches

def cases? (a : Arena) (slice : Slice) : Option (List (Int32 × CommandId)) := slice.of? a.cases

/-! ## Growth -/

def addExpr (a : Arena) (node : ExprNode) (span : Span) : ExprId × Arena :=
  (⟨a.exprs.size⟩, { a with exprs := a.exprs.push ⟨node, span⟩ })

def addPred (a : Arena) (node : PredNode) (span : Span) : PredId × Arena :=
  (⟨a.preds.size⟩, { a with preds := a.preds.push ⟨node, span⟩ })

def addCommand (a : Arena) (node : CommandNode) (span : Span) : CommandId × Arena :=
  (⟨a.commands.size⟩, { a with commands := a.commands.push ⟨node, span⟩ })

/-- The call of a function with the given arguments, its arguments first. -/
def addCall (a : Arena) (function : FunctionId) (args : List ExprId) (span : Span) :
    ExprId × Arena :=
  let slice : Slice := ⟨a.args.size, args.length⟩
  { a with args := a.args ++ args.toArray }.addExpr (.call function slice) span

/-- The block of the given commands, its commands first. -/
def addBlock (a : Arena) (body : List CommandId) (span : Span) : CommandId × Arena :=
  let slice : Slice := ⟨a.bodies.size, body.length⟩
  { a with bodies := a.bodies ++ body.toArray }.addCommand (.block slice) span

/-- A conditional, its further branches first. -/
def addCond (a : Arena) (test : PredId) (body : CommandId) (others : List (PredId × CommandId))
    (last : CommandId) (span : Span) : CommandId × Arena :=
  let slice : Slice := ⟨a.branches.size, others.length⟩
  { a with branches := a.branches ++ others.toArray }.addCommand (.cond test body slice last) span

/-- A choice, its cases first. -/
def addSwitch (a : Arena) (selector : ExprId) (cases : List (Int32 × CommandId))
    (default : CommandId) (span : Span) : CommandId × Arena :=
  let slice : Slice := ⟨a.cases.size, cases.length⟩
  { a with cases := a.cases ++ cases.toArray }.addCommand (.switch selector slice default) span

@[simp] theorem expr?_addExpr (a : Arena) (node : ExprNode) (span : Span) :
    (a.addExpr node span).2.expr? (a.addExpr node span).1 = some ⟨node, span⟩ := by
  simp [addExpr, expr?]

@[simp] theorem pred?_addPred (a : Arena) (node : PredNode) (span : Span) :
    (a.addPred node span).2.pred? (a.addPred node span).1 = some ⟨node, span⟩ := by
  simp [addPred, pred?]

@[simp] theorem command?_addCommand (a : Arena) (node : CommandNode) (span : Span) :
    (a.addCommand node span).2.command? (a.addCommand node span).1 = some ⟨node, span⟩ := by
  simp [addCommand, command?]

/-- A call finds the arguments that it was given. -/
theorem args?_addCall (a : Arena) (function : FunctionId) (args : List ExprId) (span : Span) :
    (a.addCall function args span).2.args? ⟨a.args.size, args.length⟩ = some args := by
  simp [addCall, addExpr, args?, Slice.of?]

/-- A block finds the commands that it was given. -/
theorem body?_addBlock (a : Arena) (body : List CommandId) (span : Span) :
    (a.addBlock body span).2.body? ⟨a.bodies.size, body.length⟩ = some body := by
  simp [addBlock, addCommand, body?, Slice.of?]

/-! ## Marks -/

/-- The sizes of the seven tables. -/
structure Mark where
  exprs : Nat
  preds : Nat
  commands : Nat
  args : Nat
  bodies : Nat
  branches : Nat
  cases : Nat
  deriving DecidableEq, Repr

def mark (a : Arena) : Mark where
  exprs := a.exprs.size
  preds := a.preds.size
  commands := a.commands.size
  args := a.args.size
  bodies := a.bodies.size
  branches := a.branches.size
  cases := a.cases.size

/-- Cuts each table back to its size at a mark; a table that is shorter stays as it is. -/
def truncate (a : Arena) (m : Mark) : Arena where
  exprs := a.exprs.take m.exprs
  preds := a.preds.take m.preds
  commands := a.commands.take m.commands
  args := a.args.take m.args
  bodies := a.bodies.take m.bodies
  branches := a.branches.take m.branches
  cases := a.cases.take m.cases

end Arena

end Enquanto

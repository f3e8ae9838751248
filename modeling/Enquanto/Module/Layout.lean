import Enquanto.Module
import Enquanto.Program

/-!
# Laying a program out

`Module.ofProgram` lays the trees of a program out flat, in post-order: a node follows its parts,
from left to right, and a list follows its elements. So a part of a node has a smaller place than
the node, and a tree takes one unbroken stretch of each table.

Variables of a function's body are looked up in the scope of that function, all others in the root
scope; the scope of a function falls back to the root.
-/

namespace Enquanto

namespace Arena

mutual

/-- Appends an expression whose variables are looked up in `scope`. -/
def layExpr (scope : ScopeId) : Expr → Arena → ExprId × Arena
  | .int value span, a => a.addExpr (.int value) span
  | .var name span, a => a.addExpr (.var name scope) span
  | .neg operand span, a =>
    let (id, a) := layExpr scope operand a
    a.addExpr (.neg id) span
  | .arith op left right span, a =>
    let (l, a) := layExpr scope left a
    let (r, a) := layExpr scope right a
    a.addExpr (.arith op l r) span
  | .read span, a => a.addExpr .read span
  | .call function args span, a =>
    let (ids, a) := layExprs scope args a
    a.addCall function ids span

/-- Appends expressions from left to right. -/
def layExprs (scope : ScopeId) : List Expr → Arena → List ExprId × Arena
  | [], a => ([], a)
  | e :: es, a =>
    let (id, a) := layExpr scope e a
    let (ids, a) := layExprs scope es a
    (id :: ids, a)

end

/-- Appends a predicate whose variables are looked up in `scope`. -/
def layPred (scope : ScopeId) : Pred → Arena → PredId × Arena
  | .lit value span, a => a.addPred (.lit value) span
  | .not operand span, a =>
    let (id, a) := layPred scope operand a
    a.addPred (.not id) span
  | .logic op left right span, a =>
    let (l, a) := layPred scope left a
    let (r, a) := layPred scope right a
    a.addPred (.logic op l r) span
  | .rel op left right span, a =>
    let (l, a) := layExpr scope left a
    let (r, a) := layExpr scope right a
    a.addPred (.rel op l r) span

mutual

/-- Appends a command whose variables belong to `scope`. -/
def layCommand (scope : ScopeId) : Command → Arena → CommandId × Arena
  | .skip span, a => a.addCommand .skip span
  | .assign target value span, a =>
    let (v, a) := layExpr scope value a
    a.addCommand (.assign target scope v) span
  | .block body span, a =>
    let (ids, a) := layCommands scope body a
    a.addBlock ids span
  | .cond test body others last span, a =>
    let (t, a) := layPred scope test a
    let (b, a) := layCommand scope body a
    let (os, a) := layBranches scope others a
    let (l, a) := layCommand scope last a
    a.addCond t b os l span
  | .loop test body span, a =>
    let (t, a) := layPred scope test a
    let (b, a) := layCommand scope body a
    a.addCommand (.loop t b) span
  | .count var start stop step body span, a =>
    let (from', a) := layExpr scope start a
    let (to', a) := layExpr scope stop a
    let (by', a) := layExpr scope step a
    let (b, a) := layCommand scope body a
    a.addCommand (.count var scope from' to' by' b) span
  | .switch selector cases default span, a =>
    let (s, a) := layExpr scope selector a
    let (cs, a) := layCases scope cases a
    let (d, a) := layCommand scope default a
    a.addSwitch s cs d span
  | .printInt value span, a =>
    let (v, a) := layExpr scope value a
    a.addCommand (.printInt v) span
  | .printText text span, a => a.addCommand (.printText text) span

/-- Appends commands from left to right. -/
def layCommands (scope : ScopeId) : List Command → Arena → List CommandId × Arena
  | [], a => ([], a)
  | c :: cs, a =>
    let (id, a) := layCommand scope c a
    let (ids, a) := layCommands scope cs a
    (id :: ids, a)

/-- Appends the tests and commands of branches from left to right. -/
def layBranches (scope : ScopeId) :
    List (Pred × Command) → Arena → List (PredId × CommandId) × Arena
  | [], a => ([], a)
  | (test, body) :: rest, a =>
    let (t, a) := layPred scope test a
    let (b, a) := layCommand scope body a
    let (ids, a) := layBranches scope rest a
    ((t, b) :: ids, a)

/-- Appends the commands of cases from left to right. -/
def layCases (scope : ScopeId) :
    List (Int32 × Command) → Arena → List (Int32 × CommandId) × Arena
  | [], a => ([], a)
  | (value, body) :: rest, a =>
    let (b, a) := layCommand scope body a
    let (ids, a) := layCases scope rest a
    ((value, b) :: ids, a)

end

end Arena

namespace Module

/-- Appends an instruction. A declaration gets a scope of its own below the root. -/
def add (m : Module) : Instruction → Module
  | .command c =>
    let (id, arena) := Arena.layCommand .root c m.arena
    { m with arena, steps := m.steps.push (.command id) }
  | .declare d =>
    let (scope, scopes) := m.scopes.add .root
    let (id, functions) := m.functions.declare d.name d.params scope d.span
    let (body, arena) := Arena.layExpr scope d.body m.arena
    { arena, functions := functions.setBody id body, scopes, steps := m.steps.push (.declare id) }

/-- The flat module of a program. -/
def ofProgram (program : Program) : Module := program.foldl add {}

end Module

end Enquanto

import Enquanto.Module.Id
import Enquanto.Names
import Enquanto.Operator
import Enquanto.Span

/-!
# Integer expressions

The syntax tree of an expression. A variable is named; which scope it is looked up in follows from
where the expression stands. A call names the function that it was resolved to.
-/

namespace Enquanto

/-- An expression, each part with its span. -/
inductive Expr where
  | int (value : Int32) (span : Span)
  | var (name : Name) (span : Span)
  | neg (operand : Expr) (span : Span)
  | arith (op : ArithOp) (left right : Expr) (span : Span)
  /-- The next integer of the input. -/
  | read (span : Span)
  | call (function : FunctionId) (args : List Expr) (span : Span)
  deriving Repr, Inhabited

namespace Expr

def span : Expr → Span
  | .int _ s | .var _ s | .neg _ s | .arith _ _ _ s | .read s | .call _ _ s => s

/-- An operator between two expressions spans both. -/
def binary (op : ArithOp) (left right : Expr) : Expr :=
  .arith op left right (left.span.merge right.span)

end Expr

end Enquanto

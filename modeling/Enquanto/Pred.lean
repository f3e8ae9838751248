import Enquanto.Expr

/-!
# Predicates

The syntax tree of a condition: truth values, connectives, and relations between expressions.
-/

namespace Enquanto

/-- A predicate, each part with its span. -/
inductive Pred where
  | lit (value : Bool) (span : Span)
  | not (operand : Pred) (span : Span)
  | logic (op : LogicOp) (left right : Pred) (span : Span)
  | rel (op : RelOp) (left right : Expr) (span : Span)
  deriving Repr, Inhabited

namespace Pred

def span : Pred → Span
  | .lit _ s | .not _ s | .logic _ _ _ s | .rel _ _ _ s => s

/-- A connective between two predicates spans both. -/
def binary (op : LogicOp) (left right : Pred) : Pred :=
  .logic op left right (left.span.merge right.span)

/-- A relation between two expressions spans both. -/
def relation (op : RelOp) (left right : Expr) : Pred :=
  .rel op left right (left.span.merge right.span)

end Pred

end Enquanto

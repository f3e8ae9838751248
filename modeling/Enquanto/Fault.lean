import Enquanto.Arity
import Enquanto.Input
import Enquanto.Module.Id
import Enquanto.Span

/-!
# Faults

A fault ends a run. It has a cause and, once it has passed the node that raised it, the span of that
node.
-/

namespace Enquanto

/-- Why a run ended early. -/
inductive Fault.Cause where
  | divisionByZero
  | read (error : ReadError)
  /-- A call of a function that the module lacks. -/
  | undefinedFunction (id : FunctionId)
  | missingBody (name : String)
  | arity (mismatch : ArityMismatch)
  /-- More calls inside each other than allowed. -/
  | stackOverflow (limit : Nat)
  deriving DecidableEq, Repr

/-- A cause, with its place once that is known. -/
structure Fault where
  cause : Fault.Cause
  span : Option Span := none
  deriving DecidableEq, Repr

namespace Fault

def Cause.message : Cause → String
  | .divisionByZero => "division by zero"
  | .read .exhausted => "input exhausted: expected an integer"
  | .read (.malformed word) => "malformed input: expected an integer, found `" ++ word ++ "`"
  | .read (.failed message) => "failed to read input: " ++ message
  | .undefinedFunction id => "undefined function: fn#" ++ toString id.index
  | .missingBody name => "function `" ++ name ++ "` has no return expression"
  | .arity mismatch => mismatch.message
  | .stackOverflow limit => "maximum call depth (" ++ toString limit ++ ") exceeded"

def message (f : Fault) : String := f.cause.message

/-- The fault at a span. -/
def withSpan (f : Fault) (span : Span) : Fault := { f with span := some span }

/-- The fault at a span, unless it has one already. -/
def orSpan (f : Fault) (span : Span) : Fault := { f with span := some (f.span.getD span) }

end Fault

end Enquanto

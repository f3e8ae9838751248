/-!
# Arity

A call has to have as many arguments as its function has parameters. That is checked when a program
is read, and once more when a call is made, since modules may be built by hand.
-/

namespace Enquanto

/-- A call of the function `name` with `found` arguments in place of `expected`. -/
structure ArityMismatch where
  name : String
  expected : Nat
  found : Nat
  deriving DecidableEq, Repr

def ArityMismatch.message (m : ArityMismatch) : String :=
  "function `" ++ m.name ++ "` expects " ++ toString m.expected ++ " argument" ++
    (if m.expected = 1 then "" else "s") ++ ", found " ++ toString m.found

end Enquanto

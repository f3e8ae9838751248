import Enquanto.Pred

/-!
# Commands

The syntax tree of a command. A conditional always has a last branch and a counting loop always has
a step: where the source leaves them out, the parser supplies `skip` and `1`.
-/

namespace Enquanto

/-- A command, each part with its span. -/
inductive Command where
  | skip (span : Span)
  | assign (target : Name) (value : Expr) (span : Span)
  | block (body : List Command) (span : Span)
  /-- The first branch whose test holds, or else the last one. -/
  | cond (test : Pred) (body : Command) (others : List (Pred × Command)) (last : Command)
      (span : Span)
  | loop (test : Pred) (body : Command) (span : Span)
  /-- A counting loop over `var`. -/
  | count (var : Name) (start stop step : Expr) (body : Command) (span : Span)
  /-- The first case with the selector's value, or else the default. -/
  | switch (selector : Expr) (cases : List (Int32 × Command)) (default : Command) (span : Span)
  | printInt (value : Expr) (span : Span)
  | printText (text : Name) (span : Span)
  deriving Repr, Inhabited

def Command.span : Command → Span
  | .skip s | .assign _ _ s | .block _ s | .cond _ _ _ _ s | .loop _ _ s | .count _ _ _ _ _ s
  | .switch _ _ _ s | .printInt _ s | .printText _ s => s

end Enquanto

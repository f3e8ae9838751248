import Enquanto.Machine
import Enquanto.Parser

/-!
# Reports

What the tools show of tokens, of modules and of failures.
-/

namespace Enquanto

/-- Why a source was not run to its end. -/
inductive Failure where
  | parse (error : ParseError)
  | halt (halt : Halt)
  deriving DecidableEq, Repr

namespace Failure

def message : Failure → String
  | .parse e => e.message
  | .halt (.fault f) => f.message
  | .halt .dangling => "broken module"
  | .halt .outOfFuel => "out of fuel"

def span : Failure → Option Span
  | .parse e => some e.span
  | .halt (.fault f) => f.span
  | .halt _ => none

/-- The report of a failure in the source of a path, with its line and column if it has a place. -/
def render (failure : Failure) (path source : String) : String :=
  "error: " ++ failure.message ++
    match failure.span with
    | none => ""
    | some span =>
      let (line, column) := span.lineColumn source
      "\n  --> " ++ path ++ ":" ++ toString line ++ ":" ++ toString column

end Failure

namespace Report

/-- A token as a listing shows it: its class, and its payload if it has one. -/
def token (names : Names) (kind : TokenKind Name) : String :=
  match kind with
  | .integer magnitude => "integer " ++ toString magnitude.toNat
  | .identifier name => "identifier `" ++ names.text name ++ "`"
  | .text content => "text \"" ++ names.text content ++ "\""
  | _ => kind.toClass.describe

/-- The listing of a token list: a line for each token, with its span. -/
def tokens (names : Names) (tokens : List (Token Name)) : String :=
  String.join <| tokens.map fun t => "  " ++ token names t.kind ++ " @ " ++ t.span.text ++ "\n"

/-- The sizes of a module, and the signatures of its functions if it has any. -/
def summary (names : Names) (m : Module) : String :=
  let sizes : List (String × Nat) :=
    [("Instructions", m.steps.size), ("Top-level commands", m.commands.length),
      ("Functions", m.functions.size), ("Expressions", m.arena.exprs.size),
      ("Predicates", m.arena.preds.size), ("Scopes", m.scopes.size)]
  let signatures := m.functions.entries.toList.map fun f => "  " ++ f.signature names ++ "\n"
  String.join (sizes.map fun (title, n) => "  " ++ title ++ ": " ++ toString n ++ "\n") ++
    (if signatures = [] then "" else "\nFunctions:\n" ++ String.join signatures)

end Report

end Enquanto

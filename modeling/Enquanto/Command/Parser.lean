import Enquanto.Command
import Enquanto.Pred.Parser

/-!
# Reading commands

The first token of a command decides which one it is. Commands nest to the right without brackets,
so every `senaose` and `senao` belongs to the nearest conditional that is still open. What a
conditional or a counting loop leaves out is supplied at the end of the token before it, with an
empty span.
-/

namespace Enquanto.Command

open Enquanto.Parser

/-- The empty span at the end of the token stepped over last. -/
def hereSpan : Parser Span := return .point (← lastSpan).stop

def assignParser (ctx : Context) : Parser (Span → Command) := do
  let (target, _) ← identifier
  let _ ← symbol .assign
  let value ← Expr.parser ctx
  return .assign target value

def blockParser (nested : Parser Command) : Parser (Span → Command) := do
  let _ ← symbol .openBrace
  let body ← sepBy (.symbol .semicolon) nested
  let _ ← expectAs (.symbol .closeBrace) "`;` or `\x7d`"
  return .block body

/-- A test and the command that it guards. -/
def branchParser (ctx : Context) (nested : Parser Command) : Parser (Pred × Command) := do
  let test ← Pred.parser ctx
  let _ ← keyword .entao
  let body ← nested
  return (test, body)

def condParser (ctx : Context) (nested : Parser Command) : Parser (Span → Command) := do
  let _ ← keyword .se
  let (test, body) ← branchParser ctx nested
  let others ← many (on (.keyword .senaose)) fun _ => branchParser ctx nested
  let last ← if ← eat (.keyword .senao) then nested else Command.skip <$> hereSpan
  return .cond test body others last

def loopParser (ctx : Context) (nested : Parser Command) : Parser (Span → Command) := do
  let _ ← keyword .enquanto
  let test ← Pred.parser ctx
  let _ ← keyword .faca
  let body ← nested
  return .loop test body

def countParser (ctx : Context) (nested : Parser Command) : Parser (Span → Command) := do
  let _ ← keyword .para
  let (var, _) ← identifier
  let _ ← keyword .de
  let start ← Expr.parser ctx
  let _ ← keyword .ate
  let stop ← Expr.parser ctx
  let step ← if ← eat (.keyword .passo) then Expr.parser ctx else Expr.int 1 <$> hereSpan
  let _ ← keyword .faca
  let body ← nested
  return .count var start stop step body

/-- A case after its `caso`: a literal that may have a sign, and a command. -/
def caseParser (nested : Parser Command) : Parser (Int32 × Command) := do
  let start := (← current).span
  let negative ← eat (.symbol .minus)
  let (magnitude, _) ← integer
  let value ← literal negative magnitude (← spanFrom start)
  let _ ← symbol .colon
  let body ← nested
  return (value, body)

def switchParser (ctx : Context) (nested : Parser Command) : Parser (Span → Command) := do
  let _ ← keyword .escolha
  let selector ← Expr.parser ctx
  let cases ← many (on (.keyword .caso)) fun _ => caseParser nested
  let _ ← expectAs (.keyword .outro) "`caso` or `outro`"
  let _ ← symbol .colon
  let default ← nested
  return .switch selector cases default

/-- A command without its span, over the parser of nested commands. -/
def shapeParser (ctx : Context) (nested : Parser Command) : Parser (Span → Command) := do
  match (← current).kind with
  | .identifier _ => assignParser ctx
  | .keyword .skip => do
    advance
    return .skip
  | .keyword .se => condParser ctx nested
  | .keyword .enquanto => loopParser ctx nested
  | .keyword .para => countParser ctx nested
  | .keyword .escolha => switchParser ctx nested
  | .keyword .escreva => do
    advance
    return .printInt (← Expr.parser ctx)
  | .keyword .exiba => do
    advance
    return .printText (← textLiteral).1
  | .symbol .openBrace => blockParser nested
  | _ => unexpected "command"

/-- A command nested less deep than `bound` has entries. Its span runs from its first token to its
last. -/
def parserUpTo (ctx : Context) : (bound : List (Token Name)) → Parser Command
  | [] => unexpected "command"
  | _ :: bound => do
    let start := (← current).span
    let shape ← shapeParser ctx fun c => parserUpTo ctx bound c
    return shape (← spanFrom start)

/-- A command. It takes a token to nest one deeper, so the tokens ahead bound the depth. -/
def parser (ctx : Context) : Parser Command := do
  parserUpTo ctx (← get).ahead

end Enquanto.Command

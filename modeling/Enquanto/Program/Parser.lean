import Enquanto.Command.Parser
import Enquanto.Module.Layout
import Enquanto.Token.Lexer

/-!
# Reading programs

A program is a list of instructions with `;` between each two; a program may be empty. A function is
declared by its header, so its own body and all that follows may call it, and nothing before it may.

* `Program.parse` reads a token list;
* `Module.parse` reads a source and lays the program out.
-/

namespace Enquanto

namespace Program

open Enquanto.Parser

/-- The header of a function: its name, its parameters and its span. -/
def headerParser : Parser (Name × List Name × Span) := do
  let start ← keyword .definition
  let (name, _) ← identifier
  let _ ← symbol .openParen
  let params ←
    if ← check (.symbol .closeParen) then pure []
    else sepBy (.symbol .comma) (Prod.fst <$> identifier)
  let _ ← symbol .closeParen
  let _ ← symbol .equal
  return (name, params, ← spanFrom start)

/-- An instruction, and the context of the next one. -/
def instructionParser (ctx : Context) : Parser (Instruction × Context) := do
  if ← check (.keyword .definition) then
    let (name, params, span) ← headerParser
    let ctx := ctx.declare ⟨name, params.length⟩
    let body ← Expr.parser ctx
    return (.declare ⟨name, params, body, span⟩, ctx)
  else return (.command (← Command.parser ctx), ctx)

/-- Instructions with `;` between them, no more than `bound` has entries. -/
def instructionsUpTo (ctx : Context) : (bound : List (Token Name)) → Parser Program
  | [] => unexpected "command"
  | _ :: bound => do
    let (first, ctx) ← instructionParser ctx
    if ← eat (.symbol .semicolon) then
      let rest ← instructionsUpTo ctx bound
      return first :: rest
    else return [first]

/-- A whole program, up to the end of file. Every instruction takes a token. -/
def parser (names : Names) : Parser Program := do
  if (← get).isAtEnd then return []
  else
    let program ← instructionsUpTo ⟨names, []⟩ (← get).ahead
    let _ ← expectAs .endOfFile "`;` or end of file"
    return program

/-- Reads a token list as a program. -/
def parse (names : Names) (tokens : List (Token Name)) : Except ParseError Program :=
  (parser names).run' (.ofTokens tokens)

end Program

/-- Reads a source as a program and lays it out. -/
def Module.parse (source : String) (names : Names) : Except ParseError Module × Names :=
  let (tokens, names) := lex source names
  ((Program.parse names tokens).map Module.ofProgram, names)

end Enquanto

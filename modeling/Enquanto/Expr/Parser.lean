import Enquanto.Expr
import Enquanto.Parser

/-!
# Reading expressions

From loose to tight, an expression is made of `+` and `-`, then `*` and `/`, then `^`, then the sign
`-`, then operands; all operators group to the left, `^` as well. Parentheses leave no trace in the
tree. A sign right before the literal 2147483648 is part of it, since the least value has no
positive counterpart.

A call is resolved where it is read, to the latest function of that name declared before it, and has
to have as many arguments as that function has parameters.

Each level is a parser over the parser of the level below, and the innermost, `operand`, is over the
parser of nested expressions. `Expr.parser` closes the circle: parentheses nest at most as deep as
there are tokens ahead.
-/

namespace Enquanto

/-- What a call needs to know of a declared function. -/
structure Signature where
  name : Name
  arity : Nat
  deriving DecidableEq, Repr

/-- What reading a command or an expression depends on, beside the tokens. -/
structure Context where
  names : Names
  /-- The functions declared so far, the latest first. -/
  declared : List Signature
  deriving Repr

namespace Context

/-- The latest function with a given name, with its number of parameters. -/
def resolve (ctx : Context) (name : Name) : Option (FunctionId × Nat) :=
  go ctx.declared
where
  /-- Functions are numbered in order of declaration, so the first of them is the last here. -/
  go : List Signature → Option (FunctionId × Nat)
    | [] => none
    | s :: earlier => if s.name = name then some (⟨earlier.length⟩, s.arity) else go earlier

/-- The context after the declaration of a function. -/
def declare (ctx : Context) (s : Signature) : Context := { ctx with declared := s :: ctx.declared }

end Context

namespace Expr

open Enquanto.Parser

/-- A call of `name`, whose token is the current one and is followed by `(`. -/
def callParser (ctx : Context) (nested : Parser Expr) (name : Name) (start : Span) :
    Parser Expr := do
  advance
  match ctx.resolve name with
  | none => throw ⟨.undefinedFunction (ctx.names.text name), start⟩
  | some (function, arity) => do
    let _ ← symbol .openParen
    let args ← if ← check (.symbol .closeParen) then pure [] else sepBy (.symbol .comma) nested
    let _ ← expectAs (.symbol .closeParen) "`,` or `)`"
    let span ← spanFrom start
    if args.length = arity then return .call function args span
    else throw ⟨.arity ⟨ctx.names.text name, arity, args.length⟩, span⟩

/-- An operand: a literal, `leia`, a call, a variable, or an expression in parentheses. -/
def operand (ctx : Context) (nested : Parser Expr) : Parser Expr := do
  let token ← current
  match token.kind with
  | .integer magnitude => do
    advance
    return .int (← literal false magnitude token.span) token.span
  | .keyword .leia => do
    advance
    return .read token.span
  | .identifier name => do
    if (← get).nextClass = .symbol .openParen then callParser ctx nested name token.span
    else
      advance
      return .var name token.span
  | .symbol .openParen => do
    advance
    let inner ← nested
    let _ ← symbol .closeParen
    return inner
  | _ => unexpected "expression"

/-- The literal that only a sign right before it makes a value. -/
def leastMagnitude : UInt32 := 2147483648

/-- An operand with any number of signs before it. Each sign reaches to the end of the operand; the
innermost joins a literal that needs it. -/
def signed (ctx : Context) (nested : Parser Expr) : Parser Expr := do
  let signs ← many (on (.symbol .minus)) fun _ => lastSpan
  let token ← current
  let (signs, inner) ←
    match signs.getLast?, token.kind with
    | some sign, .integer magnitude =>
      if magnitude = leastMagnitude then do
        advance
        pure (signs.dropLast, .int Int32.minValue (sign.merge token.span))
      else do pure (signs, ← operand ctx nested)
    | _, _ => do pure (signs, ← operand ctx nested)
  let stop ← lastSpan
  return signs.foldr (fun sign e => .neg e (sign.merge stop)) inner

def powerOp : TokenKind Name → Option ArithOp
  | .symbol .caret => some .pow
  | _ => none

def productOp : TokenKind Name → Option ArithOp
  | .symbol .star => some .mul
  | .symbol .slash => some .div
  | _ => none

def sumOp : TokenKind Name → Option ArithOp
  | .symbol .plus => some .add
  | .symbol .minus => some .sub
  | _ => none

/-- A sum, over the parser of nested expressions. -/
def sum (ctx : Context) (nested : Parser Expr) : Parser Expr :=
  chainLeft sumOp binary <| chainLeft productOp binary <| chainLeft powerOp binary <|
    signed ctx nested

/-- An expression nested less deep than `bound` has entries. -/
def parserUpTo (ctx : Context) : (bound : List (Token Name)) → Parser Expr
  | [] => unexpected "expression"
  | _ :: bound => fun c => sum ctx (parserUpTo ctx bound) c

/-- An expression. It takes a token to nest one deeper, so the tokens ahead bound the depth. -/
def parser (ctx : Context) : Parser Expr := do
  parserUpTo ctx (← get).ahead

end Expr

end Enquanto

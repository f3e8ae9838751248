import Enquanto.Arity
import Enquanto.Decimal
import Enquanto.Token.Cursor

/-!
# Parsers

A parser reads a value off the tokens ahead of a cursor, or fails with one located error. The
grammar needs few ways to put parsers together: tokens that must be there (`expect`), tokens that
may be there (`eat`), repetition while a token announces another item (`many`), operators of one
level that group to the left (`chainLeft`), and one choice that gives up on a first reading without
a trace (`orElse`).

An invalid token is reported as such wherever it stands: no expectation hides it.
-/

namespace Enquanto

/-- Why a token list is not a program. -/
inductive ParseError.Cause where
  /-- The grammar does not allow this token here. -/
  | unexpected (expected : String) (found : TokenClass)
  | invalidToken
  /-- A literal that is no value of 32 bits once its sign is applied. -/
  | integerOutOfRange
  /-- A call of a function that has not been declared so far. -/
  | undefinedFunction (name : String)
  | arity (mismatch : ArityMismatch)
  deriving DecidableEq, Repr

/-- A cause of failure, with its place. -/
structure ParseError where
  cause : ParseError.Cause
  span : Span
  deriving DecidableEq, Repr

namespace ParseError

def Cause.message : Cause → String
  | .unexpected expected found => "expected " ++ expected ++ ", found " ++ found.describe
  | .invalidToken => "invalid token"
  | .integerOutOfRange => "integer literal out of range"
  | .undefinedFunction name => "undefined function: " ++ name
  | .arity mismatch => mismatch.message

def message (e : ParseError) : String := e.cause.message

/-- The message with the place. -/
def text (e : ParseError) : String := e.message ++ " at " ++ e.span.text

/-- The error for a token that the grammar does not allow. -/
def unexpected (expected : String) (found : TokenClass) (span : Span) : ParseError :=
  if found = .invalid then ⟨.invalidToken, span⟩ else ⟨.unexpected expected found, span⟩

end ParseError

/-- A parser of values of type `α`. -/
abbrev Parser := StateT Cursor (Except ParseError)

namespace Parser

variable {α β ω : Type}

/-! ## Tokens -/

/-- The token at the cursor. -/
def current : Parser (Token Name) := return (← get).current

/-- Steps over the token at the cursor. -/
def advance : Parser Unit := modify Cursor.advance

/-- The span of the token stepped over last. -/
def lastSpan : Parser Span := return (← get).lastSpan

/-- The span from `start` to the token stepped over last. -/
def spanFrom (start : Span) : Parser Span := return start.merge (← lastSpan)

/-- Fails because the current token is not what is expected. -/
def unexpected (expected : String) : Parser α := do
  let token ← current
  throw (.unexpected expected token.toClass token.span)

/-- Whether the current token is of a class. -/
def check (k : TokenClass) : Parser Bool := return (← get).check k

/-- Steps over the current token if it is of a class, and says whether it did. -/
def eat (k : TokenClass) : Parser Bool := do
  if ← check k then
    advance
    return true
  else return false

/-- Steps over a token that must be of a class; `expected` says what the grammar allows here. -/
def expectAs (k : TokenClass) (expected : String) : Parser Span := do
  let token ← current
  if token.toClass = k then
    advance
    return token.span
  else unexpected expected

/-- Steps over a token that must be of a class. -/
def expect (k : TokenClass) : Parser Span := expectAs k k.describe

def keyword (k : Keyword) : Parser Span := expect (.keyword k)

def symbol (s : Symbol) : Parser Span := expect (.symbol s)

/-- An identifier, with its span. -/
def identifier : Parser (Name × Span) := do
  let token ← current
  match token.kind with
  | .identifier name => do
    advance
    return (name, token.span)
  | _ => unexpected "identifier"

/-- The magnitude of an integer literal, with its span. -/
def integer : Parser (UInt32 × Span) := do
  let token ← current
  match token.kind with
  | .integer magnitude => do
    advance
    return (magnitude, token.span)
  | _ => unexpected "integer"

/-- The content of a text literal, with its span. -/
def textLiteral : Parser (Name × Span) := do
  let token ← current
  match token.kind with
  | .text content => do
    advance
    return (content, token.span)
  | _ => unexpected "text literal"

/-- The value of a literal with its sign. -/
def literal (negative : Bool) (magnitude : UInt32) (span : Span) : Except ParseError Int32 :=
  match Decimal.fit? (if negative then -(magnitude.toNat : Int) else magnitude.toNat) with
  | some value => .ok value
  | none => .error ⟨.integerOutOfRange, span⟩

/-! ## Combinations -/

/-- Announces an item by any token of one class. -/
def on (k : TokenClass) (kind : TokenKind Name) : Option Unit :=
  if kind.toClass = k then some () else none

/-- Items as long as the current token announces one, but no more than `bound` has entries. A token
that announces an item is stepped over. -/
def manyUpTo (announces : TokenKind Name → Option β) (item : β → Parser α) :
    (bound : List (Token Name)) → Parser (List α)
  | [] => return []
  | _ :: bound => do
    match announces (← current).kind with
    | none => return []
    | some b => do
      advance
      let a ← item b
      let as ← manyUpTo announces item bound
      return a :: as

/-- Items as long as the current token announces one. Every item takes a token, so there are no
more items than tokens ahead. -/
def many (announces : TokenKind Name → Option β) (item : β → Parser α) : Parser (List α) := do
  manyUpTo announces item (← get).ahead

/-- One item or more, with a token of class `k` between each two. -/
def sepBy (k : TokenClass) (item : Parser α) : Parser (List α) := do
  let first ← item
  let rest ← many (on k) fun _ => item
  return first :: rest

/-- Operands with operators of one level between them, grouped to the left. -/
def chainLeft (operator : TokenKind Name → Option ω) (join : ω → α → α → α) (operand : Parser α) :
    Parser α := do
  let first ← operand
  let rest ← many operator fun op => return (op, ← operand)
  return rest.foldl (fun left (op, right) => join op left right) first

/-- The first reading, or the second one from the same place if the first fails. -/
def orElse (first second : Parser α) : Parser α := fun c =>
  match first c with
  | .ok result => .ok result
  | .error _ => second c

end Parser

end Enquanto

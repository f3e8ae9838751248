import Enquanto.Token

/-!
# Cursors

A cursor is a place in a token list: the tokens behind it, the last one first, and the tokens ahead.
It never moves past an end of file. A list that does not end with one is read as if an end of file
without a place followed it.

* `Cursor.current` is the token at the cursor, `Cursor.advance` steps over it;
* `Cursor.lastSpan` is the span of the token stepped over last;
* `Cursor.moveTo` goes to a place that was taken with `Cursor.position`.
-/

namespace Enquanto

/-- A place in a token list. -/
structure Cursor where
  /-- The tokens before the cursor, the last one first. -/
  behind : List (Token Name)
  /-- The tokens from the cursor on. -/
  ahead : List (Token Name)
  deriving DecidableEq, Repr

namespace Cursor

/-- The start of a token list. -/
def ofTokens (tokens : List (Token Name)) : Cursor := ⟨[], tokens⟩

/-- All tokens, in order. -/
def tokens (c : Cursor) : List (Token Name) := c.behind.reverse ++ c.ahead

def position (c : Cursor) : Nat := c.behind.length

/-- The same token list at another place. -/
def moveTo (c : Cursor) (position : Nat) : Cursor :=
  ⟨(c.tokens.take position).reverse, c.tokens.drop position⟩

/-- The end of file that is read once no token is ahead: the last token if it is one. -/
def ending (c : Cursor) : Token Name :=
  match c.behind with
  | token :: _ => if token.isEndOfFile then token else ⟨.endOfFile, .nowhere⟩
  | [] => ⟨.endOfFile, .nowhere⟩

/-- The token at the cursor. -/
def current (c : Cursor) : Token Name :=
  match c.ahead with
  | token :: _ => token
  | [] => c.ending

/-- The class of the token after the current one. -/
def nextClass (c : Cursor) : TokenClass :=
  match c.ahead with
  | _ :: token :: _ => token.toClass
  | _ => .endOfFile

/-- The span of the token right before the cursor. -/
def lastSpan (c : Cursor) : Span :=
  match c.behind with
  | token :: _ => token.span
  | [] => .nowhere

def isAtEnd (c : Cursor) : Bool := c.current.isEndOfFile

/-- Whether the current token is of a given class. -/
def check (c : Cursor) (k : TokenClass) : Bool := c.current.toClass == k

/-- The cursor after the current token; it stays on an end of file. -/
def advance (c : Cursor) : Cursor :=
  match c.ahead with
  | token :: rest => if token.isEndOfFile then c else ⟨token :: c.behind, rest⟩
  | [] => c

/-- Stepping over a token leaves the token list as it is. -/
@[simp] theorem tokens_advance (c : Cursor) : c.advance.tokens = c.tokens := by
  unfold advance
  split
  · split <;> simp_all [tokens]
  · rfl

end Cursor

end Enquanto

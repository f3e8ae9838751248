import Enquanto.Decimal
import Enquanto.Token

/-!
# The lexer

A source is cut from left to right into lexemes, each the longest that a rule allows, and a word
that is a keyword is never an identifier. Blanks and comments (`#` up to the end of the line) are
layout and leave no token. Three lexemes are invalid tokens: a run of digits whose value needs more
than 32 bits, a quote that is never closed (it takes the rest of the source), and a character that
starts no other lexeme.

* `scan` decides the lexeme that starts with a given character;
* `lexemes` is the token list of a source, closed by an end of file at its length;
* `tokens` is that list with spans of 32 bits;
* `lex` is the list of tokens with their spellings interned.
-/

namespace Enquanto.Lexer

/-- The characters between tokens that mean nothing. -/
def isBlank (c : Char) : Bool := c == ' ' || c == '\t' || c == '\r' || c == '\n'

def isWordStart (c : Char) : Bool := c.isAlpha || c == '_'

def isWordPart (c : Char) : Bool := c.isAlphanum || c == '_'

/-- How many characters at the front of `cs` satisfy `p`. -/
def run (p : Char → Bool) (cs : List Char) : Nat := (cs.takeWhile p).length

theorem run_le (p : Char → Bool) (cs : List Char) : run p cs ≤ cs.length := by
  induction cs with
  | nil => simp [run]
  | cons c cs ih =>
    simp only [run, List.takeWhile_cons]
    split
    · simpa [run] using ih
    · simp

/-- The token of a run of digits: magnitudes have 32 bits. -/
def number (digits : List Char) : TokenKind String :=
  let magnitude := Decimal.value digits
  if magnitude < UInt32.size then .integer (UInt32.ofNat magnitude) else .invalid

/-- The token of a word: a keyword if it is one, otherwise an identifier. -/
def word (spelling : String) : TokenKind String :=
  match Keyword.ofSpelling? spelling with
  | some keyword => .keyword keyword
  | none => .identifier spelling

/-- The longest symbol that starts with `c`, with the number of characters that it takes after
`c`. -/
def symbol? (c : Char) (rest : List Char) : Option (Symbol × Nat) :=
  match c, rest with
  | ':', '=' :: _ => some (.assign, 1)
  | ':', _ => some (.colon, 0)
  | '<', '>' :: _ => some (.notEqual, 1)
  | '<', '=' :: _ => some (.lessEqual, 1)
  | '<', _ => some (.less, 0)
  | '>', '=' :: _ => some (.greaterEqual, 1)
  | '>', _ => some (.greater, 0)
  | ';', _ => some (.semicolon, 0)
  | ',', _ => some (.comma, 0)
  | '(', _ => some (.openParen, 0)
  | ')', _ => some (.closeParen, 0)
  | '\x7b', _ => some (.openBrace, 0)
  | '\x7d', _ => some (.closeBrace, 0)
  | '+', _ => some (.plus, 0)
  | '-', _ => some (.minus, 0)
  | '*', _ => some (.star, 0)
  | '/', _ => some (.slash, 0)
  | '^', _ => some (.caret, 0)
  | '=', _ => some (.equal, 0)
  | _, _ => none

/-- The lexeme that starts with `c`: its token, or nothing for layout, and the number of characters
that it takes after `c`. -/
def scan (c : Char) (rest : List Char) : Option (TokenKind String) × Nat :=
  if isBlank c then (none, 0)
  else if c == '#' then (none, run (· != '\n') rest)
  else if c.isDigit then
    let n := run Char.isDigit rest
    (some (number (c :: rest.take n)), n)
  else if isWordStart c then
    let n := run isWordPart rest
    (some (word (String.ofList (c :: rest.take n))), n)
  else if c == '"' then
    let n := run (· != '"') rest
    match rest.drop n with
    | [] => (some .invalid, n)
    | _ :: _ => (some (.text (String.ofList (rest.take n))), n + 1)
  else
    match symbol? c rest with
    | some (symbol, n) => (some (.symbol symbol), n)
    | none => (some .invalid, 0)

/-- The number of bytes of a text. -/
def byteLength (cs : List Char) : Nat := cs.foldr (fun c n => c.utf8Size + n) 0

/-- The tokens of the rest `cs` of a source, which starts at byte `start`. -/
def lexemes (start : Nat) : List Char → List (Token String)
  | [] => [⟨.endOfFile, .point start⟩]
  | c :: rest =>
    let (kind?, n) := scan c rest
    let stop := start + byteLength (c :: rest.take n)
    match kind? with
    | none => lexemes stop (rest.drop n)
    | some kind => ⟨kind, ⟨start, stop⟩⟩ :: lexemes stop (rest.drop n)
termination_by cs => cs.length
decreasing_by all_goals simp only [List.length_drop, List.length_cons]; omega

end Lexer

/-- The token with a span of 32 bits: what stands further on than the last offset is put there. -/
def Token.fit {ν : Type} (token : Token ν) : Token ν :=
  ⟨token.kind, .ofRange token.span.start token.span.stop⟩

/-- The tokens of a source. -/
def Lexer.tokens (source : String) : List (Token String) :=
  (lexemes 0 source.toList).map Token.fit

/-- The tokens of a source, and the name table with their spellings. -/
def lex (source : String) (names : Names) : List (Token Name) × Names :=
  Token.internAll (Lexer.tokens source) names

end Enquanto

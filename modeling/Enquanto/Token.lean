import Enquanto.Names
import Enquanto.Span

/-!
# Tokens

A token is a kind with a span. Kinds carry what the parser needs of a lexeme: the magnitude of an
integer, the spelling of an identifier, the content of a text literal. Spellings are strings when
they leave the lexer and names once they are interned, so a kind is taken over a type `ν` of
spellings. `TokenKind.toClass` forgets the payload: it is what the grammar compares and what
messages name.
-/

namespace Enquanto

/-- The reserved words of the language. -/
inductive Keyword where
  | se | entao | senaose | senao | enquanto | faca | para | de | ate | passo | escolha | caso
  | outro | escreva | exiba | skip | definition | leia | verdadeiro | falso | nao | e | ou | xor
  deriving DecidableEq, Repr

namespace Keyword

/-- How a keyword is written. -/
def spelling : Keyword → String
  | .se => "se"
  | .entao => "entao"
  | .senaose => "senaose"
  | .senao => "senao"
  | .enquanto => "enquanto"
  | .faca => "faca"
  | .para => "para"
  | .de => "de"
  | .ate => "ate"
  | .passo => "passo"
  | .escolha => "escolha"
  | .caso => "caso"
  | .outro => "outro"
  | .escreva => "escreva"
  | .exiba => "exiba"
  | .skip => "skip"
  | .definition => "def"
  | .leia => "leia"
  | .verdadeiro => "verdadeiro"
  | .falso => "falso"
  | .nao => "nao"
  | .e => "e"
  | .ou => "ou"
  | .xor => "xor"

def all : List Keyword :=
  [.se, .entao, .senaose, .senao, .enquanto, .faca, .para, .de, .ate, .passo, .escolha, .caso,
    .outro, .escreva, .exiba, .skip, .definition, .leia, .verdadeiro, .falso, .nao, .e, .ou, .xor]

theorem mem_all (k : Keyword) : k ∈ all := by
  cases k <;> decide

/-- The keyword with a given spelling. -/
def ofSpelling? (word : String) : Option Keyword :=
  all.find? (·.spelling == word)

end Keyword

/-- The punctuation and operator signs of the language. -/
inductive Symbol where
  | assign | semicolon | comma | colon | openParen | closeParen | openBrace | closeBrace
  | plus | minus | star | slash | caret
  | equal | notEqual | less | lessEqual | greater | greaterEqual
  deriving DecidableEq, Repr

namespace Symbol

/-- How a symbol is written. -/
def spelling : Symbol → String
  | .assign => ":="
  | .semicolon => ";"
  | .comma => ","
  | .colon => ":"
  | .openParen => "("
  | .closeParen => ")"
  | .openBrace => "\x7b"
  | .closeBrace => "\x7d"
  | .plus => "+"
  | .minus => "-"
  | .star => "*"
  | .slash => "/"
  | .caret => "^"
  | .equal => "="
  | .notEqual => "<>"
  | .less => "<"
  | .lessEqual => "<="
  | .greater => ">"
  | .greaterEqual => ">="

def all : List Symbol :=
  [.assign, .semicolon, .comma, .colon, .openParen, .closeParen, .openBrace, .closeBrace,
    .plus, .minus, .star, .slash, .caret,
    .equal, .notEqual, .less, .lessEqual, .greater, .greaterEqual]

theorem mem_all (s : Symbol) : s ∈ all := by
  cases s <;> decide

end Symbol

/-- What a token is, without its payload. -/
inductive TokenClass where
  | integer
  | text
  | identifier
  | keyword (keyword : Keyword)
  | symbol (symbol : Symbol)
  /-- A lexeme that no rule of the language allows. -/
  | invalid
  | endOfFile
  deriving DecidableEq, Repr

namespace TokenClass

/-- How messages name a class of tokens. -/
def describe : TokenClass → String
  | .integer => "integer"
  | .text => "text literal"
  | .identifier => "identifier"
  | .keyword k => "`" ++ k.spelling ++ "`"
  | .symbol s => "`" ++ s.spelling ++ "`"
  | .invalid => "invalid token"
  | .endOfFile => "end of file"

def all : List TokenClass :=
  [.integer, .text, .identifier, .invalid, .endOfFile] ++
    Keyword.all.map .keyword ++ Symbol.all.map .symbol

/-- The class that messages name so. -/
def ofDescription? (description : String) : Option TokenClass :=
  all.find? (·.describe == description)

end TokenClass

/-- A token without its span, over spellings of type `ν`. -/
inductive TokenKind (ν : Type) where
  | integer (magnitude : UInt32)
  | text (content : ν)
  | identifier (name : ν)
  | keyword (keyword : Keyword)
  | symbol (symbol : Symbol)
  | invalid
  | endOfFile
  deriving DecidableEq, Repr

namespace TokenKind

variable {ν : Type}

def toClass : TokenKind ν → TokenClass
  | .integer _ => .integer
  | .text _ => .text
  | .identifier _ => .identifier
  | .keyword k => .keyword k
  | .symbol s => .symbol s
  | .invalid => .invalid
  | .endOfFile => .endOfFile

/-- Replaces the spelling of a token by its name. -/
def intern : TokenKind String → StateM Names (TokenKind Name)
  | .integer magnitude => pure (.integer magnitude)
  | .text content => return .text (← Names.intern content)
  | .identifier name => return .identifier (← Names.intern name)
  | .keyword k => pure (.keyword k)
  | .symbol s => pure (.symbol s)
  | .invalid => pure .invalid
  | .endOfFile => pure .endOfFile

end TokenKind

/-- A token at its place in the source. -/
structure Token (ν : Type) where
  kind : TokenKind ν
  span : Span
  deriving DecidableEq, Repr

namespace Token

variable {ν : Type}

def toClass (token : Token ν) : TokenClass := token.kind.toClass

def isEndOfFile (token : Token ν) : Bool := token.toClass == .endOfFile

def intern (token : Token String) : StateM Names (Token Name) := do
  return ⟨← token.kind.intern, token.span⟩

/-- Interns the spellings of a token list, in order. -/
def internAll (tokens : List (Token String)) (names : Names) : List (Token Name) × Names :=
  (tokens.mapM Token.intern).run names

end Token

end Enquanto

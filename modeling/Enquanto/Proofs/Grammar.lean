import Enquanto.Program
import Enquanto.Token

/-!
# The grammar

Which token lists are programs, said without the parser. The grammar in EBNF:

    programa  := instr (';' instr)*
    instr     := 'def' ID '(' [ID (',' ID)*] ')' '=' expressao | comando
    comando   := ID ':=' expressao | 'skip'
               | 'se' bool 'entao' comando ('senaose' bool 'entao' comando)* ['senao' comando]
               | 'enquanto' bool 'faca' comando
               | 'para' ID 'de' expressao 'ate' expressao ['passo' expressao] 'faca' comando
               | 'escolha' expressao ('caso' ['-'] INT ':' comando)* 'outro' ':' comando
               | 'escreva' expressao | 'exiba' TEXTO | '{' comando (';' comando)* '}'
    bool      := xor ('ou' xor)*
    xor       := and ('xor' and)*
    and       := not ('e' not)*
    not       := 'nao' not | atom
    atom      := 'verdadeiro' | 'falso' | '(' bool ')' | expressao relop expressao
    relop     := '=' | '<>' | '<' | '<=' | '>' | '>='
    expressao := termo (('+' | '-') termo)*
    termo     := fator (('*' | '/') fator)*
    fator     := unario ('^' unario)*
    unario    := '-' unario | primario
    primario  := INT | 'leia' | ID '(' [expressao (',' expressao)*] ')' | ID | '(' expressao ')'

A derivation is known by its form: what was written, before calls are resolved and literals are
given a value. Forms keep parentheses, and keep apart what is written from what is left out.

* `Grammar.Many`, `Grammar.SepBy` and `Grammar.Listed` are the repetitions of the EBNF;
* `ExprForm.Derives`, `PredForm.Derives`, `CommandForm.Derives` and `InstructionForm.Derives` have
  one rule for each alternative;
* `ProgramForm.Derives` relates the tokens of a program, without the end of file, to its form.
-/

namespace Enquanto

namespace Grammar

abbrev symbolAt (symbol : Symbol) (span : Span) : Token Name := ⟨.symbol symbol, span⟩

abbrev keywordAt (keyword : Keyword) (span : Span) : Token Name := ⟨.keyword keyword, span⟩

abbrev identifierAt (name : Name) (span : Span) : Token Name := ⟨.identifier name, span⟩

abbrev integerAt (magnitude : UInt32) (span : Span) : Token Name := ⟨.integer magnitude, span⟩

/-- The span of the last token. -/
def lastSpan (ts : List (Token Name)) : Span := (ts.getLast?.map Token.span).getD .nowhere

/-- The span from the first token to the last. -/
def wholeSpan (ts : List (Token Name)) : Span :=
  ((ts.head?.map Token.span).getD .nowhere).merge (lastSpan ts)

variable {α β : Type}

/-- Any number of phrases, each after a token that marks it and says something of it. -/
inductive Many (mark : TokenKind Name → β → Prop) (phrase : List (Token Name) → α → Prop) :
    List (Token Name) → List (β × α) → Prop
  | nil : Many mark phrase [] []
  | cons {t : Token Name} {b : β} {ts us : List (Token Name)} {a : α} {rest : List (β × α)} :
    mark t.kind b → phrase ts a → Many mark phrase us rest →
      Many mark phrase (t :: (ts ++ us)) ((b, a) :: rest)

/-- The mark that is always the same token. -/
def just (expected : TokenKind Name) (kind : TokenKind Name) (_ : Unit) : Prop := kind = expected

/-- One phrase or more, with a token between each two. -/
inductive SepBy (separator : TokenKind Name) (phrase : List (Token Name) → α → Prop) :
    List (Token Name) → List α → Prop
  | intro {ts us : List (Token Name)} {a : α} {rest : List (Unit × α)} :
    phrase ts a → Many (just separator) phrase us rest →
      SepBy separator phrase (ts ++ us) (a :: rest.map Prod.snd)

/-- Phrases with commas between them, or nothing. -/
inductive Listed (phrase : List (Token Name) → α → Prop) : List (Token Name) → List α → Prop
  | none : Listed phrase [] []
  | some {ts : List (Token Name)} {as : List α} :
    SepBy (.symbol .comma) phrase ts as → Listed phrase ts as

end Grammar

open Grammar

/-! ## Expressions -/

/-- The sign of an arithmetic operator. -/
def ArithOp.symbol : ArithOp → Symbol
  | .add => .plus
  | .sub => .minus
  | .mul => .star
  | .div => .slash
  | .pow => .caret

/-- An expression as it is written. -/
inductive ExprForm where
  | int (magnitude : UInt32) (span : Span)
  | read (span : Span)
  /-- A call, with the span of the name in it and its own. -/
  | call (name : Name) (nameSpan : Span) (args : List ExprForm) (span : Span)
  | var (name : Name) (span : Span)
  | paren (inner : ExprForm)
  | neg (operand : ExprForm) (span : Span)
  | arith (op : ArithOp) (left right : ExprForm)

/-- The levels of expressions, from the tightest to the loosest. -/
inductive ExprLevel where
  | operand | signed | power | product | sum
  deriving DecidableEq

namespace ExprForm

/-- One of the given operators, by its sign. -/
def operator (ops : List ArithOp) (kind : TokenKind Name) (op : ArithOp) : Prop :=
  op ∈ ops ∧ kind = .symbol op.symbol

/-- Operands of one level, grouped to the left. -/
def chain (first : ExprForm) (rest : List (ArithOp × ExprForm)) : ExprForm :=
  rest.foldl (fun left (op, right) => .arith op left right) first

/-- The tokens of an expression of a level, and its form. -/
inductive Derives : ExprLevel → List (Token Name) → ExprForm → Prop
  | int {m : UInt32} {s : Span} : Derives .operand [integerAt m s] (.int m s)
  | read {s : Span} : Derives .operand [keywordAt .leia s] (.read s)
  | call {x : Name} {s s₁ s₂ : Span} {ts : List (Token Name)} {args : List ExprForm} :
    Listed (Derives .sum) ts args →
      Derives .operand (identifierAt x s :: symbolAt .openParen s₁ ::
        (ts ++ [symbolAt .closeParen s₂])) (.call x s args (s.merge s₂))
  | var {x : Name} {s : Span} : Derives .operand [identifierAt x s] (.var x s)
  | paren {s₁ s₂ : Span} {ts : List (Token Name)} {e : ExprForm} : Derives .sum ts e →
      Derives .operand (symbolAt .openParen s₁ :: (ts ++ [symbolAt .closeParen s₂])) (.paren e)
  | neg {s : Span} {ts : List (Token Name)} {e : ExprForm} : Derives .signed ts e →
      Derives .signed (symbolAt .minus s :: ts) (.neg e (s.merge (lastSpan ts)))
  | unsigned {ts : List (Token Name)} {e : ExprForm} : Derives .operand ts e → Derives .signed ts e
  | power {ts us : List (Token Name)} {e : ExprForm} {rest : List (ArithOp × ExprForm)} :
    Derives .signed ts e → Many (operator [.pow]) (Derives .signed) us rest →
      Derives .power (ts ++ us) (chain e rest)
  | product {ts us : List (Token Name)} {e : ExprForm} {rest : List (ArithOp × ExprForm)} :
    Derives .power ts e → Many (operator [.mul, .div]) (Derives .power) us rest →
      Derives .product (ts ++ us) (chain e rest)
  | sum {ts us : List (Token Name)} {e : ExprForm} {rest : List (ArithOp × ExprForm)} :
    Derives .product ts e → Many (operator [.add, .sub]) (Derives .product) us rest →
      Derives .sum (ts ++ us) (chain e rest)

end ExprForm

/-! ## Predicates -/

/-- The word of a connective. -/
def LogicOp.keyword : LogicOp → Keyword
  | .and => .e
  | .or => .ou
  | .xor => .xor

/-- The sign of a relation. -/
def RelOp.symbol : RelOp → Symbol
  | .eq => .equal
  | .ne => .notEqual
  | .lt => .less
  | .le => .lessEqual
  | .gt => .greater
  | .ge => .greaterEqual

/-- A predicate as it is written. -/
inductive PredForm where
  | lit (value : Bool) (span : Span)
  | paren (inner : PredForm)
  | rel (op : RelOp) (left right : ExprForm)
  | not (operand : PredForm) (span : Span)
  | logic (op : LogicOp) (left right : PredForm)

/-- The levels of predicates, from the tightest to the loosest. -/
inductive PredLevel where
  | atom | negated | and | xor | or
  deriving DecidableEq

namespace PredForm

/-- A given connective, by its word. -/
def connective (expected : LogicOp) (kind : TokenKind Name) (op : LogicOp) : Prop :=
  op = expected ∧ kind = .keyword op.keyword

/-- Predicates of one level, grouped to the left. -/
def chain (first : PredForm) (rest : List (LogicOp × PredForm)) : PredForm :=
  rest.foldl (fun left (op, right) => .logic op left right) first

/-- The tokens of a predicate of a level, and its form. -/
inductive Derives : PredLevel → List (Token Name) → PredForm → Prop
  | true {s : Span} : Derives .atom [keywordAt .verdadeiro s] (.lit true s)
  | false {s : Span} : Derives .atom [keywordAt .falso s] (.lit false s)
  | paren {s₁ s₂ : Span} {ts : List (Token Name)} {p : PredForm} : Derives .or ts p →
      Derives .atom (symbolAt .openParen s₁ :: (ts ++ [symbolAt .closeParen s₂])) (.paren p)
  | rel {op : RelOp} {s : Span} {ts us : List (Token Name)} {l r : ExprForm} :
    ExprForm.Derives .sum ts l → ExprForm.Derives .sum us r →
      Derives .atom (ts ++ symbolAt op.symbol s :: us) (.rel op l r)
  | not {s : Span} {ts : List (Token Name)} {p : PredForm} : Derives .negated ts p →
      Derives .negated (keywordAt .nao s :: ts) (.not p (s.merge (lastSpan ts)))
  | plain {ts : List (Token Name)} {p : PredForm} : Derives .atom ts p → Derives .negated ts p
  | and {ts us : List (Token Name)} {p : PredForm} {rest : List (LogicOp × PredForm)} :
    Derives .negated ts p → Many (connective .and) (Derives .negated) us rest →
      Derives .and (ts ++ us) (chain p rest)
  | xor {ts us : List (Token Name)} {p : PredForm} {rest : List (LogicOp × PredForm)} :
    Derives .and ts p → Many (connective .xor) (Derives .and) us rest →
      Derives .xor (ts ++ us) (chain p rest)
  | or {ts us : List (Token Name)} {p : PredForm} {rest : List (LogicOp × PredForm)} :
    Derives .xor ts p → Many (connective .or) (Derives .xor) us rest →
      Derives .or (ts ++ us) (chain p rest)

end PredForm

/-! ## Commands -/

/-- The label of a case as it is written, with its span. -/
structure CaseLabel where
  negative : Bool
  magnitude : UInt32
  span : Span

/-- The tokens of a label: a number, with its sign if it has one. -/
inductive CaseLabel.Derives : List (Token Name) → CaseLabel → Prop
  | positive {m : UInt32} {s : Span} : Derives [integerAt m s] ⟨false, m, s⟩
  | negative {m : UInt32} {s s₁ : Span} :
      Derives [symbolAt .minus s, integerAt m s₁] ⟨true, m, s.merge s₁⟩

/-- A command as it is written. What is left out is kept as the empty span at which it would
stand. -/
inductive CommandForm where
  | skip (span : Span)
  | assign (target : Name) (value : ExprForm) (span : Span)
  | block (body : List CommandForm) (span : Span)
  | cond (test : PredForm) (body : CommandForm) (others : List (PredForm × CommandForm))
      (last : CommandForm) (span : Span)
  /-- A conditional without `senao`. -/
  | condOnly (test : PredForm) (body : CommandForm) (others : List (PredForm × CommandForm))
      (gap : Span) (span : Span)
  | loop (test : PredForm) (body : CommandForm) (span : Span)
  | count (var : Name) (start stop step : ExprForm) (body : CommandForm) (span : Span)
  /-- A counting loop without `passo`. -/
  | countOnes (var : Name) (start stop : ExprForm) (gap : Span) (body : CommandForm) (span : Span)
  | switch (selector : ExprForm) (cases : List (CaseLabel × CommandForm)) (default : CommandForm)
      (span : Span)
  | printInt (value : ExprForm) (span : Span)
  | printText (text : Name) (span : Span)

/-- The empty span at the end of the last token. -/
def Grammar.gapAfter (ts : List (Token Name)) : Span := .point (lastSpan ts).stop

mutual

/-- The tokens of a command, and its form: its span runs from its first token to its last. -/
inductive CommandForm.Derives : List (Token Name) → CommandForm → Prop
  | intro {ts : List (Token Name)} {shape : Span → CommandForm} : CommandForm.Shape ts shape →
      CommandForm.Derives ts (shape (wholeSpan ts))

/-- The tokens of a command, and its form without its span. -/
inductive CommandForm.Shape : List (Token Name) → (Span → CommandForm) → Prop
  | assign {x : Name} {s s₁ : Span} {ts : List (Token Name)} {e : ExprForm} :
    ExprForm.Derives .sum ts e →
      CommandForm.Shape (identifierAt x s :: symbolAt .assign s₁ :: ts) (.assign x e)
  | skip {s : Span} : CommandForm.Shape [keywordAt .skip s] .skip
  | cond {s s₁ : Span} {ts us vs : List (Token Name)} {test : PredForm} {body last : CommandForm}
      {others : List (Unit × (PredForm × CommandForm))} :
    CommandForm.Branch ts (test, body) →
    Many (just (.keyword .senaose)) CommandForm.Branch us others → CommandForm.Derives vs last →
      CommandForm.Shape (keywordAt .se s :: (ts ++ (us ++ keywordAt .senao s₁ :: vs)))
        (.cond test body (others.map Prod.snd) last)
  | condOnly {s : Span} {ts us : List (Token Name)} {test : PredForm} {body : CommandForm}
      {others : List (Unit × (PredForm × CommandForm))} :
    CommandForm.Branch ts (test, body) →
    Many (just (.keyword .senaose)) CommandForm.Branch us others →
      CommandForm.Shape (keywordAt .se s :: (ts ++ us))
        (.condOnly test body (others.map Prod.snd) (gapAfter (ts ++ us)))
  | loop {s s₁ : Span} {ts us : List (Token Name)} {test : PredForm} {body : CommandForm} :
    PredForm.Derives .or ts test → CommandForm.Derives us body →
      CommandForm.Shape (keywordAt .enquanto s :: (ts ++ keywordAt .faca s₁ :: us))
        (.loop test body)
  | count {x : Name} {s s₁ s₂ s₃ s₄ s₅ : Span} {ts us vs ws : List (Token Name)}
      {start stop step : ExprForm} {body : CommandForm} :
    ExprForm.Derives .sum ts start → ExprForm.Derives .sum us stop →
    ExprForm.Derives .sum vs step → CommandForm.Derives ws body →
      CommandForm.Shape (keywordAt .para s :: identifierAt x s₁ :: keywordAt .de s₂ ::
        (ts ++ keywordAt .ate s₃ :: (us ++ keywordAt .passo s₄ ::
          (vs ++ keywordAt .faca s₅ :: ws)))) (.count x start stop step body)
  | countOnes {x : Name} {s s₁ s₂ s₃ s₄ : Span} {ts us ws : List (Token Name)}
      {start stop : ExprForm} {body : CommandForm} :
    ExprForm.Derives .sum ts start → ExprForm.Derives .sum us stop → CommandForm.Derives ws body →
      CommandForm.Shape (keywordAt .para s :: identifierAt x s₁ :: keywordAt .de s₂ ::
        (ts ++ keywordAt .ate s₃ :: (us ++ keywordAt .faca s₄ :: ws)))
        (.countOnes x start stop (gapAfter us) body)
  | switch {s s₁ s₂ : Span} {ts us vs : List (Token Name)} {selector : ExprForm}
      {cases : List (Unit × (CaseLabel × CommandForm))} {default : CommandForm} :
    ExprForm.Derives .sum ts selector → Many (just (.keyword .caso)) CommandForm.Case us cases →
    CommandForm.Derives vs default →
      CommandForm.Shape (keywordAt .escolha s :: (ts ++ (us ++ keywordAt .outro s₁ ::
        symbolAt .colon s₂ :: vs))) (.switch selector (cases.map Prod.snd) default)
  | printInt {s : Span} {ts : List (Token Name)} {e : ExprForm} : ExprForm.Derives .sum ts e →
      CommandForm.Shape (keywordAt .escreva s :: ts) (.printInt e)
  | printText {s s₁ : Span} {x : Name} :
      CommandForm.Shape [keywordAt .exiba s, ⟨.text x, s₁⟩] (.printText x)
  | block {s s₁ : Span} {ts : List (Token Name)} {body : List CommandForm} :
    SepBy (.symbol .semicolon) CommandForm.Derives ts body →
      CommandForm.Shape (symbolAt .openBrace s :: (ts ++ [symbolAt .closeBrace s₁])) (.block body)

/-- A test, `entao`, and the command that it guards. -/
inductive CommandForm.Branch : List (Token Name) → PredForm × CommandForm → Prop
  | intro {s : Span} {ts us : List (Token Name)} {test : PredForm} {body : CommandForm} :
    PredForm.Derives .or ts test → CommandForm.Derives us body →
      CommandForm.Branch (ts ++ keywordAt .entao s :: us) (test, body)

/-- A label, a colon, and the command of the case. -/
inductive CommandForm.Case : List (Token Name) → CaseLabel × CommandForm → Prop
  | intro {s : Span} {ts us : List (Token Name)} {label : CaseLabel} {body : CommandForm} :
    CaseLabel.Derives ts label → CommandForm.Derives us body →
      CommandForm.Case (ts ++ symbolAt .colon s :: us) (label, body)

end

/-! ## Programs -/

/-- An instruction as it is written. The span of a declaration is that of its header. -/
inductive InstructionForm where
  | command (command : CommandForm)
  | declare (name : Name) (params : List Name) (body : ExprForm) (span : Span)

/-- A name on its own. -/
inductive Grammar.Identifier : List (Token Name) → Name → Prop
  | intro {x : Name} {s : Span} : Identifier [identifierAt x s] x

/-- The tokens of an instruction, and its form. -/
inductive InstructionForm.Derives : List (Token Name) → InstructionForm → Prop
  | command {ts : List (Token Name)} {c : CommandForm} : CommandForm.Derives ts c →
      Derives ts (.command c)
  | declare {x : Name} {s s₁ s₂ s₃ s₄ : Span} {ts us : List (Token Name)} {params : List Name}
      {body : ExprForm} : Listed Identifier ts params → ExprForm.Derives .sum us body →
      Derives (keywordAt .definition s :: identifierAt x s₁ :: symbolAt .openParen s₂ ::
        (ts ++ symbolAt .closeParen s₃ :: symbolAt .equal s₄ :: us))
        (.declare x params body (s.merge s₄))

/-- A program as it is written. -/
abbrev ProgramForm := List InstructionForm

/-- The tokens of a program, without the end of file, and its form. -/
def ProgramForm.Derives : List (Token Name) → ProgramForm → Prop :=
  SepBy (.symbol .semicolon) InstructionForm.Derives

/-- The tokens of a list that are read: those before its first end of file. -/
def Grammar.readable (tokens : List (Token Name)) : List (Token Name) :=
  tokens.takeWhile (!·.isEndOfFile)

end Enquanto

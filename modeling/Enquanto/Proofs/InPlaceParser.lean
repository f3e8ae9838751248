import Enquanto.Program.Parser

/-!
# Parsing in place

The parser of this module reads what the parser of programs reads, but it keeps no trees: it adds
each node to the arena as soon as its parts are there, and each function to its table as soon as its
header is read. What a production gives is the id of its node.

Where the grammar is in doubt, a first reading may have added nodes before it fails. A snapshot
records no more than a position in the tokens and the sizes of the tables of the arena, and going
back to it moves the cursor and cuts the tables.

* `Draft`: the parts of a module that is being built, `Draft.snapshot` and `Draft.restore`;
* `Drafting.tryParse`: a reading whose failure is undone;
* `Drafting.expr`, `Drafting.pred`, `Drafting.command` and `Drafting.program`: the productions;
* `Drafting.parse` reads a token list as a module.
-/

namespace Enquanto

/-- A place in the tokens, and the parts of the module that are there so far. -/
structure Draft where
  cursor : Cursor
  arena : Arena := {}
  functions : Functions := {}
  scopes : Scopes := .initial
  /-- The scope of new variables. -/
  scope : ScopeId := .root

/-- What is recorded before a first reading. -/
structure Snapshot where
  position : Nat
  mark : Arena.Mark

namespace Draft

def snapshot (d : Draft) : Snapshot := ⟨d.cursor.position, d.arena.mark⟩

/-- Back to a snapshot. The functions and the scopes stay as they are. -/
def restore (d : Draft) (s : Snapshot) : Draft :=
  { d with cursor := d.cursor.moveTo s.position, arena := d.arena.truncate s.mark }

end Draft

/-- The number of parameters of a function, and 0 where there is none. -/
def Functions.arity (fs : Functions) (id : FunctionId) : Nat :=
  ((fs.get? id).map Function.arity).getD 0

/-- The span of an expression of the arena. -/
def Arena.exprSpan (a : Arena) (id : ExprId) : Span := ((a.expr? id).map Located.span).getD .nowhere

/-- The span of a predicate of the arena. -/
def Arena.predSpan (a : Arena) (id : PredId) : Span := ((a.pred? id).map Located.span).getD .nowhere

/-- A parser that works on a draft. A failure leaves the draft as it was then. -/
abbrev Drafting := EStateM ParseError Draft

namespace Drafting

open Enquanto.Parser

variable {α β ι ω : Type}

/-- Reads tokens, and adds nothing. -/
def read (p : Parser α) : Drafting α := fun d =>
  match p d.cursor with
  | .ok (a, cursor) => .ok a { d with cursor }
  | .error e => .error e d

/-- Adds to the arena. -/
def add (lay : Arena → ι × Arena) : Drafting ι := fun d =>
  let (id, arena) := lay d.arena
  .ok id { d with arena }

/-- A first reading. If it fails, the draft goes back to where it was. -/
def tryParse (first : Drafting α) : Drafting (Option α) := fun d =>
  match first d with
  | .ok a d' => .ok (some a) d'
  | .error _ d' => .ok none (d'.restore d.snapshot)

/-! ## Repetition -/

/-- Items as long as the current token announces one, but no more than `bound` has entries. -/
def manyUpTo (announces : TokenKind Name → Option β) (item : β → Drafting ι) :
    (bound : List (Token Name)) → Drafting (List ι)
  | [] => return []
  | _ :: bound => do
    match announces (← read current).kind with
    | none => return []
    | some b => do
      read advance
      let id ← item b
      let ids ← manyUpTo announces item bound
      return id :: ids

def many (announces : TokenKind Name → Option β) (item : β → Drafting ι) : Drafting (List ι) := do
  manyUpTo announces item (← get).cursor.ahead

/-- One item or more, with a token of class `k` between each two. -/
def sepBy (k : TokenClass) (item : Drafting ι) : Drafting (List ι) := do
  let first ← item
  let rest ← many (on k) fun _ => item
  return first :: rest

/-- A part that may be there, after the token that announces it, or what stands for it. -/
def optional (k : TokenClass) (given implicit : Drafting ι) : Drafting ι := do
  if ← read (eat k) then given else implicit

/-- Operators of one level and their right operands, no more than `bound` has entries. Each is
joined with what stands to its left as soon as it is read. -/
def chainUpTo (operator : TokenKind Name → Option ω) (join : ω → ι → ι → Drafting ι)
    (operand : Drafting ι) : (bound : List (Token Name)) → (left : ι) → Drafting ι
  | [], left => return left
  | _ :: bound, left => do
    match operator (← read current).kind with
    | none => return left
    | some op => do
      read advance
      let right ← operand
      let joined ← join op left right
      chainUpTo operator join operand bound joined

def chainLeft (operator : TokenKind Name → Option ω) (join : ω → ι → ι → Drafting ι)
    (operand : Drafting ι) : Drafting ι := do
  let first ← operand
  chainUpTo operator join operand (← get).cursor.ahead first

/-! ## Expressions -/

/-- An operator between two expressions. It spans what the nodes of both do. -/
def arith (op : ArithOp) (left right : ExprId) : Drafting ExprId :=
  add fun a => a.addExpr (.arith op left right) ((a.exprSpan left).merge (a.exprSpan right))

section
variable (names : Names)

/-- The arguments of a call, after its parenthesis. -/
def arguments (nested : Drafting ExprId) : Drafting (List ExprId) := do
  if ← read (check (.symbol .closeParen)) then return [] else sepBy (.symbol .comma) nested

/-- A call of `name`, whose token is the current one and is followed by `(`. It leads to the latest
function of that name. -/
def call (nested : Drafting ExprId) (name : Name) (start : Span) : Drafting ExprId := do
  read advance
  match (← get).functions.resolve name with
  | none => throw ⟨.undefinedFunction (names.text name), start⟩
  | some function => do
    let _ ← read (symbol .openParen)
    let args ← arguments nested
    let _ ← read (expectAs (.symbol .closeParen) "`,` or `)`")
    let span ← read (spanFrom start)
    let d ← get
    if args.length = d.functions.arity function then add fun a => a.addCall function args span
    else throw ⟨.arity ⟨names.text name, d.functions.arity function, args.length⟩, span⟩

/-- An operand: a literal, `leia`, a call, a variable, or an expression in parentheses. -/
def operand (nested : Drafting ExprId) : Drafting ExprId := do
  let token ← read current
  match token.kind with
  | .integer magnitude => do
    read advance
    let value ← read (literal false magnitude token.span)
    add fun a => a.addExpr (.int value) token.span
  | .keyword .leia => do
    read advance
    add fun a => a.addExpr .read token.span
  | .identifier name => do
    if (← get).cursor.nextClass = .symbol .openParen then call names nested name token.span
    else
      read advance
      let scope := (← get).scope
      add fun a => a.addExpr (.var name scope) token.span
  | .symbol .openParen => do
    read advance
    let inner ← nested
    let _ ← read (symbol .closeParen)
    return inner
  | _ => read (unexpected "expression")

/-- What stands behind signs, with the signs that are left: the innermost one joins a literal that
needs it. -/
def innermost (nested : Drafting ExprId) (signs : List Span) : Drafting (List Span × ExprId) := do
  let token ← read current
  match signs.getLast?, token.kind with
  | some sign, .integer magnitude =>
    if magnitude = Expr.leastMagnitude then
      read advance
      let id ← add fun a => a.addExpr (.int Int32.minValue) (sign.merge token.span)
      return (signs.dropLast, id)
    else
      let id ← operand names nested
      return (signs, id)
  | _, _ => do
    let id ← operand names nested
    return (signs, id)

/-- An operand with any number of signs before it. -/
def signed (nested : Drafting ExprId) : Drafting ExprId := do
  let signs ← read (Parser.many (on (.symbol .minus)) fun _ => lastSpan)
  let (signs, inner) ← innermost names nested signs
  let stop ← read lastSpan
  signs.foldrM (fun sign id => add fun a => a.addExpr (.neg id) (sign.merge stop)) inner

/-- A sum, over the parser of nested expressions. -/
def sum (nested : Drafting ExprId) : Drafting ExprId :=
  chainLeft Expr.sumOp arith <| chainLeft Expr.productOp arith <| chainLeft Expr.powerOp arith <|
    signed names nested

/-- An expression nested less deep than `bound` has entries. -/
def exprUpTo : (bound : List (Token Name)) → Drafting ExprId
  | [] => read (unexpected "expression")
  | _ :: bound => fun d => sum names (exprUpTo bound) d

def expr : Drafting ExprId := do
  exprUpTo names (← get).cursor.ahead

end

/-! ## Predicates -/

/-- A connective between two predicates. It spans what the nodes of both do. -/
def logic (op : LogicOp) (left right : PredId) : Drafting PredId :=
  add fun a => a.addPred (.logic op left right) ((a.predSpan left).merge (a.predSpan right))

/-- A relation between two expressions. It spans what the nodes of both do. -/
def rel (op : RelOp) (left right : ExprId) : Drafting PredId :=
  add fun a => a.addPred (.rel op left right) ((a.exprSpan left).merge (a.exprSpan right))

section
variable (names : Names)

def relation : Drafting PredId := do
  let left ← expr names
  match Pred.relOp (← read current).kind with
  | none => read (unexpected "relational operator")
  | some op => do
    read advance
    let right ← expr names
    rel op left right

/-- A predicate in parentheses. -/
def parenthesised (nested : Drafting PredId) : Drafting PredId := do
  let _ ← read (symbol .openParen)
  let inner ← nested
  let _ ← read (symbol .closeParen)
  return inner

/-- An atom: a truth value, a predicate in parentheses, or a relation. What a parenthesis opens is
tried as a predicate first. -/
def atom (nested : Drafting PredId) : Drafting PredId := do
  let token ← read current
  match token.kind with
  | .keyword .verdadeiro => do
    read advance
    add fun a => a.addPred (.lit true) token.span
  | .keyword .falso => do
    read advance
    add fun a => a.addPred (.lit false) token.span
  | .symbol .openParen => do
    match ← tryParse (parenthesised nested) with
    | some inner => return inner
    | none => relation names
  | _ => relation names

/-- An atom with any number of `nao` before it. -/
def negated (nested : Drafting PredId) : Drafting PredId := do
  let signs ← read (Parser.many (on (.keyword .nao)) fun _ => lastSpan)
  let inner ← atom names nested
  let stop ← read lastSpan
  signs.foldrM (fun sign id => add fun a => a.addPred (.not id) (sign.merge stop)) inner

/-- A disjunction, over the parser of nested predicates. -/
def disjunction (nested : Drafting PredId) : Drafting PredId :=
  chainLeft Pred.orOp logic <| chainLeft Pred.xorOp logic <| chainLeft Pred.andOp logic <|
    negated names nested

/-- A predicate nested less deep than `bound` has entries. -/
def predUpTo : (bound : List (Token Name)) → Drafting PredId
  | [] => read (unexpected "expression")
  | _ :: bound => fun d => disjunction names (predUpTo bound) d

def pred : Drafting PredId := do
  predUpTo names (← get).cursor.ahead

end

/-! ## Commands -/

/-- What is added for a command once its span is known. -/
abbrev Shape := Span → Arena → CommandId × Arena

section
variable (names : Names)

def assign : Drafting Shape := do
  let (target, _) ← read identifier
  let _ ← read (symbol .assign)
  let value ← expr names
  let scope := (← get).scope
  return fun span a => a.addCommand (.assign target scope value) span

def block (nested : Drafting CommandId) : Drafting Shape := do
  let _ ← read (symbol .openBrace)
  let body ← sepBy (.symbol .semicolon) nested
  let _ ← read (expectAs (.symbol .closeBrace) "`;` or `\x7d`")
  return fun span a => a.addBlock body span

/-- A test and the command that it guards. -/
def branch (nested : Drafting CommandId) : Drafting (PredId × CommandId) := do
  let test ← pred names
  let _ ← read (keyword .entao)
  let body ← nested
  return (test, body)

/-- A command that is left out. -/
def implicitSkip : Drafting CommandId := do
  let here ← read Command.hereSpan
  add fun a => a.addCommand .skip here

def cond (nested : Drafting CommandId) : Drafting Shape := do
  let _ ← read (keyword .se)
  let (test, body) ← branch names nested
  let others ← many (on (.keyword .senaose)) fun _ => branch names nested
  let last ← optional (.keyword .senao) nested implicitSkip
  return fun span a => a.addCond test body others last span

def loop (nested : Drafting CommandId) : Drafting Shape := do
  let _ ← read (keyword .enquanto)
  let test ← pred names
  let _ ← read (keyword .faca)
  let body ← nested
  return fun span a => a.addCommand (.loop test body) span

/-- A step that is left out. -/
def implicitOne : Drafting ExprId := do
  let here ← read Command.hereSpan
  add fun a => a.addExpr (.int 1) here

def count (nested : Drafting CommandId) : Drafting Shape := do
  let _ ← read (keyword .para)
  let (var, _) ← read identifier
  let _ ← read (keyword .de)
  let start ← expr names
  let _ ← read (keyword .ate)
  let stop ← expr names
  let step ← optional (.keyword .passo) (expr names) implicitOne
  let _ ← read (keyword .faca)
  let body ← nested
  let scope := (← get).scope
  return fun span a => a.addCommand (.count var scope start stop step body) span

/-- A case after its `caso`: a literal that may have a sign, and a command. -/
def switchCase (nested : Drafting CommandId) : Drafting (Int32 × CommandId) := do
  let start := (← read current).span
  let negative ← read (eat (.symbol .minus))
  let (magnitude, _) ← read integer
  let span ← read (spanFrom start)
  let value ← read (literal negative magnitude span)
  let _ ← read (symbol .colon)
  let body ← nested
  return (value, body)

def switch (nested : Drafting CommandId) : Drafting Shape := do
  let _ ← read (keyword .escolha)
  let selector ← expr names
  let cases ← many (on (.keyword .caso)) fun _ => switchCase nested
  let _ ← read (expectAs (.keyword .outro) "`caso` or `outro`")
  let _ ← read (symbol .colon)
  let default ← nested
  return fun span a => a.addSwitch selector cases default span

/-- A command without its span, over the parser of nested commands. -/
def shape (nested : Drafting CommandId) : Drafting Shape := do
  match (← read current).kind with
  | .identifier _ => assign names
  | .keyword .skip => do
    read advance
    return fun span a => a.addCommand .skip span
  | .keyword .se => cond names nested
  | .keyword .enquanto => loop names nested
  | .keyword .para => count names nested
  | .keyword .escolha => switch names nested
  | .keyword .escreva => do
    read advance
    let value ← expr names
    return fun span a => a.addCommand (.printInt value) span
  | .keyword .exiba => do
    read advance
    let (text, _) ← read textLiteral
    return fun span a => a.addCommand (.printText text) span
  | .symbol .openBrace => block nested
  | _ => read (unexpected "command")

/-- A command nested less deep than `bound` has entries. -/
def commandUpTo : (bound : List (Token Name)) → Drafting CommandId
  | [] => read (unexpected "command")
  | _ :: bound => do
    let start := (← read current).span
    let lay ← shape names fun d => commandUpTo bound d
    let span ← read (spanFrom start)
    add (lay span)

def command : Drafting CommandId := do
  commandUpTo names (← get).cursor.ahead

end

/-! ## Programs -/

/-- Adds a scope below the current one. -/
def addScope : Drafting ScopeId := fun d =>
  let (scope, scopes) := d.scopes.add d.scope
  .ok scope { d with scopes }

/-- Adds a function that has no body yet. -/
def declare (name : Name) (params : List Name) (scope : ScopeId) (span : Span) :
    Drafting FunctionId := fun d =>
  let (id, functions) := d.functions.declare name params scope span
  .ok id { d with functions }

def setBody (id : FunctionId) (body : ExprId) : Drafting Unit :=
  modify fun d => { d with functions := d.functions.setBody id body }

/-- Works in another scope, and goes back to the current one, also after a failure. -/
def inScope (scope : ScopeId) (work : Drafting α) : Drafting α := fun d =>
  match work { d with scope } with
  | .ok a d' => .ok a { d' with scope := d.scope }
  | .error e d' => .error e { d' with scope := d.scope }

section
variable (names : Names)

/-- A function, which is declared before its body is read. -/
def declaration : Drafting FunctionId := do
  let (name, params, span) ← read Program.headerParser
  let scope ← addScope
  let id ← declare name params scope span
  let body ← inScope scope (expr names)
  setBody id body
  return id

def instruction : Drafting Step := do
  if ← read (check (.keyword .definition)) then
    let id ← declaration names
    return .declare id
  else
    let id ← command names
    return .command id

/-- Instructions with `;` between them, no more than `bound` has entries. -/
def instructionsUpTo : (bound : List (Token Name)) → Drafting (List Step)
  | [] => read (unexpected "command")
  | _ :: bound => do
    let first ← instruction names
    if ← read (eat (.symbol .semicolon)) then
      let rest ← instructionsUpTo bound
      return first :: rest
    else return [first]

/-- A whole program, up to the end of file. -/
def program : Drafting (List Step) := do
  if (← get).cursor.isAtEnd then return []
  else
    let steps ← instructionsUpTo names (← get).cursor.ahead
    let _ ← read (expectAs .endOfFile "`;` or end of file")
    return steps

/-- Reads a token list as a module. -/
def parse (tokens : List (Token Name)) : Except ParseError Module :=
  match program names { cursor := .ofTokens tokens } with
  | .ok steps d => .ok ⟨d.arena, d.functions, d.scopes, steps.toArray⟩
  | .error e _ => .error e

end

end Drafting

end Enquanto

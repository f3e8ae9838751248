import Enquanto.Expr.Parser
import Enquanto.Pred

/-!
# Reading predicates

From loose to tight, a predicate is made of `ou`, then `xor`, then `e`, then `nao`, then atoms; all
connectives group to the left. A parenthesis at the start of an atom may open a predicate or the
left side of a relation. It is read as a predicate first; if that fails, for whatever reason, it is
read as a relation, and only that error is reported.
-/

namespace Enquanto.Pred

open Enquanto.Parser

def relOp : TokenKind Name → Option RelOp
  | .symbol .equal => some .eq
  | .symbol .notEqual => some .ne
  | .symbol .less => some .lt
  | .symbol .lessEqual => some .le
  | .symbol .greater => some .gt
  | .symbol .greaterEqual => some .ge
  | _ => none

/-- A relation between two expressions. -/
def relationParser (ctx : Context) : Parser Pred := do
  let left ← Expr.parser ctx
  match relOp (← current).kind with
  | none => unexpected "relational operator"
  | some op => do
    advance
    let right ← Expr.parser ctx
    return relation op left right

/-- A predicate in parentheses. -/
def parenthesised (nested : Parser Pred) : Parser Pred := do
  let _ ← symbol .openParen
  let inner ← nested
  let _ ← symbol .closeParen
  return inner

/-- An atom: a truth value, a predicate in parentheses, or a relation. -/
def atom (ctx : Context) (nested : Parser Pred) : Parser Pred := do
  let token ← current
  match token.kind with
  | .keyword .verdadeiro => do
    advance
    return .lit true token.span
  | .keyword .falso => do
    advance
    return .lit false token.span
  | .symbol .openParen => orElse (parenthesised nested) (relationParser ctx)
  | _ => relationParser ctx

/-- An atom with any number of `nao` before it. Each reaches to the end of the atom. -/
def negated (ctx : Context) (nested : Parser Pred) : Parser Pred := do
  let signs ← many (on (.keyword .nao)) fun _ => lastSpan
  let inner ← atom ctx nested
  let stop ← lastSpan
  return signs.foldr (fun sign p => .not p (sign.merge stop)) inner

def andOp : TokenKind Name → Option LogicOp
  | .keyword .e => some .and
  | _ => none

def xorOp : TokenKind Name → Option LogicOp
  | .keyword .xor => some .xor
  | _ => none

def orOp : TokenKind Name → Option LogicOp
  | .keyword .ou => some .or
  | _ => none

/-- A disjunction, over the parser of nested predicates. -/
def disjunction (ctx : Context) (nested : Parser Pred) : Parser Pred :=
  chainLeft orOp binary <| chainLeft xorOp binary <| chainLeft andOp binary <| negated ctx nested

/-- A predicate nested less deep than `bound` has entries. -/
def parserUpTo (ctx : Context) : (bound : List (Token Name)) → Parser Pred
  | [] => unexpected "expression"
  | _ :: bound => fun c => disjunction ctx (parserUpTo ctx bound) c

/-- A predicate. It takes a token to nest one deeper, so the tokens ahead bound the depth. -/
def parser (ctx : Context) : Parser Pred := do
  parserUpTo ctx (← get).ahead

end Enquanto.Pred

import Enquanto.Expr.Parser
import Enquanto.Proofs.Grammar

/-!
# From forms to trees

The rules that a form has to satisfy beyond the grammar, and the tree that it stands for.

* `Admissible`: literals and labels have 32 bits once their sign is applied, and a call has as many
  arguments as the latest function of its name declared before it has parameters;
* `tree`: parentheses leave no trace, a sign joins the literal 2147483648 right after it, a missing
  `senao` is `skip` and a missing `passo` is 1;
* `CommandForm.Nearest`: of the forms that the grammar gives the same tokens, the one in which each
  `senaose` and `senao` belongs to the nearest conditional that is still open.

All are relative to the functions declared so far, the latest first.
-/

namespace Enquanto

/-- The latest declaration of `name` has `arity` parameters. -/
def Signature.Declares (declared : List Signature) (name : Name) (arity : Nat) : Prop :=
  (declared.find? (·.name == name)).map Signature.arity = some arity

/-- The number of the latest function called `name`: how many were declared before it. -/
def Signature.callee (declared : List Signature) (name : Name) : FunctionId :=
  ⟨(declared.dropWhile (·.name != name)).tail.length⟩

/-- Resolving a name finds its latest declaration. -/
theorem Context.resolve_eq_some_iff {ctx : Context} {name : Name} {f : FunctionId} {arity : Nat} :
    ctx.resolve name = some (f, arity) ↔
      Signature.Declares ctx.declared name arity ∧ f = Signature.callee ctx.declared name := by
  unfold resolve Signature.Declares Signature.callee
  induction ctx.declared with
  | nil => simp [resolve.go]
  | cons s earlier ih =>
    by_cases h : s.name = name
    · simp only [resolve.go, h, if_true, Option.some.injEq, Prod.mk.injEq, List.find?_cons,
        beq_self_eq_true, Option.map_some, List.dropWhile_cons, bne_self_eq_false,
        Bool.false_eq_true, if_false, List.tail_cons]
      exact ⟨fun ⟨hf, ha⟩ => ⟨ha, hf.symm⟩, fun ⟨ha, hf⟩ => ⟨hf.symm, ha⟩⟩
    · simpa [resolve.go, h, List.find?_cons, List.dropWhile_cons, beq_eq_false_iff_ne.mpr h]
        using ih

/-! ## Expressions -/

namespace ExprForm

/-- The literal that only a sign right before it makes a value. -/
def isLeast : ExprForm → Bool
  | .int m _ => m == 2147483648
  | _ => false

mutual

/-- The literals of an expression are values and its calls are resolved. -/
def Admissible (declared : List Signature) : ExprForm → Prop
  | .int m _ => m.toNat ≤ 2147483647
  | .read _ => True
  | .call x _ args _ => Signature.Declares declared x args.length ∧ AdmissibleAll declared args
  | .var _ _ => True
  | .paren e => Admissible declared e
  | .neg e _ => e.isLeast ∨ Admissible declared e
  | .arith _ l r => Admissible declared l ∧ Admissible declared r

def AdmissibleAll (declared : List Signature) : List ExprForm → Prop
  | [] => True
  | e :: es => Admissible declared e ∧ AdmissibleAll declared es

end

mutual

/-- The tree of an expression. -/
def tree (declared : List Signature) : ExprForm → Expr
  | .int m s => .int (Int32.ofInt m.toNat) s
  | .read s => .read s
  | .call x _ args s => .call (Signature.callee declared x) (trees declared args) s
  | .var x s => .var x s
  | .paren e => tree declared e
  | .neg e s => if e.isLeast then .int Int32.minValue s else .neg (tree declared e) s
  | .arith op l r => .binary op (tree declared l) (tree declared r)

def trees (declared : List Signature) : List ExprForm → List Expr
  | [] => []
  | e :: es => tree declared e :: trees declared es

end

theorem admissibleAll_iff {declared : List Signature} {es : List ExprForm} :
    AdmissibleAll declared es ↔ ∀ e ∈ es, Admissible declared e := by
  induction es with
  | nil => simp [AdmissibleAll]
  | cons e es ih => simp [AdmissibleAll, ih]

theorem trees_eq_map (declared : List Signature) (es : List ExprForm) :
    trees declared es = es.map (tree declared) := by
  induction es with
  | nil => rfl
  | cons e es ih => simp [trees, ih]

end ExprForm

/-! ## Predicates -/

namespace PredForm

/-- The expressions of a predicate are admissible. -/
def Admissible (declared : List Signature) : PredForm → Prop
  | .lit _ _ => True
  | .paren p => Admissible declared p
  | .rel _ l r => l.Admissible declared ∧ r.Admissible declared
  | .not p _ => Admissible declared p
  | .logic _ l r => Admissible declared l ∧ Admissible declared r

/-- The tree of a predicate. -/
def tree (declared : List Signature) : PredForm → Pred
  | .lit b s => .lit b s
  | .paren p => tree declared p
  | .rel op l r => .relation op (l.tree declared) (r.tree declared)
  | .not p s => .not (tree declared p) s
  | .logic op l r => .binary op (tree declared l) (tree declared r)

end PredForm

/-! ## Commands -/

namespace CaseLabel

/-- The number that a label stands for. -/
def number (label : CaseLabel) : Int :=
  if label.negative then -(label.magnitude.toNat : Int) else label.magnitude.toNat

/-- The label is a value. -/
def Admissible (label : CaseLabel) : Prop :=
  -2147483648 ≤ label.number ∧ label.number ≤ 2147483647

def value (label : CaseLabel) : Int32 := Int32.ofInt label.number

end CaseLabel

namespace CommandForm

mutual

/-- The expressions and labels of a command are admissible. -/
def Admissible (declared : List Signature) : CommandForm → Prop
  | .skip _ => True
  | .assign _ e _ => e.Admissible declared
  | .block body _ => AdmissibleAll declared body
  | .cond test body others last _ => test.Admissible declared ∧ Admissible declared body ∧
      AdmissibleBranches declared others ∧ Admissible declared last
  | .condOnly test body others _ _ => test.Admissible declared ∧ Admissible declared body ∧
      AdmissibleBranches declared others
  | .loop test body _ => test.Admissible declared ∧ Admissible declared body
  | .count _ start stop step body _ => start.Admissible declared ∧ stop.Admissible declared ∧
      step.Admissible declared ∧ Admissible declared body
  | .countOnes _ start stop _ body _ => start.Admissible declared ∧ stop.Admissible declared ∧
      Admissible declared body
  | .switch selector cases default _ => selector.Admissible declared ∧
      AdmissibleCases declared cases ∧ Admissible declared default
  | .printInt e _ => e.Admissible declared
  | .printText _ _ => True

def AdmissibleAll (declared : List Signature) : List CommandForm → Prop
  | [] => True
  | c :: cs => Admissible declared c ∧ AdmissibleAll declared cs

def AdmissibleBranches (declared : List Signature) : List (PredForm × CommandForm) → Prop
  | [] => True
  | (test, body) :: rest => (test.Admissible declared ∧ Admissible declared body) ∧
      AdmissibleBranches declared rest

def AdmissibleCases (declared : List Signature) : List (CaseLabel × CommandForm) → Prop
  | [] => True
  | (label, body) :: rest => (label.Admissible ∧ Admissible declared body) ∧
      AdmissibleCases declared rest

end

mutual

/-- The tree of a command. -/
def tree (declared : List Signature) : CommandForm → Command
  | .skip s => .skip s
  | .assign x e s => .assign x (e.tree declared) s
  | .block body s => .block (trees declared body) s
  | .cond test body others last s => .cond (test.tree declared) (tree declared body)
      (branchTrees declared others) (tree declared last) s
  | .condOnly test body others gap s => .cond (test.tree declared) (tree declared body)
      (branchTrees declared others) (.skip gap) s
  | .loop test body s => .loop (test.tree declared) (tree declared body) s
  | .count x start stop step body s => .count x (start.tree declared) (stop.tree declared)
      (step.tree declared) (tree declared body) s
  | .countOnes x start stop gap body s => .count x (start.tree declared) (stop.tree declared)
      (.int 1 gap) (tree declared body) s
  | .switch selector cases default s => .switch (selector.tree declared)
      (caseTrees declared cases) (tree declared default) s
  | .printInt e s => .printInt (e.tree declared) s
  | .printText x s => .printText x s

def trees (declared : List Signature) : List CommandForm → List Command
  | [] => []
  | c :: cs => tree declared c :: trees declared cs

def branchTrees (declared : List Signature) :
    List (PredForm × CommandForm) → List (Pred × Command)
  | [] => []
  | (test, body) :: rest => (test.tree declared, tree declared body) :: branchTrees declared rest

def caseTrees (declared : List Signature) :
    List (CaseLabel × CommandForm) → List (Int32 × Command)
  | [] => []
  | (label, body) :: rest => (label.value, tree declared body) :: caseTrees declared rest

end

section
variable {declared : List Signature}

theorem admissibleAll_iff {cs : List CommandForm} :
    AdmissibleAll declared cs ↔ ∀ c ∈ cs, Admissible declared c := by
  induction cs with
  | nil => simp [AdmissibleAll]
  | cons c cs ih => simp [AdmissibleAll, ih]

theorem admissibleBranches_iff {bs : List (PredForm × CommandForm)} :
    AdmissibleBranches declared bs ↔
      ∀ b ∈ bs, b.1.Admissible declared ∧ Admissible declared b.2 := by
  induction bs with
  | nil => simp [AdmissibleBranches]
  | cons b bs ih => simp [AdmissibleBranches, ih]

theorem admissibleCases_iff {cs : List (CaseLabel × CommandForm)} :
    AdmissibleCases declared cs ↔ ∀ c ∈ cs, c.1.Admissible ∧ Admissible declared c.2 := by
  induction cs with
  | nil => simp [AdmissibleCases]
  | cons c cs ih => simp [AdmissibleCases, ih]

theorem trees_eq_map (cs : List CommandForm) : trees declared cs = cs.map (tree declared) := by
  induction cs with
  | nil => rfl
  | cons c cs ih => simp [trees, ih]

theorem branchTrees_eq_map (bs : List (PredForm × CommandForm)) :
    branchTrees declared bs = bs.map fun b => (b.1.tree declared, tree declared b.2) := by
  induction bs with
  | nil => rfl
  | cons b bs ih => simp [branchTrees, ih]

theorem caseTrees_eq_map (cs : List (CaseLabel × CommandForm)) :
    caseTrees declared cs = cs.map fun c => (c.1.value, tree declared c.2) := by
  induction cs with
  | nil => rfl
  | cons c cs ih => simp [caseTrees, ih]

end

/-- Whether a command ends with a conditional to which a `senaose` or `senao` right behind it would
belong. -/
def isOpen : CommandForm → Bool
  | .condOnly _ _ _ _ _ => true
  | .cond _ _ _ last _ => last.isOpen
  | .loop _ body _ => body.isOpen
  | .count _ _ _ _ body _ => body.isOpen
  | .countOnes _ _ _ _ body _ => body.isOpen
  | .switch _ _ default _ => default.isOpen
  | _ => false

mutual

/-- Every `senaose` and `senao` belongs to the nearest conditional that is still open: no command
with one of them behind it is open itself. -/
def Nearest : CommandForm → Prop
  | .block body _ => NearestAll body
  | .cond _ body others last _ => Nearest body ∧ NearestBranches others ∧ Nearest last ∧
      ∀ c ∈ body :: others.map Prod.snd, c.isOpen = false
  | .condOnly _ body others _ _ => Nearest body ∧ NearestBranches others ∧
      ∀ c ∈ (body :: others.map Prod.snd).dropLast, c.isOpen = false
  | .loop _ body _ => Nearest body
  | .count _ _ _ _ body _ => Nearest body
  | .countOnes _ _ _ _ body _ => Nearest body
  | .switch _ cases default _ => NearestCases cases ∧ Nearest default
  | .skip _ => True
  | .assign _ _ _ => True
  | .printInt _ _ => True
  | .printText _ _ => True

def NearestAll : List CommandForm → Prop
  | [] => True
  | c :: cs => Nearest c ∧ NearestAll cs

def NearestBranches : List (PredForm × CommandForm) → Prop
  | [] => True
  | (_, body) :: rest => Nearest body ∧ NearestBranches rest

def NearestCases : List (CaseLabel × CommandForm) → Prop
  | [] => True
  | (_, body) :: rest => Nearest body ∧ NearestCases rest

end

theorem nearestAll_iff {cs : List CommandForm} : NearestAll cs ↔ ∀ c ∈ cs, Nearest c := by
  induction cs with
  | nil => simp [NearestAll]
  | cons c cs ih => simp [NearestAll, ih]

theorem nearestBranches_iff {bs : List (PredForm × CommandForm)} :
    NearestBranches bs ↔ ∀ b ∈ bs, Nearest b.2 := by
  induction bs with
  | nil => simp [NearestBranches]
  | cons b bs ih => simp [NearestBranches, ih]

theorem nearestCases_iff {cs : List (CaseLabel × CommandForm)} :
    NearestCases cs ↔ ∀ c ∈ cs, Nearest c.2 := by
  induction cs with
  | nil => simp [NearestCases]
  | cons c cs ih => simp [NearestCases, ih]

end CommandForm

/-! ## Programs -/

namespace InstructionForm

/-- The functions declared after an instruction. -/
def declares (declared : List Signature) : InstructionForm → List Signature
  | .command _ => declared
  | .declare x params _ _ => ⟨x, params.length⟩ :: declared

/-- The rules for an instruction: a function may call itself. -/
def Admissible (declared : List Signature) : InstructionForm → Prop
  | .command c => c.Admissible declared
  | .declare x params body _ => body.Admissible (⟨x, params.length⟩ :: declared)

/-- The tree of an instruction. -/
def tree (declared : List Signature) : InstructionForm → Instruction
  | .command c => .command (c.tree declared)
  | .declare x params body span =>
    .declare ⟨x, params, body.tree (⟨x, params.length⟩ :: declared), span⟩

def Nearest : InstructionForm → Prop
  | .command c => c.Nearest
  | .declare _ _ _ _ => True

end InstructionForm

namespace ProgramForm

/-- The rules for a program: a declaration counts for all that follows. -/
def Admissible (declared : List Signature) : ProgramForm → Prop
  | [] => True
  | i :: rest => i.Admissible declared ∧ Admissible (i.declares declared) rest

/-- The trees of a program. -/
def tree (declared : List Signature) : ProgramForm → Program
  | [] => []
  | i :: rest => i.tree declared :: tree (i.declares declared) rest

/-- Every `senaose` and `senao` of a program belongs to the nearest open conditional. -/
def Nearest (program : ProgramForm) : Prop := ∀ i ∈ program, i.Nearest

end ProgramForm

end Enquanto

import Enquanto.Interpret
import Enquanto.Proofs.ExprSimulation
import Mathlib.Algebra.MvPolynomial.Eval
import Mathlib.Data.Int.ModEq
import Mathlib.Tactic.Ring

/-!
# Arithmetic that wraps around

Literals, variables, `-`, `+` and `*` write down a polynomial with integer coefficients. Values have
32 bits and every operation on them wraps around, so an expression of this kind has the value of its
polynomial over the integers, up to a multiple of 2³²; where on the way there was an overflow does
not matter.

* `Arena.Denotes`: the polynomial that the nodes below an id write down;
* `Machine.evalExpr_of_denotes`: what its evaluation gives, by induction on the nodes: taking the
  value of an integer commutes with the operations;
* `Machine.evalExpr_modEq`: the value is that of the polynomial modulo 2³², so expressions that are
  the same polynomial have the same value.
-/

namespace Enquanto

open MvPolynomial Run

/-- The expression at an id is made of literals, variables, signs, sums, differences and products,
and this is its polynomial. A variable is a name with the scope that it is looked up in. -/
inductive Arena.Denotes (a : Arena) : ExprId → MvPolynomial (ScopeId × Name) ℤ → Prop
  | int {id : ExprId} {value : Int32} {span : Span} :
    a.expr? id = some ⟨.int value, span⟩ → Denotes a id (C value.toInt)
  | var {id : ExprId} {name : Name} {scope : ScopeId} {span : Span} :
    a.expr? id = some ⟨.var name scope, span⟩ → Denotes a id (X (scope, name))
  | neg {id i : ExprId} {p : MvPolynomial (ScopeId × Name) ℤ} {span : Span} :
    a.expr? id = some ⟨.neg i, span⟩ → Denotes a i p → Denotes a id (-p)
  | add {id l r : ExprId} {p q : MvPolynomial (ScopeId × Name) ℤ} {span : Span} :
    a.expr? id = some ⟨.arith .add l r, span⟩ → Denotes a l p → Denotes a r q →
    Denotes a id (p + q)
  | sub {id l r : ExprId} {p q : MvPolynomial (ScopeId × Name) ℤ} {span : Span} :
    a.expr? id = some ⟨.arith .sub l r, span⟩ → Denotes a l p → Denotes a r q →
    Denotes a id (p - q)
  | mul {id l r : ExprId} {p q : MvPolynomial (ScopeId × Name) ℤ} {span : Span} :
    a.expr? id = some ⟨.arith .mul l r, span⟩ → Denotes a l p → Denotes a r q →
    Denotes a id (p * q)

/-- The integers that an environment gives to variables. -/
def Environment.assignment (env : Environment) (x : ScopeId × Name) : ℤ :=
  (env.lookup x.1 x.2).toInt

/-- The value of an integer differs from it by a multiple of 2³². -/
theorem Int32.toInt_ofInt_modEq (n : ℤ) : (Int32.ofInt n).toInt ≡ n [ZMOD 2 ^ 32] := by
  rw [Int32.toInt_ofInt]
  exact Int.bmod_emod

namespace Machine

variable {m : Machine}

/-- Both operands of an operator are evaluated, and its result has no effect of its own. -/
theorem evalExpr_ends_arith {depth : Nat} {id l r : ExprId} {op : ArithOp} {span : Span} {s : State}
    {x y value : Int32} (hid : m.module.arena.expr? id = some ⟨.arith op l r, span⟩)
    (hl : Ends (fun fuel => m.evalExpr fuel depth l) s (.ok x) s)
    (hr : Ends (fun fuel => m.evalExpr fuel depth r) s (.ok y) s) (h : op.apply x y = some value) :
    Ends (fun fuel => m.evalExpr fuel depth id) s (.ok value) s := by
  refine (hl.bind (hr.bind ?_)).of_succ fun _ => evalExpr_arith hid
  rw [h]
  exact ends_pure

/-- An expression has the value of its polynomial at the integers that the environment gives, and
changes nothing. -/
theorem evalExpr_of_denotes {id : ExprId} {p : MvPolynomial (ScopeId × Name) ℤ}
    (h : m.module.arena.Denotes id p) (depth : Nat) (s : State) :
    Ends (fun fuel => m.evalExpr fuel depth id) s (.ok (Int32.ofInt (eval s.env.assignment p)))
      s := by
  induction h with
  | int hid =>
    rw [eval_C, Int32.ofInt_toInt]
    exact ends_pure.of_succ fun _ => evalExpr_int hid
  | var hid =>
    rw [eval_X, Environment.assignment, Int32.ofInt_toInt]
    exact ends_lookup.of_succ fun _ => evalExpr_var hid
  | neg hid _ ih =>
    rw [map_neg, Int32.ofInt_neg]
    refine (ih.bind ?_).of_succ fun _ => evalExpr_neg hid
    exact ends_pure
  | add hid _ _ ihl ihr =>
    rw [map_add, Int32.ofInt_add]
    exact evalExpr_ends_arith hid ihl ihr rfl
  | sub hid _ _ ihl ihr =>
    rw [map_sub, Int32.ofInt_sub]
    exact evalExpr_ends_arith hid ihl ihr rfl
  | mul hid _ _ ihl ihr =>
    rw [map_mul, Int32.ofInt_mul]
    exact evalExpr_ends_arith hid ihl ihr rfl

/-- Evaluation gives the value of the polynomial modulo 2³², from every state and without changing
it. Two expressions with the same polynomial, be they in different modules, have the same value in
every environment. -/
theorem evalExpr_modEq {id : ExprId} {p : MvPolynomial (ScopeId × Name) ℤ}
    (h : m.module.arena.Denotes id p) :
    (∀ depth s, ∃ value : Int32, value.toInt ≡ eval s.env.assignment p [ZMOD 2 ^ 32] ∧
      Ends (fun fuel => m.evalExpr fuel depth id) s (.ok value) s) ∧
    ∀ (m' : Machine) (id' : ExprId), m'.module.arena.Denotes id' p →
      ∀ depth depth' s s', s'.env = s.env → ∃ value : Int32,
        Ends (fun fuel => m.evalExpr fuel depth id) s (.ok value) s ∧
        Ends (fun fuel => m'.evalExpr fuel depth' id') s' (.ok value) s' := by
  refine ⟨fun depth s => ⟨_, Int32.toInt_ofInt_modEq _, evalExpr_of_denotes h depth s⟩,
    fun m' id' h' depth depth' s s' henv => ⟨_, evalExpr_of_denotes h depth s, ?_⟩⟩
  have hend := evalExpr_of_denotes h' depth' s'
  rwa [henv] at hend

/-- Two ways to write a difference of squares. -/
def squares : Program :=
  [.command (.assign ⟨1⟩ (.arith .mul
      (.arith .add (.var ⟨2⟩ ⟨6, 7⟩) (.int 1 ⟨10, 11⟩) ⟨6, 11⟩)
      (.arith .sub (.var ⟨2⟩ ⟨16, 17⟩) (.int 1 ⟨20, 21⟩) ⟨16, 21⟩) ⟨6, 21⟩) ⟨0, 22⟩),
    .command (.assign ⟨1⟩ (.arith .sub
      (.arith .mul (.var ⟨2⟩ ⟨29, 30⟩) (.var ⟨2⟩ ⟨33, 34⟩) ⟨29, 34⟩)
      (.int 1 ⟨37, 38⟩) ⟨29, 38⟩) ⟨24, 38⟩)]

/-- At the greatest value one of the two ways overflows in the sum, the other one in the product,
and both give the same. -/
theorem evalExpr_modEq_squares : ∃ (m : Module) (names : Names) (x : Name),
    Module.parse "y := (x + 1) * (x - 1); y := x * x - 1" .initial = (.ok m, names) ∧
    names.text x = "x" ∧ ∃ p, m.arena.Denotes ⟨6⟩ p ∧ m.arena.Denotes ⟨11⟩ p ∧ ∀ s : State,
      (∃ value : Int32, value.toInt ≡ s.env.assignment (.root, x) ^ 2 - 1 [ZMOD 2 ^ 32] ∧
        Ends (fun fuel => evalExpr ⟨names, m, 0⟩ fuel 0 ⟨6⟩) s (.ok value) s) ∧
      ∃ value : Int32, Ends (fun fuel => evalExpr ⟨names, m, 0⟩ fuel 0 ⟨6⟩) s (.ok value) s ∧
        Ends (fun fuel => evalExpr ⟨names, m, 0⟩ fuel 0 ⟨11⟩) s (.ok value) s := by
  have hparse : Module.parse "y := (x + 1) * (x - 1); y := x * x - 1" .initial =
      (.ok (.ofProgram squares), ⟨#["", "y", "x"]⟩) := by
    decide +kernel
  have hproduct : (Module.ofProgram squares).arena.Denotes ⟨6⟩
      ((X (.root, ⟨2⟩) + C (1 : Int32).toInt) * (X (.root, ⟨2⟩) - C (1 : Int32).toInt)) :=
    .mul rfl (.add rfl (.var rfl) (.int rfl)) (.sub rfl (.var rfl) (.int rfl))
  have hdifference : (Module.ofProgram squares).arena.Denotes ⟨11⟩
      (X (.root, ⟨2⟩) * X (.root, ⟨2⟩) - C (1 : Int32).toInt) :=
    .sub rfl (.mul rfl (.var rfl) (.var rfl)) (.int rfl)
  have hone : (C (1 : Int32).toInt : MvPolynomial (ScopeId × Name) ℤ) = 1 := map_one C
  have hsame : ((X (.root, ⟨2⟩) + C (1 : Int32).toInt) * (X (.root, ⟨2⟩) - C (1 : Int32).toInt) :
      MvPolynomial (ScopeId × Name) ℤ) =
        X (.root, ⟨2⟩) * X (.root, ⟨2⟩) - C (1 : Int32).toInt := by
    rw [hone]
    ring
  rw [hsame] at hproduct
  obtain ⟨hvalue, hequal⟩ := evalExpr_modEq (m := ⟨⟨#["", "y", "x"]⟩, .ofProgram squares, 0⟩)
    hproduct
  refine ⟨_, _, ⟨2⟩, hparse, rfl, _, hproduct, hdifference, fun s =>
    ⟨?_, hequal ⟨_, _, 0⟩ _ hdifference 0 0 s s rfl⟩⟩
  obtain ⟨value, hmod, hends⟩ := hvalue 0 s
  rw [hone, map_sub, map_mul, eval_X, map_one, ← sq] at hmod
  exact ⟨value, hmod, hends⟩

end Machine

end Enquanto

import Enquanto.Proofs.Flatness
import Enquanto.Proofs.NodeSpans
import Mathlib.Data.List.Forall2

/-!
# Nodes of an arena

The nodes of all three tables, with their spans and the nodes that are their parts. What is below a
node is found by going from a node to its parts.

* `Arena.span?` and `Arena.parts?`: a node is looked up;
* `Arena.Below`: a node is another one, or one of its parts, or below one of them;
* `Arena.Holds`: a tree stands at a node; then the children of the tree stand at its parts, and what
  every tree hands down to its children holds of all that is below the node;
* `Tree.Contains`: what is inside a tree stands below its node.
-/

namespace Enquanto

/-- A node of an arena, by its table and its id. -/
inductive Node where
  | expr (id : ExprId)
  | pred (id : PredId)
  | command (id : CommandId)
  deriving DecidableEq, Repr

namespace Arena

def span? (a : Arena) : Node → Option Span
  | .expr id => (a.expr? id).map Located.span
  | .pred id => (a.pred? id).map Located.span
  | .command id => (a.command? id).map Located.span

/-- The parts of an expression, in the order of the source. -/
def partsOfExpr? (a : Arena) : ExprNode → Option (List Node)
  | .int _ | .var _ _ | .read => some []
  | .neg i => some [.expr i]
  | .arith _ l r => some [.expr l, .expr r]
  | .call _ slice => (a.args? slice).map fun ids => ids.map .expr

/-- The parts of a predicate, in the order of the source. -/
def partsOfPred : PredNode → List Node
  | .lit _ => []
  | .not i => [.pred i]
  | .logic _ l r => [.pred l, .pred r]
  | .rel _ l r => [.expr l, .expr r]

/-- The parts of a command, in the order of the source. -/
def partsOfCommand? (a : Arena) : CommandNode → Option (List Node)
  | .skip | .printText _ => some []
  | .assign _ _ v | .printInt v => some [.expr v]
  | .block slice => (a.body? slice).map fun ids => ids.map .command
  | .cond t b slice l => (a.branches? slice).map fun os =>
      [.pred t, .command b] ++ os.flatMap (fun o => [.pred o.1, .command o.2]) ++ [.command l]
  | .loop t b => some [.pred t, .command b]
  | .count _ _ i j k b => some [.expr i, .expr j, .expr k, .command b]
  | .switch s slice d => (a.cases? slice).map fun cs =>
      [.expr s] ++ cs.map (.command ·.2) ++ [.command d]

/-- The parts of a node, in the order of the source. -/
def parts? (a : Arena) : Node → Option (List Node)
  | .expr id => (a.expr? id).bind fun node => a.partsOfExpr? node.shape
  | .pred id => (a.pred? id).map fun node => partsOfPred node.shape
  | .command id => (a.command? id).bind fun node => a.partsOfCommand? node.shape

/-- The second node is the first, or one of its parts, or below one of them. -/
inductive Below (a : Arena) : Node → Node → Prop
  | refl {n : Node} : Below a n n
  | part {n p q : Node} {parts : List Node} :
    a.parts? n = some parts → p ∈ parts → Below a p q → Below a n q

end Arena

/-! ## Trees at nodes -/

namespace Tree

/-- The second tree is the first, or one of its children, or inside one of them. -/
inductive Contains : Tree → Tree → Prop
  | refl {t : Tree} : Contains t t
  | child {t c t' : Tree} : c ∈ t.children → Contains c t' → Contains t t'

theorem Contains.child_right {t t' c : Tree} (h : t.Contains t') (hc : c ∈ t'.children) :
    t.Contains c := by
  induction h with
  | refl => exact .child hc .refl
  | child hchild _ ih => exact .child hchild (ih hc)

end Tree

namespace Arena

/-- The tree stands at the node, with its variables in `scope`. -/
def Holds (a : Arena) (scope : ScopeId) : Tree → Node → Prop
  | .expr e, .expr id => a.HoldsExpr scope e id
  | .pred p, .pred id => a.HoldsPred scope p id
  | .command c, .command id => a.HoldsCommand scope c id
  | _, _ => False

variable {a : Arena} {scope : ScopeId}

/-- Lists that are compared from their heads on are compared element by element. -/
theorem forall₂_of_step {α β : Type} {H : List α → List β → Prop} {R : α → β → Prop}
    (hleft : ∀ y ys, ¬ H [] (y :: ys)) (hright : ∀ x xs, ¬ H (x :: xs) [])
    (hstep : ∀ x xs y ys, H (x :: xs) (y :: ys) → R x y ∧ H xs ys) {xs : List α} {ys : List β}
    (h : H xs ys) : List.Forall₂ R xs ys := by
  induction xs generalizing ys with
  | nil =>
    cases ys with
    | nil => exact .nil
    | cons y ys => exact absurd h (hleft y ys)
  | cons x xs ih =>
    cases ys with
    | nil => exact absurd h (hright x xs)
    | cons y ys =>
      obtain ⟨hxy, hrest⟩ := hstep x xs y ys h
      exact .cons hxy (ih hrest)

theorem HoldsExprs.forall₂ {es : List Expr} {ids : List ExprId} (h : a.HoldsExprs scope es ids) :
    List.Forall₂ (a.Holds scope) (es.map .expr) (ids.map .expr) := by
  rw [List.forall₂_map_left_iff, List.forall₂_map_right_iff]
  exact forall₂_of_step (fun _ _ => id) (fun _ _ => id) (fun _ _ _ _ => id) h

theorem HoldsCommands.forall₂ {cs : List Command} {ids : List CommandId}
    (h : a.HoldsCommands scope cs ids) :
    List.Forall₂ (a.Holds scope) (cs.map .command) (ids.map .command) := by
  rw [List.forall₂_map_left_iff, List.forall₂_map_right_iff]
  exact forall₂_of_step (fun _ _ => id) (fun _ _ => id) (fun _ _ _ _ => id) h

theorem HoldsBranches.forall₂ {bs : List (Pred × Command)} {ids : List (PredId × CommandId)}
    (h : a.HoldsBranches scope bs ids) :
    List.Forall₂ (a.Holds scope) (bs.flatMap fun b => [.pred b.1, .command b.2])
      (ids.flatMap fun o => [.pred o.1, .command o.2]) := by
  have hpairs : List.Forall₂
      (fun b o => a.HoldsPred scope b.1 o.1 ∧ a.HoldsCommand scope b.2 o.2) bs ids :=
    forall₂_of_step (fun _ _ => id) (fun _ _ => id) (fun _ _ _ _ => id) h
  exact List.rel_flatMap hpairs fun b o hb => .cons hb.1 (.cons hb.2 .nil)

theorem HoldsCases.forall₂ {cs : List (Int32 × Command)} {ids : List (Int32 × CommandId)}
    (h : a.HoldsCases scope cs ids) :
    List.Forall₂ (a.Holds scope) (cs.map (.command ·.2)) (ids.map (.command ·.2)) := by
  rw [List.forall₂_map_left_iff, List.forall₂_map_right_iff]
  exact forall₂_of_step (fun _ _ => id) (fun _ _ => id) (fun _ _ _ _ h => ⟨h.1.2, h.2⟩) h

/-- The children of an expression stand at the parts of its node. -/
theorem HoldsExpr.node {e : Expr} {id : ExprId} (h : a.HoldsExpr scope e id) :
    a.span? (.expr id) = some e.span ∧ ∃ parts, a.parts? (.expr id) = some parts ∧
      List.Forall₂ (a.Holds scope) (Tree.children (.expr e)) parts := by
  cases e with
  | int _ _ | var _ _ | read _ =>
    have hn : a.expr? id = some _ := h
    exact ⟨by simp [span?, hn, Expr.span], [], by simp [parts?, hn, partsOfExpr?], .nil⟩
  | neg _ _ =>
    obtain ⟨i, hn, -, hi⟩ := h
    exact ⟨by simp [span?, hn, Expr.span], [.expr i], by simp [parts?, hn, partsOfExpr?],
      .cons hi .nil⟩
  | arith _ _ _ _ =>
    obtain ⟨l, r, hn, -, -, hl, hr⟩ := h
    exact ⟨by simp [span?, hn, Expr.span], [.expr l, .expr r],
      by simp [parts?, hn, partsOfExpr?], .cons hl (.cons hr .nil)⟩
  | call _ _ _ =>
    obtain ⟨slice, ids, hn, hs, -, hargs⟩ := h
    exact ⟨by simp [span?, hn, Expr.span], ids.map .expr, by simp [parts?, hn, partsOfExpr?, hs],
      hargs.forall₂⟩

theorem HoldsPred.node {p : Pred} {id : PredId} (h : a.HoldsPred scope p id) :
    a.span? (.pred id) = some p.span ∧ ∃ parts, a.parts? (.pred id) = some parts ∧
      List.Forall₂ (a.Holds scope) (Tree.children (.pred p)) parts := by
  cases p with
  | lit _ _ =>
    have hn : a.pred? id = some _ := h
    exact ⟨by simp [span?, hn, Pred.span], [], by simp [parts?, hn, partsOfPred], .nil⟩
  | not _ _ =>
    obtain ⟨i, hn, -, hi⟩ := h
    exact ⟨by simp [span?, hn, Pred.span], [.pred i], by simp [parts?, hn, partsOfPred],
      .cons hi .nil⟩
  | logic _ _ _ _ =>
    obtain ⟨l, r, hn, -, -, hl, hr⟩ := h
    exact ⟨by simp [span?, hn, Pred.span], [.pred l, .pred r],
      by simp [parts?, hn, partsOfPred], .cons hl (.cons hr .nil)⟩
  | rel _ _ _ _ =>
    obtain ⟨l, r, hn, hl, hr⟩ := h
    exact ⟨by simp [span?, hn, Pred.span], [.expr l, .expr r],
      by simp [parts?, hn, partsOfPred], .cons hl (.cons hr .nil)⟩

theorem HoldsCommand.node {c : Command} {id : CommandId} (h : a.HoldsCommand scope c id) :
    a.span? (.command id) = some c.span ∧ ∃ parts, a.parts? (.command id) = some parts ∧
      List.Forall₂ (a.Holds scope) (Tree.children (.command c)) parts := by
  cases c with
  | skip _ | printText _ _ =>
    have hn : a.command? id = some _ := h
    exact ⟨by simp [span?, hn, Command.span], [], by simp [parts?, hn, partsOfCommand?], .nil⟩
  | assign _ _ _ | printInt _ _ =>
    obtain ⟨v, hn, hv⟩ := h
    exact ⟨by simp [span?, hn, Command.span], [.expr v], by simp [parts?, hn, partsOfCommand?],
      .cons hv .nil⟩
  | block _ _ =>
    obtain ⟨slice, ids, hn, hs, -, hbody⟩ := h
    exact ⟨by simp [span?, hn, Command.span], ids.map .command,
      by simp [parts?, hn, partsOfCommand?, hs], hbody.forall₂⟩
  | cond test body others last _ =>
    obtain ⟨t, b, slice, os, l, hn, hs, -, -, -, ht, hb, ho, hl⟩ := h
    have hfirst : List.Forall₂ (a.Holds scope) [.pred test, .command body]
      [.pred t, .command b] := .cons ht (.cons hb .nil)
    have hlast : List.Forall₂ (a.Holds scope) [.command last] [.command l] := .cons hl .nil
    exact ⟨by simp [span?, hn, Command.span], _, by simp [parts?, hn, partsOfCommand?, hs],
      List.rel_append (List.rel_append hfirst ho.forall₂) hlast⟩
  | loop _ _ _ =>
    obtain ⟨t, b, hn, -, ht, hb⟩ := h
    exact ⟨by simp [span?, hn, Command.span], [.pred t, .command b],
      by simp [parts?, hn, partsOfCommand?], .cons ht (.cons hb .nil)⟩
  | count _ _ _ _ _ _ =>
    obtain ⟨i, j, k, b, hn, -, hi, hj, hk, hb⟩ := h
    exact ⟨by simp [span?, hn, Command.span], [.expr i, .expr j, .expr k, .command b],
      by simp [parts?, hn, partsOfCommand?], .cons hi (.cons hj (.cons hk (.cons hb .nil)))⟩
  | switch selector cases default _ =>
    obtain ⟨s, slice, cs, d, hn, hs, -, -, hsel, hcs, hd⟩ := h
    have hfirst : List.Forall₂ (a.Holds scope) [.expr selector] [.expr s] := .cons hsel .nil
    have hlast : List.Forall₂ (a.Holds scope) [.command default] [.command d] := .cons hd .nil
    exact ⟨by simp [span?, hn, Command.span], _, by simp [parts?, hn, partsOfCommand?, hs],
      List.rel_append (List.rel_append hfirst hcs.forall₂) hlast⟩

/-- The children of a tree stand at the parts of its node. -/
theorem Holds.node : ∀ {t : Tree} {n : Node}, a.Holds scope t n → a.span? n = some t.span ∧
    ∃ parts, a.parts? n = some parts ∧ List.Forall₂ (a.Holds scope) t.children parts
  | .expr _, .expr _, h => HoldsExpr.node h
  | .pred _, .pred _, h => HoldsPred.node h
  | .command _, .command _, h => HoldsCommand.node h

theorem exists_child {ts : List Tree} {parts : List Node} {p : Node}
    (h : List.Forall₂ (a.Holds scope) ts parts) (hp : p ∈ parts) : ∃ t ∈ ts, a.Holds scope t p := by
  induction h with
  | nil => cases hp
  | cons hholds _ ih =>
    rcases List.mem_cons.mp hp with rfl | hp
    · exact ⟨_, List.mem_cons_self .., hholds⟩
    · obtain ⟨t, ht, hholds⟩ := ih hp
      exact ⟨t, List.mem_cons_of_mem _ ht, hholds⟩

/-- What every tree hands down to its children holds of all that is below a node. -/
theorem Below.exists_holds {P : Tree → Prop} (hP : ∀ t, P t → ∀ child ∈ t.children, P child)
    {n q : Node} (h : a.Below n q) {t : Tree} (ht : a.Holds scope t n) (hPt : P t) :
    ∃ t', a.Holds scope t' q ∧ P t' := by
  induction h generalizing t with
  | refl => exact ⟨t, ht, hPt⟩
  | part hparts hp _ ih =>
    obtain ⟨-, parts, hparts', hall⟩ := ht.node
    cases hparts.symm.trans hparts'
    obtain ⟨child, hchild, hholds⟩ := exists_child hall hp
    exact ih hholds (hP t hPt child hchild)

theorem exists_part {ts : List Tree} {parts : List Node} {t : Tree}
    (h : List.Forall₂ (a.Holds scope) ts parts) (ht : t ∈ ts) : ∃ p ∈ parts, a.Holds scope t p := by
  induction h with
  | nil => cases ht
  | cons hholds _ ih =>
    rcases List.mem_cons.mp ht with rfl | ht
    · exact ⟨_, List.mem_cons_self .., hholds⟩
    · obtain ⟨p, hp, hholds⟩ := ih ht
      exact ⟨p, List.mem_cons_of_mem _ hp, hholds⟩

/-- What stands below a node is inside the tree of the node. -/
theorem Below.exists_contained {n q : Node} (h : a.Below n q) {t : Tree} (ht : a.Holds scope t n) :
    ∃ t', a.Holds scope t' q ∧ t.Contains t' :=
  h.exists_holds (fun _ hc _ hchild => hc.child_right hchild) ht .refl

/-- What is inside a tree stands below the node of the tree. -/
theorem exists_below {t t' : Tree} (h : t.Contains t') {n : Node} (ht : a.Holds scope t n) :
    ∃ q, a.Below n q ∧ a.Holds scope t' q := by
  induction h generalizing n with
  | refl => exact ⟨n, .refl, ht⟩
  | child hc _ ih =>
    obtain ⟨-, parts, hparts, hall⟩ := ht.node
    obtain ⟨p, hp, hholds⟩ := exists_part hall hc
    obtain ⟨q, hq, hholds'⟩ := ih hholds
    exact ⟨q, .part hparts hp hq, hholds'⟩

theorem Holds.map_span? {ts : List Tree} {parts : List Node}
    (h : List.Forall₂ (a.Holds scope) ts parts) :
    parts.map a.span? = (ts.map Tree.span).map some := by
  induction h with
  | nil => rfl
  | cons hholds _ ih => simp [hholds.node.1, ih]

/-! ## Arenas that were laid out -/

/-- If all subtrees lie among tokens, so does every node. -/
theorem Laid.exists_liesAmong {f : Flattening} {ts : List (Token Name)} {C : Expr → Prop}
    (h : Laid {} a f) (hf : f.ReadFrom ts C) {n : Node} {span : Span} (hn : a.span? n = some span) :
    ∃ scope t, a.Holds scope t n ∧ t.LiesAmong ts := by
  cases n with
  | expr id =>
    obtain ⟨node, hnode, -⟩ := Option.map_eq_some_iff.mp hn
    obtain ⟨scope, e, he, hholds⟩ := h.exists_holdsExpr hnode
    exact ⟨scope, .expr e, hholds, (hf.exprs _ he).1⟩
  | pred id =>
    obtain ⟨node, hnode, -⟩ := Option.map_eq_some_iff.mp hn
    obtain ⟨scope, p, hp, hholds⟩ := h.exists_holdsPred hnode
    exact ⟨scope, .pred p, hholds, hf.preds _ hp⟩
  | command id =>
    obtain ⟨node, hnode, -⟩ := Option.map_eq_some_iff.mp hn
    obtain ⟨scope, c, hc, hholds⟩ := h.exists_holdsCommand hnode
    exact ⟨scope, .command c, hholds, hf.commands _ hc⟩

end Arena

end Enquanto

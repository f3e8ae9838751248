import Enquanto.Module.Layout

/-!
# Trees in an arena

`Arena.HoldsExpr`, `Arena.HoldsPred` and `Arena.HoldsCommand` say that a tree stands at an id: the
node there is the root of the tree, the parts that it points to are the parts of the tree, and parts
of the same kind have smaller ids.

* `Arena.Extends`: an arena grows at the ends of its tables, and what it holds stays;
* `Arena.truncate_of_extends`: cutting an arena back to a mark undoes all growth since.
-/

namespace Enquanto

theorem Slice.of?_eq_some_iff {α : Type} {slice : Slice} {table : Array α} {xs : List α} :
    slice.of? table = some xs ↔ slice.start + slice.count ≤ table.size ∧
      (table.toList.drop slice.start).take slice.count = xs := by
  unfold Slice.of?
  split
  · simp [*]
  · simp [*]

/-- What a table holds stays when it grows at its end. -/
theorem getElem?_of_prefix {α : Type} {xs ys : Array α} (h : xs.toList <+: ys.toList) {i : Nat}
    {x : α} (hx : xs[i]? = some x) : ys[i]? = some x := by
  obtain ⟨rest, hr⟩ := h
  rw [← Array.getElem?_toList] at hx ⊢
  have hi := (List.getElem?_eq_some_iff.mp hx).1
  rw [← hr, List.getElem?_append_left hi, hx]

theorem Slice.of?_of_prefix {α : Type} {slice : Slice} {xs ys : Array α} {l : List α}
    (h : xs.toList <+: ys.toList) (hx : slice.of? xs = some l) : slice.of? ys = some l := by
  obtain ⟨hb, rfl⟩ := Slice.of?_eq_some_iff.mp hx
  obtain ⟨rest, hr⟩ := h
  have hs : ys.size = xs.size + rest.length := by
    rw [← Array.length_toList, ← hr, List.length_append, Array.length_toList]
  refine Slice.of?_eq_some_iff.mpr ⟨by omega, ?_⟩
  rw [← hr, List.drop_append_of_le_length (by rw [Array.length_toList]; omega),
    List.take_append_of_le_length (by simp; omega)]

theorem take_of_prefix {α : Type} {xs ys : Array α} (h : xs.toList <+: ys.toList) :
    ys.take xs.size = xs := by
  obtain ⟨rest, hr⟩ := h
  apply Array.toList_inj.mp
  simp [← hr]

namespace Arena

/-! ## Growth -/

/-- The tables of `b` start with those of `a`. -/
structure Extends (a b : Arena) : Prop where
  exprs : a.exprs.toList <+: b.exprs.toList
  preds : a.preds.toList <+: b.preds.toList
  commands : a.commands.toList <+: b.commands.toList
  args : a.args.toList <+: b.args.toList
  bodies : a.bodies.toList <+: b.bodies.toList
  branches : a.branches.toList <+: b.branches.toList
  cases : a.cases.toList <+: b.cases.toList

theorem Extends.refl (a : Arena) : a.Extends a :=
  ⟨List.prefix_rfl, List.prefix_rfl, List.prefix_rfl, List.prefix_rfl, List.prefix_rfl,
    List.prefix_rfl, List.prefix_rfl⟩

theorem Extends.trans {a b c : Arena} (h : a.Extends b) (h' : b.Extends c) : a.Extends c :=
  ⟨h.exprs.trans h'.exprs, h.preds.trans h'.preds, h.commands.trans h'.commands,
    h.args.trans h'.args, h.bodies.trans h'.bodies, h.branches.trans h'.branches,
    h.cases.trans h'.cases⟩

/-- Cutting an arena back to a mark undoes all growth since the mark. -/
theorem truncate_of_extends {a b : Arena} (h : a.Extends b) : b.truncate a.mark = a := by
  simp only [truncate, mark, take_of_prefix h.exprs, take_of_prefix h.preds,
    take_of_prefix h.commands, take_of_prefix h.args, take_of_prefix h.bodies,
    take_of_prefix h.branches, take_of_prefix h.cases]

section
variable {a b : Arena}

theorem Extends.expr? (h : a.Extends b) {id : ExprId} {node : Located ExprNode}
    (hn : a.expr? id = some node) : b.expr? id = some node :=
  getElem?_of_prefix h.exprs hn

theorem Extends.pred? (h : a.Extends b) {id : PredId} {node : Located PredNode}
    (hn : a.pred? id = some node) : b.pred? id = some node :=
  getElem?_of_prefix h.preds hn

theorem Extends.command? (h : a.Extends b) {id : CommandId} {node : Located CommandNode}
    (hn : a.command? id = some node) : b.command? id = some node :=
  getElem?_of_prefix h.commands hn

theorem Extends.exprs_size_le (h : a.Extends b) : a.exprs.size ≤ b.exprs.size := by
  simpa using h.exprs.length_le

theorem Extends.preds_size_le (h : a.Extends b) : a.preds.size ≤ b.preds.size := by
  simpa using h.preds.length_le

theorem Extends.commands_size_le (h : a.Extends b) : a.commands.size ≤ b.commands.size := by
  simpa using h.commands.length_le

end

/-! ## Trees -/

mutual

/-- The expression stands at the id, with its variables in `scope`. -/
def HoldsExpr (a : Arena) (scope : ScopeId) : Expr → ExprId → Prop
  | .int value span, id => a.expr? id = some ⟨.int value, span⟩
  | .var name span, id => a.expr? id = some ⟨.var name scope, span⟩
  | .neg operand span, id => ∃ i, a.expr? id = some ⟨.neg i, span⟩ ∧
      i.index < id.index ∧ HoldsExpr a scope operand i
  | .arith op left right span, id => ∃ l r, a.expr? id = some ⟨.arith op l r, span⟩ ∧
      l.index < id.index ∧ r.index < id.index ∧
      HoldsExpr a scope left l ∧ HoldsExpr a scope right r
  | .read span, id => a.expr? id = some ⟨.read, span⟩
  | .call function args span, id => ∃ slice ids, a.expr? id = some ⟨.call function slice, span⟩ ∧
      a.args? slice = some ids ∧ (∀ i ∈ ids, i.index < id.index) ∧ HoldsExprs a scope args ids

def HoldsExprs (a : Arena) (scope : ScopeId) : List Expr → List ExprId → Prop
  | [], [] => True
  | e :: es, id :: ids => HoldsExpr a scope e id ∧ HoldsExprs a scope es ids
  | _, _ => False

end

theorem HoldsExprs.length_eq {a : Arena} {scope : ScopeId} : ∀ {es : List Expr}
    {ids : List ExprId}, a.HoldsExprs scope es ids → ids.length = es.length
  | [], [], _ => rfl
  | _ :: _, _ :: _, ⟨_, hs⟩ => congrArg (· + 1) hs.length_eq

/-- The predicate stands at the id, with its variables in `scope`. -/
def HoldsPred (a : Arena) (scope : ScopeId) : Pred → PredId → Prop
  | .lit value span, id => a.pred? id = some ⟨.lit value, span⟩
  | .not operand span, id => ∃ i, a.pred? id = some ⟨.not i, span⟩ ∧
      i.index < id.index ∧ HoldsPred a scope operand i
  | .logic op left right span, id => ∃ l r, a.pred? id = some ⟨.logic op l r, span⟩ ∧
      l.index < id.index ∧ r.index < id.index ∧
      HoldsPred a scope left l ∧ HoldsPred a scope right r
  | .rel op left right span, id => ∃ l r, a.pred? id = some ⟨.rel op l r, span⟩ ∧
      HoldsExpr a scope left l ∧ HoldsExpr a scope right r

mutual

/-- The command stands at the id, with its variables in `scope`. -/
def HoldsCommand (a : Arena) (scope : ScopeId) : Command → CommandId → Prop
  | .skip span, id => a.command? id = some ⟨.skip, span⟩
  | .assign target value span, id => ∃ v, a.command? id = some ⟨.assign target scope v, span⟩ ∧
      HoldsExpr a scope value v
  | .block body span, id => ∃ slice ids, a.command? id = some ⟨.block slice, span⟩ ∧
      a.body? slice = some ids ∧ (∀ i ∈ ids, i.index < id.index) ∧ HoldsCommands a scope body ids
  | .cond test body others last span, id => ∃ t b slice os l,
      a.command? id = some ⟨.cond t b slice l, span⟩ ∧ a.branches? slice = some os ∧
      b.index < id.index ∧ (∀ o ∈ os, o.2.index < id.index) ∧ l.index < id.index ∧
      HoldsPred a scope test t ∧ HoldsCommand a scope body b ∧ HoldsBranches a scope others os ∧
      HoldsCommand a scope last l
  | .loop test body span, id => ∃ t b, a.command? id = some ⟨.loop t b, span⟩ ∧
      b.index < id.index ∧ HoldsPred a scope test t ∧ HoldsCommand a scope body b
  | .count var start stop step body span, id => ∃ i j k b,
      a.command? id = some ⟨.count var scope i j k b, span⟩ ∧ b.index < id.index ∧
      HoldsExpr a scope start i ∧ HoldsExpr a scope stop j ∧ HoldsExpr a scope step k ∧
      HoldsCommand a scope body b
  | .switch selector cases default span, id => ∃ s slice cs d,
      a.command? id = some ⟨.switch s slice d, span⟩ ∧ a.cases? slice = some cs ∧
      (∀ c ∈ cs, c.2.index < id.index) ∧ d.index < id.index ∧
      HoldsExpr a scope selector s ∧ HoldsCases a scope cases cs ∧ HoldsCommand a scope default d
  | .printInt value span, id => ∃ v, a.command? id = some ⟨.printInt v, span⟩ ∧
      HoldsExpr a scope value v
  | .printText text span, id => a.command? id = some ⟨.printText text, span⟩

def HoldsCommands (a : Arena) (scope : ScopeId) : List Command → List CommandId → Prop
  | [], [] => True
  | c :: cs, id :: ids => HoldsCommand a scope c id ∧ HoldsCommands a scope cs ids
  | _, _ => False

def HoldsBranches (a : Arena) (scope : ScopeId) :
    List (Pred × Command) → List (PredId × CommandId) → Prop
  | [], [] => True
  | (test, body) :: rest, (t, b) :: ids =>
    (HoldsPred a scope test t ∧ HoldsCommand a scope body b) ∧ HoldsBranches a scope rest ids
  | _, _ => False

def HoldsCases (a : Arena) (scope : ScopeId) :
    List (Int32 × Command) → List (Int32 × CommandId) → Prop
  | [], [] => True
  | (value, body) :: rest, (v, b) :: ids =>
    (v = value ∧ HoldsCommand a scope body b) ∧ HoldsCases a scope rest ids
  | _, _ => False

end

/-! What an arena holds stays when it grows. -/

section
variable {a b : Arena} {scope : ScopeId}

mutual

theorem HoldsExpr.mono (h : a.Extends b) : ∀ {e : Expr} {id : ExprId}, a.HoldsExpr scope e id →
    b.HoldsExpr scope e id
  | .int _ _, _, hn => h.expr? hn
  | .var _ _, _, hn => h.expr? hn
  | .neg _ _, _, ⟨i, hn, hi, he⟩ => ⟨i, h.expr? hn, hi, he.mono h⟩
  | .arith _ _ _ _, _, ⟨l, r, hn, hl, hr, he, he'⟩ =>
    ⟨l, r, h.expr? hn, hl, hr, he.mono h, he'.mono h⟩
  | .read _, _, hn => h.expr? hn
  | .call _ _ _, _, ⟨slice, ids, hn, hs, hi, hes⟩ =>
    ⟨slice, ids, h.expr? hn, Slice.of?_of_prefix h.args hs, hi, hes.mono h⟩

theorem HoldsExprs.mono (h : a.Extends b) : ∀ {es : List Expr} {ids : List ExprId},
    a.HoldsExprs scope es ids → b.HoldsExprs scope es ids
  | [], [], _ => trivial
  | _ :: _, _ :: _, ⟨he, hes⟩ => ⟨he.mono h, hes.mono h⟩

end

theorem HoldsPred.mono (h : a.Extends b) : ∀ {p : Pred} {id : PredId}, a.HoldsPred scope p id →
    b.HoldsPred scope p id
  | .lit _ _, _, hn => h.pred? hn
  | .not _ _, _, ⟨i, hn, hi, hp⟩ => ⟨i, h.pred? hn, hi, hp.mono h⟩
  | .logic _ _ _ _, _, ⟨l, r, hn, hl, hr, hp, hp'⟩ =>
    ⟨l, r, h.pred? hn, hl, hr, hp.mono h, hp'.mono h⟩
  | .rel _ _ _ _, _, ⟨l, r, hn, he, he'⟩ => ⟨l, r, h.pred? hn, he.mono h, he'.mono h⟩

mutual

theorem HoldsCommand.mono (h : a.Extends b) : ∀ {c : Command} {id : CommandId},
    a.HoldsCommand scope c id → b.HoldsCommand scope c id
  | .skip _, _, hn => h.command? hn
  | .assign _ _ _, _, ⟨v, hn, he⟩ => ⟨v, h.command? hn, he.mono h⟩
  | .block _ _, _, ⟨slice, ids, hn, hs, hi, hcs⟩ =>
    ⟨slice, ids, h.command? hn, Slice.of?_of_prefix h.bodies hs, hi, hcs.mono h⟩
  | .cond _ _ _ _ _, _, ⟨t, b', slice, os, l, hn, hs, hb, ho, hl, hp, hc, hbs, hc'⟩ =>
    ⟨t, b', slice, os, l, h.command? hn, Slice.of?_of_prefix h.branches hs, hb, ho, hl, hp.mono h,
      hc.mono h, hbs.mono h, hc'.mono h⟩
  | .loop _ _ _, _, ⟨t, b', hn, hb, hp, hc⟩ => ⟨t, b', h.command? hn, hb, hp.mono h, hc.mono h⟩
  | .count _ _ _ _ _ _, _, ⟨i, j, k, b', hn, hb, hi, hj, hk, hc⟩ =>
    ⟨i, j, k, b', h.command? hn, hb, hi.mono h, hj.mono h, hk.mono h, hc.mono h⟩
  | .switch _ _ _ _, _, ⟨s, slice, cs, d, hn, hs, hi, hd, he, hcs, hc⟩ =>
    ⟨s, slice, cs, d, h.command? hn, Slice.of?_of_prefix h.cases hs, hi, hd, he.mono h,
      hcs.mono h, hc.mono h⟩
  | .printInt _ _, _, ⟨v, hn, he⟩ => ⟨v, h.command? hn, he.mono h⟩
  | .printText _ _, _, hn => h.command? hn

theorem HoldsCommands.mono (h : a.Extends b) : ∀ {cs : List Command} {ids : List CommandId},
    a.HoldsCommands scope cs ids → b.HoldsCommands scope cs ids
  | [], [], _ => trivial
  | _ :: _, _ :: _, ⟨hc, hcs⟩ => ⟨hc.mono h, hcs.mono h⟩

theorem HoldsBranches.mono (h : a.Extends b) : ∀ {bs : List (Pred × Command)}
    {ids : List (PredId × CommandId)}, a.HoldsBranches scope bs ids → b.HoldsBranches scope bs ids
  | [], [], _ => trivial
  | _ :: _, _ :: _, ⟨⟨hp, hc⟩, hbs⟩ => ⟨⟨hp.mono h, hc.mono h⟩, hbs.mono h⟩

theorem HoldsCases.mono (h : a.Extends b) : ∀ {cs : List (Int32 × Command)}
    {ids : List (Int32 × CommandId)}, a.HoldsCases scope cs ids → b.HoldsCases scope cs ids
  | [], [], _ => trivial
  | _ :: _, _ :: _, ⟨⟨hv, hc⟩, hcs⟩ => ⟨⟨hv, hc.mono h⟩, hcs.mono h⟩

end

end

end Arena

end Enquanto

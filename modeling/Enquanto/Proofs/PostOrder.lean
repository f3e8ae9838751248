import Enquanto.Proofs.Representation

/-!
# Post-order

`Program.flat` lists the subtrees of a program in post-order, from left to right, each kind in a
list of its own. Laying a tree out appends exactly these subtrees to the tables, in this order.

* `Arena.Laid`: an arena has grown by some subtrees, which stand at consecutive ids;
* `Arena.layExpr_laid`, `Arena.layPred_laid` and `Arena.layCommand_laid`: laying a tree out grows an
  arena by its subtrees, and gives the id at which the tree stands.
-/

namespace Enquanto

/-- Trees of the three kinds, each with the scope of its variables. -/
structure Flattening where
  exprs : List (ScopeId × Expr) := []
  preds : List (ScopeId × Pred) := []
  commands : List (ScopeId × Command) := []

namespace Flattening

instance : Append Flattening :=
  ⟨fun f g => ⟨f.exprs ++ g.exprs, f.preds ++ g.preds, f.commands ++ g.commands⟩⟩

def expr (scope : ScopeId) (e : Expr) : Flattening := { exprs := [(scope, e)] }

def pred (scope : ScopeId) (p : Pred) : Flattening := { preds := [(scope, p)] }

def command (scope : ScopeId) (c : Command) : Flattening := { commands := [(scope, c)] }

@[simp] theorem exprs_append (f g : Flattening) : (f ++ g).exprs = f.exprs ++ g.exprs := rfl

@[simp] theorem preds_append (f g : Flattening) : (f ++ g).preds = f.preds ++ g.preds := rfl

@[simp] theorem commands_append (f g : Flattening) :
    (f ++ g).commands = f.commands ++ g.commands := rfl

end Flattening

mutual

/-- The subtrees of an expression in post-order. -/
def Expr.flat (scope : ScopeId) : Expr → Flattening
  | .int value span => .expr scope (.int value span)
  | .var name span => .expr scope (.var name span)
  | .neg operand span => operand.flat scope ++ .expr scope (.neg operand span)
  | .arith op left right span =>
    left.flat scope ++ right.flat scope ++ .expr scope (.arith op left right span)
  | .read span => .expr scope (.read span)
  | .call function args span => Expr.flatAll scope args ++ .expr scope (.call function args span)

def Expr.flatAll (scope : ScopeId) : List Expr → Flattening
  | [] => {}
  | e :: es => e.flat scope ++ Expr.flatAll scope es

end

/-- The subtrees of a predicate in post-order. -/
def Pred.flat (scope : ScopeId) : Pred → Flattening
  | .lit value span => .pred scope (.lit value span)
  | .not operand span => operand.flat scope ++ .pred scope (.not operand span)
  | .logic op left right span =>
    left.flat scope ++ right.flat scope ++ .pred scope (.logic op left right span)
  | .rel op left right span =>
    left.flat scope ++ right.flat scope ++ .pred scope (.rel op left right span)

mutual

/-- The subtrees of a command in post-order. -/
def Command.flat (scope : ScopeId) : Command → Flattening
  | .skip span => .command scope (.skip span)
  | .assign target value span =>
    value.flat scope ++ .command scope (.assign target value span)
  | .block body span => Command.flatAll scope body ++ .command scope (.block body span)
  | .cond test body others last span =>
    test.flat scope ++ body.flat scope ++ Command.flatBranches scope others ++ last.flat scope ++
      .command scope (.cond test body others last span)
  | .loop test body span =>
    test.flat scope ++ body.flat scope ++ .command scope (.loop test body span)
  | .count var start stop step body span =>
    start.flat scope ++ stop.flat scope ++ step.flat scope ++ body.flat scope ++
      .command scope (.count var start stop step body span)
  | .switch selector cases default span =>
    selector.flat scope ++ Command.flatCases scope cases ++ default.flat scope ++
      .command scope (.switch selector cases default span)
  | .printInt value span => value.flat scope ++ .command scope (.printInt value span)
  | .printText text span => .command scope (.printText text span)

def Command.flatAll (scope : ScopeId) : List Command → Flattening
  | [] => {}
  | c :: cs => c.flat scope ++ Command.flatAll scope cs

def Command.flatBranches (scope : ScopeId) : List (Pred × Command) → Flattening
  | [] => {}
  | (test, body) :: rest => test.flat scope ++ body.flat scope ++ Command.flatBranches scope rest

def Command.flatCases (scope : ScopeId) : List (Int32 × Command) → Flattening
  | [] => {}
  | (_, body) :: rest => body.flat scope ++ Command.flatCases scope rest

end

/-- The subtrees of a program in post-order, after `declared` functions. Functions have scopes of
their own, in the order of their declaration. -/
def Program.flatFrom (declared : Nat) : Program → Flattening
  | [] => {}
  | .command c :: rest => c.flat .root ++ Program.flatFrom declared rest
  | .declare d :: rest => d.body.flat ⟨declared + 1⟩ ++ Program.flatFrom (declared + 1) rest

def Program.flat (program : Program) : Flattening := program.flatFrom 0

namespace Arena

/-- Trees stand at consecutive ids, from `n` to below `m`. -/
def Placed {α : Type} {table : Table} (holds : ScopeId → α → TableId table → Prop) :
    Nat → List (ScopeId × α) → Nat → Prop
  | n, [], m => n = m
  | n, (scope, t) :: ts, m => holds scope t ⟨n⟩ ∧ Placed holds (n + 1) ts m

section
variable {α : Type} {table : Table} {holds holds' : ScopeId → α → TableId table → Prop}
  {ts us : List (ScopeId × α)} {n k m : Nat}

theorem Placed.append (h : Placed holds n ts k) (h' : Placed holds k us m) :
    Placed holds n (ts ++ us) m := by
  induction ts generalizing n with
  | nil =>
    obtain rfl : n = k := h
    exact h'
  | cons t ts ih => exact ⟨h.1, ih h.2⟩

theorem Placed.imp (h : Placed holds n ts m) (hi : ∀ scope t id, holds scope t id →
    holds' scope t id) : Placed holds' n ts m := by
  induction ts generalizing n with
  | nil => exact h
  | cons t ts ih => exact ⟨hi _ _ _ h.1, ih h.2⟩

theorem Placed.one {scope : ScopeId} {t : α} (h : holds scope t ⟨n⟩) :
    Placed holds n [(scope, t)] (n + 1) :=
  ⟨h, rfl⟩

theorem Placed.eq_add (h : Placed holds n ts m) : m = n + ts.length := by
  induction ts generalizing n with
  | nil => exact Eq.symm h
  | cons t ts ih =>
    rw [ih h.2, List.length_cons]
    omega

/-- There is a tree at every id. -/
theorem Placed.exists_holds (h : Placed holds n ts m) {id : TableId table} (hn : n ≤ id.index)
    (hm : id.index < m) : ∃ scope t, (scope, t) ∈ ts ∧ holds scope t id := by
  induction ts generalizing n with
  | nil =>
    obtain rfl : n = m := h
    omega
  | cons t ts ih =>
    by_cases hid : id.index = n
    · obtain ⟨i⟩ := id
      obtain rfl : i = n := hid
      exact ⟨t.1, t.2, List.mem_cons_self, h.1⟩
    · obtain ⟨scope, t', ht, hh⟩ := ih h.2 (by omega)
      exact ⟨scope, t', List.mem_cons_of_mem _ ht, hh⟩

/-- The tree at a given id. -/
theorem Placed.get (h : Placed holds n ts m) {i : Nat} {scope : ScopeId} {t : α}
    (ht : ts[i]? = some (scope, t)) : holds scope t ⟨n + i⟩ := by
  induction ts generalizing n i with
  | nil => simp at ht
  | cons x ts ih =>
    cases i with
    | zero =>
      cases ht
      exact h.1
    | succ i =>
      have hi := ih h.2 (i := i) (by simpa using ht)
      rwa [Nat.add_right_comm, Nat.add_assoc] at hi

end

/-- The arena `b` is `a` with the given subtrees laid out behind it. -/
structure Laid (a b : Arena) (f : Flattening) : Prop where
  growth : a.Extends b
  exprs : Placed b.HoldsExpr a.exprs.size f.exprs b.exprs.size
  preds : Placed b.HoldsPred a.preds.size f.preds b.preds.size
  commands : Placed b.HoldsCommand a.commands.size f.commands b.commands.size

theorem Laid.refl (a : Arena) : Laid a a {} := ⟨.refl a, rfl, rfl, rfl⟩

theorem Laid.trans {a b c : Arena} {f g : Flattening} (h : Laid a b f) (h' : Laid b c g) :
    Laid a c (f ++ g) where
  growth := h.growth.trans h'.growth
  exprs := (h.exprs.imp fun _ _ _ => HoldsExpr.mono h'.growth).append h'.exprs
  preds := (h.preds.imp fun _ _ _ => HoldsPred.mono h'.growth).append h'.preds
  commands := (h.commands.imp fun _ _ _ => HoldsCommand.mono h'.growth).append h'.commands

/-! ## One node -/

section
variable {a : Arena} {scope : ScopeId} {span : Span}

theorem extends_addExpr (a : Arena) (node : ExprNode) (span : Span) :
    a.Extends (a.addExpr node span).2 :=
  { Extends.refl a with exprs := by simp [addExpr] }

theorem extends_addPred (a : Arena) (node : PredNode) (span : Span) :
    a.Extends (a.addPred node span).2 :=
  { Extends.refl a with preds := by simp [addPred] }

theorem extends_addCommand (a : Arena) (node : CommandNode) (span : Span) :
    a.Extends (a.addCommand node span).2 :=
  { Extends.refl a with commands := by simp [addCommand] }

theorem extends_addCall (a : Arena) (function : FunctionId) (ids : List ExprId) (span : Span) :
    a.Extends (a.addCall function ids span).2 :=
  { Extends.refl a with
    exprs := by simp [addCall, addExpr]
    args := by simp [addCall, addExpr] }

theorem extends_addBlock (a : Arena) (ids : List CommandId) (span : Span) :
    a.Extends (a.addBlock ids span).2 :=
  { Extends.refl a with
    commands := by simp [addBlock, addCommand]
    bodies := by simp [addBlock, addCommand] }

theorem extends_addCond (a : Arena) (test : PredId) (body : CommandId)
    (others : List (PredId × CommandId)) (last : CommandId) (span : Span) :
    a.Extends (a.addCond test body others last span).2 :=
  { Extends.refl a with
    commands := by simp [addCond, addCommand]
    branches := by simp [addCond, addCommand] }

theorem extends_addSwitch (a : Arena) (selector : ExprId) (cases : List (Int32 × CommandId))
    (default : CommandId) (span : Span) :
    a.Extends (a.addSwitch selector cases default span).2 :=
  { Extends.refl a with
    commands := by simp [addSwitch, addCommand]
    cases := by simp [addSwitch, addCommand] }

/-- Growth by one expression node, the root of `e`. -/
theorem Laid.ofExpr {b : Arena} {e : Expr} (h : a.Extends b)
    (hs : b.exprs.size = a.exprs.size + 1) (hp : b.preds = a.preds)
    (hc : b.commands = a.commands) (he : b.HoldsExpr scope e ⟨a.exprs.size⟩) :
    Laid a b (.expr scope e) :=
  ⟨h, hs ▸ .one he, congrArg Array.size hp.symm, congrArg Array.size hc.symm⟩

/-- Growth by one predicate node, the root of `p`. -/
theorem Laid.ofPred {b : Arena} {p : Pred} (h : a.Extends b) (hs : b.exprs = a.exprs)
    (hp : b.preds.size = a.preds.size + 1) (hc : b.commands = a.commands)
    (he : b.HoldsPred scope p ⟨a.preds.size⟩) : Laid a b (.pred scope p) :=
  ⟨h, congrArg Array.size hs.symm, hp ▸ .one he, congrArg Array.size hc.symm⟩

/-- Growth by one command node, the root of `c`. -/
theorem Laid.ofCommand {b : Arena} {c : Command} (h : a.Extends b) (hs : b.exprs = a.exprs)
    (hp : b.preds = a.preds) (hc : b.commands.size = a.commands.size + 1)
    (he : b.HoldsCommand scope c ⟨a.commands.size⟩) : Laid a b (.command scope c) :=
  ⟨h, congrArg Array.size hs.symm, congrArg Array.size hp.symm, hc ▸ .one he⟩

end

/-- A conditional finds the branches that it was given. -/
theorem branches?_addCond (a : Arena) (test : PredId) (body : CommandId)
    (others : List (PredId × CommandId)) (last : CommandId) (span : Span) :
    (a.addCond test body others last span).2.branches? ⟨a.branches.size, others.length⟩ =
      some others := by
  simp [addCond, addCommand, branches?, Slice.of?]

/-- A choice finds the cases that it was given. -/
theorem cases?_addSwitch (a : Arena) (selector : ExprId) (cases : List (Int32 × CommandId))
    (default : CommandId) (span : Span) :
    (a.addSwitch selector cases default span).2.cases? ⟨a.cases.size, cases.length⟩ =
      some cases := by
  simp [addSwitch, addCommand, cases?, Slice.of?]

/-! ## Trees -/

/-- The result of laying an expression out. -/
structure LaidExpr (scope : ScopeId) (e : Expr) (a : Arena) (r : ExprId × Arena) : Prop where
  laid : Laid a r.2 (e.flat scope)
  holds : r.2.HoldsExpr scope e r.1
  lt : r.1.index < r.2.exprs.size

/-- The result of laying expressions out. -/
structure LaidExprs (scope : ScopeId) (es : List Expr) (a : Arena) (r : List ExprId × Arena) :
    Prop where
  laid : Laid a r.2 (Expr.flatAll scope es)
  holds : r.2.HoldsExprs scope es r.1
  lt : ∀ id ∈ r.1, id.index < r.2.exprs.size

/-- A node that is laid out last ends the post-order of its tree. -/
theorem LaidExpr.of_add {a b : Arena} {scope : ScopeId} {e : Expr} {node : ExprNode} {span : Span}
    {f : Flattening} (h : Laid a b f) (hf : e.flat scope = f ++ .expr scope e)
    (he : (b.addExpr node span).2.HoldsExpr scope e ⟨b.exprs.size⟩) :
    LaidExpr scope e a (b.addExpr node span) where
  laid := by
    rw [hf]
    exact h.trans (.ofExpr (extends_addExpr b node span) (by simp [addExpr]) rfl rfl he)
  holds := he
  lt := by simp [addExpr]

section
variable {scope : ScopeId} {a a₁ a₂ : Arena} {span : Span}

theorem LaidExpr.arith {op : ArithOp} {left right : Expr} {l r : ExprId}
    (h₁ : LaidExpr scope left a (l, a₁)) (h₂ : LaidExpr scope right a₁ (r, a₂)) :
    LaidExpr scope (.arith op left right span) a (a₂.addExpr (.arith op l r) span) := by
  have hg := extends_addExpr a₂ (.arith op l r) span
  exact .of_add (h₁.laid.trans h₂.laid) rfl ⟨l, r, expr?_addExpr _ _ _,
    Nat.lt_of_lt_of_le h₁.lt h₂.laid.growth.exprs_size_le, h₂.lt,
    h₁.holds.mono (h₂.laid.growth.trans hg), h₂.holds.mono hg⟩

theorem LaidExpr.call {function : FunctionId} {args : List Expr} {ids : List ExprId}
    (h : LaidExprs scope args a (ids, a₁)) :
    LaidExpr scope (.call function args span) a (a₁.addCall function ids span) := by
  have hg := extends_addCall a₁ function ids span
  have hn : (a₁.addCall function ids span).2.HoldsExpr scope (.call function args span)
      ⟨a₁.exprs.size⟩ :=
    ⟨_, ids, expr?_addExpr _ _ _, args?_addCall _ function _ span, h.lt, h.holds.mono hg⟩
  exact ⟨h.laid.trans (.ofExpr hg (by simp [addCall, addExpr]) rfl rfl hn), hn,
    by simp [addCall, addExpr]⟩

end

mutual

theorem layExpr_laid (scope : ScopeId) : ∀ (e : Expr) (a : Arena),
    LaidExpr scope e a (layExpr scope e a)
  | .int value span, a => .of_add (.refl a) rfl (expr?_addExpr a (.int value) span)
  | .var name span, a => .of_add (.refl a) rfl (expr?_addExpr a (.var name scope) span)
  | .read span, a => .of_add (.refl a) rfl (expr?_addExpr a .read span)
  | .neg operand span, a => by
    have h := layExpr_laid scope operand a
    exact .of_add h.laid rfl ⟨_, expr?_addExpr _ _ _, h.lt, h.holds.mono (extends_addExpr _ _ _)⟩
  | .arith _ left right _, a => .arith (layExpr_laid scope left a) (layExpr_laid scope right _)
  | .call _ args _, a => .call (layExprs_laid scope args a)

theorem layExprs_laid (scope : ScopeId) : ∀ (es : List Expr) (a : Arena),
    LaidExprs scope es a (layExprs scope es a)
  | [], a => ⟨.refl a, trivial, fun _ h => nomatch h⟩
  | e :: es, a => by
    have h := layExpr_laid scope e a
    have hs := layExprs_laid scope es (layExpr scope e a).2
    refine ⟨h.laid.trans hs.laid, ⟨h.holds.mono hs.laid.growth, hs.holds⟩, ?_⟩
    refine List.forall_mem_cons.mpr ⟨?_, hs.lt⟩
    exact Nat.lt_of_lt_of_le h.lt hs.laid.growth.exprs_size_le

end

/-- The result of laying a predicate out. -/
structure LaidPred (scope : ScopeId) (p : Pred) (a : Arena) (r : PredId × Arena) : Prop where
  laid : Laid a r.2 (p.flat scope)
  holds : r.2.HoldsPred scope p r.1
  lt : r.1.index < r.2.preds.size

theorem LaidPred.of_add {a b : Arena} {scope : ScopeId} {p : Pred} {node : PredNode} {span : Span}
    {f : Flattening} (h : Laid a b f) (hf : p.flat scope = f ++ .pred scope p)
    (hp : (b.addPred node span).2.HoldsPred scope p ⟨b.preds.size⟩) :
    LaidPred scope p a (b.addPred node span) where
  laid := by
    rw [hf]
    exact h.trans (.ofPred (extends_addPred b node span) rfl (by simp [addPred]) rfl hp)
  holds := hp
  lt := by simp [addPred]

section
variable {scope : ScopeId} {a a₁ a₂ : Arena} {span : Span}

theorem LaidPred.logic {op : LogicOp} {left right : Pred} {l r : PredId}
    (h₁ : LaidPred scope left a (l, a₁)) (h₂ : LaidPred scope right a₁ (r, a₂)) :
    LaidPred scope (.logic op left right span) a (a₂.addPred (.logic op l r) span) := by
  have hg := extends_addPred a₂ (.logic op l r) span
  exact .of_add (h₁.laid.trans h₂.laid) rfl ⟨l, r, pred?_addPred _ _ _,
    Nat.lt_of_lt_of_le h₁.lt h₂.laid.growth.preds_size_le, h₂.lt,
    h₁.holds.mono (h₂.laid.growth.trans hg), h₂.holds.mono hg⟩

theorem LaidPred.rel {op : RelOp} {left right : Expr} {l r : ExprId}
    (h₁ : LaidExpr scope left a (l, a₁)) (h₂ : LaidExpr scope right a₁ (r, a₂)) :
    LaidPred scope (.rel op left right span) a (a₂.addPred (.rel op l r) span) := by
  have hg := extends_addPred a₂ (.rel op l r) span
  exact .of_add (h₁.laid.trans h₂.laid) rfl ⟨l, r, pred?_addPred _ _ _,
    h₁.holds.mono (h₂.laid.growth.trans hg), h₂.holds.mono hg⟩

end

theorem layPred_laid (scope : ScopeId) : ∀ (p : Pred) (a : Arena),
    LaidPred scope p a (layPred scope p a)
  | .lit value span, a => .of_add (.refl a) rfl (pred?_addPred a (.lit value) span)
  | .not operand span, a => by
    have h := layPred_laid scope operand a
    exact .of_add h.laid rfl ⟨_, pred?_addPred _ _ _, h.lt, h.holds.mono (extends_addPred _ _ _)⟩
  | .logic _ left right _, a => .logic (layPred_laid scope left a) (layPred_laid scope right _)
  | .rel _ left right _, a => .rel (layExpr_laid scope left a) (layExpr_laid scope right _)

/-- The result of laying a command out. -/
structure LaidCommand (scope : ScopeId) (c : Command) (a : Arena) (r : CommandId × Arena) :
    Prop where
  laid : Laid a r.2 (c.flat scope)
  holds : r.2.HoldsCommand scope c r.1
  lt : r.1.index < r.2.commands.size

structure LaidCommands (scope : ScopeId) (cs : List Command) (a : Arena)
    (r : List CommandId × Arena) : Prop where
  laid : Laid a r.2 (Command.flatAll scope cs)
  holds : r.2.HoldsCommands scope cs r.1
  lt : ∀ id ∈ r.1, id.index < r.2.commands.size

structure LaidBranches (scope : ScopeId) (bs : List (Pred × Command)) (a : Arena)
    (r : List (PredId × CommandId) × Arena) : Prop where
  laid : Laid a r.2 (Command.flatBranches scope bs)
  holds : r.2.HoldsBranches scope bs r.1
  lt : ∀ id ∈ r.1, id.2.index < r.2.commands.size

structure LaidCases (scope : ScopeId) (cs : List (Int32 × Command)) (a : Arena)
    (r : List (Int32 × CommandId) × Arena) : Prop where
  laid : Laid a r.2 (Command.flatCases scope cs)
  holds : r.2.HoldsCases scope cs r.1
  lt : ∀ id ∈ r.1, id.2.index < r.2.commands.size

theorem LaidCommand.of_add {a b : Arena} {scope : ScopeId} {c : Command} {node : CommandNode}
    {span : Span} {f : Flattening} (h : Laid a b f) (hf : c.flat scope = f ++ .command scope c)
    (hc : (b.addCommand node span).2.HoldsCommand scope c ⟨b.commands.size⟩) :
    LaidCommand scope c a (b.addCommand node span) where
  laid := by
    rw [hf]
    exact h.trans (.ofCommand (extends_addCommand b node span) rfl rfl (by simp [addCommand]) hc)
  holds := hc
  lt := by simp [addCommand]

section
variable {scope : ScopeId} {a a₁ a₂ a₃ a₄ : Arena} {span : Span}

theorem LaidCommand.loop {test : Pred} {body : Command} {t : PredId} {b : CommandId}
    (h₁ : LaidPred scope test a (t, a₁)) (h₂ : LaidCommand scope body a₁ (b, a₂)) :
    LaidCommand scope (.loop test body span) a (a₂.addCommand (.loop t b) span) := by
  have hg := extends_addCommand a₂ (.loop t b) span
  exact .of_add (h₁.laid.trans h₂.laid) rfl ⟨t, b, command?_addCommand _ _ _, h₂.lt,
    h₁.holds.mono (h₂.laid.growth.trans hg), h₂.holds.mono hg⟩

theorem LaidCommand.count {var : Name} {start stop step : Expr} {body : Command} {i j k : ExprId}
    {b : CommandId} (h₁ : LaidExpr scope start a (i, a₁)) (h₂ : LaidExpr scope stop a₁ (j, a₂))
    (h₃ : LaidExpr scope step a₂ (k, a₃)) (h₄ : LaidCommand scope body a₃ (b, a₄)) :
    LaidCommand scope (.count var start stop step body span) a
      (a₄.addCommand (.count var scope i j k b) span) := by
  have hg := extends_addCommand a₄ (.count var scope i j k b) span
  have hg₃ := h₄.laid.growth.trans hg
  have hg₂ := h₃.laid.growth.trans hg₃
  exact .of_add (((h₁.laid.trans h₂.laid).trans h₃.laid).trans h₄.laid) rfl
    ⟨_, _, _, _, command?_addCommand _ _ _, h₄.lt, h₁.holds.mono (h₂.laid.growth.trans hg₂),
      h₂.holds.mono hg₂, h₃.holds.mono hg₃, h₄.holds.mono hg⟩

theorem LaidCommand.block {body : List Command} {ids : List CommandId}
    (h : LaidCommands scope body a (ids, a₁)) :
    LaidCommand scope (.block body span) a (a₁.addBlock ids span) := by
  have hg := extends_addBlock a₁ ids span
  have hn : (a₁.addBlock ids span).2.HoldsCommand scope (.block body span) ⟨a₁.commands.size⟩ :=
    ⟨_, _, command?_addCommand _ _ _, body?_addBlock _ _ span, h.lt, h.holds.mono hg⟩
  exact ⟨h.laid.trans (.ofCommand hg rfl rfl (by simp [addBlock, addCommand]) hn), hn,
    by simp [addBlock, addCommand]⟩

theorem LaidCommand.cond {test : Pred} {body last : Command} {others : List (Pred × Command)}
    {t : PredId} {b l : CommandId} {os : List (PredId × CommandId)}
    (h₁ : LaidPred scope test a (t, a₁)) (h₂ : LaidCommand scope body a₁ (b, a₂))
    (h₃ : LaidBranches scope others a₂ (os, a₃)) (h₄ : LaidCommand scope last a₃ (l, a₄)) :
    LaidCommand scope (.cond test body others last span) a (a₄.addCond t b os l span) := by
  have hg := extends_addCond a₄ t b os l span
  have hg₃ := h₄.laid.growth.trans hg
  have hg₂ := h₃.laid.growth.trans hg₃
  have hs₃ := h₄.laid.growth.commands_size_le
  have hs₂ := Nat.le_trans h₃.laid.growth.commands_size_le hs₃
  have hn : (a₄.addCond t b os l span).2.HoldsCommand scope (.cond test body others last span)
      ⟨a₄.commands.size⟩ :=
    ⟨t, b, _, os, l, command?_addCommand _ _ _, branches?_addCond a₄ t b os l span,
      Nat.lt_of_lt_of_le h₂.lt hs₂, fun o ho => Nat.lt_of_lt_of_le (h₃.lt o ho) hs₃, h₄.lt,
      h₁.holds.mono (h₂.laid.growth.trans hg₂), h₂.holds.mono hg₂, h₃.holds.mono hg₃,
      h₄.holds.mono hg⟩
  exact ⟨(((h₁.laid.trans h₂.laid).trans h₃.laid).trans h₄.laid).trans
    (.ofCommand hg rfl rfl (by simp [addCond, addCommand]) hn), hn, by simp [addCond, addCommand]⟩

theorem LaidCommand.switch {selector : Expr} {cases : List (Int32 × Command)} {default : Command}
    {s : ExprId} {cs : List (Int32 × CommandId)} {d : CommandId}
    (h₁ : LaidExpr scope selector a (s, a₁)) (h₂ : LaidCases scope cases a₁ (cs, a₂))
    (h₃ : LaidCommand scope default a₂ (d, a₃)) :
    LaidCommand scope (.switch selector cases default span) a (a₃.addSwitch s cs d span) := by
  have hg := extends_addSwitch a₃ s cs d span
  have hg₂ := h₃.laid.growth.trans hg
  have hs₂ := h₃.laid.growth.commands_size_le
  have hn : (a₃.addSwitch s cs d span).2.HoldsCommand scope (.switch selector cases default span)
      ⟨a₃.commands.size⟩ :=
    ⟨s, _, cs, d, command?_addCommand _ _ _, cases?_addSwitch a₃ s cs d span,
      fun c hc => Nat.lt_of_lt_of_le (h₂.lt c hc) hs₂, h₃.lt,
      h₁.holds.mono (h₂.laid.growth.trans hg₂), h₂.holds.mono hg₂, h₃.holds.mono hg⟩
  exact ⟨((h₁.laid.trans h₂.laid).trans h₃.laid).trans
    (.ofCommand hg rfl rfl (by simp [addSwitch, addCommand]) hn), hn,
    by simp [addSwitch, addCommand]⟩

end

mutual

theorem layCommand_laid (scope : ScopeId) : ∀ (c : Command) (a : Arena),
    LaidCommand scope c a (layCommand scope c a)
  | .skip span, a => .of_add (.refl a) rfl (command?_addCommand a .skip span)
  | .printText text span, a => .of_add (.refl a) rfl (command?_addCommand a (.printText text) span)
  | .assign target value span, a => by
    have h := layExpr_laid scope value a
    exact .of_add h.laid rfl ⟨_, command?_addCommand _ _ _, h.holds.mono (extends_addCommand _ _ _)⟩
  | .printInt value span, a => by
    have h := layExpr_laid scope value a
    exact .of_add h.laid rfl ⟨_, command?_addCommand _ _ _, h.holds.mono (extends_addCommand _ _ _)⟩
  | .loop test body _, a => .loop (layPred_laid scope test a) (layCommand_laid scope body _)
  | .count _ start stop step body _, a =>
    .count (layExpr_laid scope start a) (layExpr_laid scope stop _) (layExpr_laid scope step _)
      (layCommand_laid scope body _)
  | .block body _, a => .block (layCommands_laid scope body a)
  | .cond test body others last _, a =>
    .cond (layPred_laid scope test a) (layCommand_laid scope body _)
      (layBranches_laid scope others _) (layCommand_laid scope last _)
  | .switch selector cases default _, a =>
    .switch (layExpr_laid scope selector a) (layCases_laid scope cases _)
      (layCommand_laid scope default _)

theorem layCommands_laid (scope : ScopeId) : ∀ (cs : List Command) (a : Arena),
    LaidCommands scope cs a (layCommands scope cs a)
  | [], a => ⟨.refl a, trivial, fun _ h => nomatch h⟩
  | c :: cs, a => by
    have h := layCommand_laid scope c a
    have hs := layCommands_laid scope cs (layCommand scope c a).2
    refine ⟨h.laid.trans hs.laid, ⟨h.holds.mono hs.laid.growth, hs.holds⟩, ?_⟩
    exact List.forall_mem_cons.mpr
      ⟨Nat.lt_of_lt_of_le h.lt hs.laid.growth.commands_size_le, hs.lt⟩

theorem layBranches_laid (scope : ScopeId) : ∀ (bs : List (Pred × Command)) (a : Arena),
    LaidBranches scope bs a (layBranches scope bs a)
  | [], a => ⟨.refl a, trivial, fun _ h => nomatch h⟩
  | (test, body) :: rest, a => by
    have ht := layPred_laid scope test a
    have hb := layCommand_laid scope body (layPred scope test a).2
    have hs := layBranches_laid scope rest (layCommand scope body (layPred scope test a).2).2
    refine ⟨(ht.laid.trans hb.laid).trans hs.laid, ⟨⟨?_, hb.holds.mono hs.laid.growth⟩, hs.holds⟩,
      ?_⟩
    · exact (ht.holds.mono hb.laid.growth).mono hs.laid.growth
    · exact List.forall_mem_cons.mpr
        ⟨Nat.lt_of_lt_of_le hb.lt hs.laid.growth.commands_size_le, hs.lt⟩

theorem layCases_laid (scope : ScopeId) : ∀ (cs : List (Int32 × Command)) (a : Arena),
    LaidCases scope cs a (layCases scope cs a)
  | [], a => ⟨.refl a, trivial, fun _ h => nomatch h⟩
  | (value, body) :: rest, a => by
    have hb := layCommand_laid scope body a
    have hs := layCases_laid scope rest (layCommand scope body a).2
    refine ⟨hb.laid.trans hs.laid, ⟨⟨rfl, hb.holds.mono hs.laid.growth⟩, hs.holds⟩, ?_⟩
    exact List.forall_mem_cons.mpr
      ⟨Nat.lt_of_lt_of_le hb.lt hs.laid.growth.commands_size_le, hs.lt⟩

end

end Arena

end Enquanto

import Enquanto.Proofs.ModuleLayout

/-!
# Tidy arenas

An arena is tidy if every id in it is referred to exactly once, by a node, by a list or by what
waits for a node of its own, and if the slices of its nodes tile the tables of lists without gap or
overlap. Each way to add a node keeps an arena tidy, and so does laying trees out.

* `Arena.Tidy` is the invariant, with the ids that wait for a node;
* `Arena.Tidy.addExpr` and its siblings are the steps;
* `Arena.layCommand_tidy` and `Module.ofProgram_tidy` are the runs: what waits at the end are the
  bodies of the functions and the top-level commands.
-/

namespace Enquanto

/-! ## References -/

/-- The expressions that a node refers to, the arguments of a call apart. -/
def ExprNode.exprIds : ExprNode → List ExprId
  | .neg operand => [operand]
  | .arith _ left right => [left, right]
  | _ => []

def PredNode.exprIds : PredNode → List ExprId
  | .rel _ left right => [left, right]
  | _ => []

def PredNode.predIds : PredNode → List PredId
  | .not operand => [operand]
  | .logic _ left right => [left, right]
  | _ => []

def CommandNode.exprIds : CommandNode → List ExprId
  | .assign _ _ value => [value]
  | .count _ _ start stop step _ => [start, stop, step]
  | .switch selector _ _ => [selector]
  | .printInt value => [value]
  | _ => []

def CommandNode.predIds : CommandNode → List PredId
  | .cond test _ _ _ => [test]
  | .loop test _ => [test]
  | _ => []

/-- The commands that a node refers to, those in its list apart. -/
def CommandNode.commandIds : CommandNode → List CommandId
  | .cond _ body _ last => [body, last]
  | .loop _ body => [body]
  | .count _ _ _ _ _ body => [body]
  | .switch _ _ default => [default]
  | _ => []

namespace Arena

/-- All references to expressions. -/
def exprIds (a : Arena) : List ExprId :=
  a.exprs.toList.flatMap (·.shape.exprIds) ++ a.args.toList ++
    a.preds.toList.flatMap (·.shape.exprIds) ++ a.commands.toList.flatMap (·.shape.exprIds)

/-- All references to predicates. -/
def predIds (a : Arena) : List PredId :=
  a.preds.toList.flatMap (·.shape.predIds) ++ a.commands.toList.flatMap (·.shape.predIds) ++
    a.branches.toList.map Prod.fst

/-- All references to commands. -/
def commandIds (a : Arena) : List CommandId :=
  a.commands.toList.flatMap (·.shape.commandIds) ++ a.bodies.toList ++
    a.branches.toList.map Prod.snd ++ a.cases.toList.map Prod.snd

end Arena

/-- Of the ids below `n` each is referred to exactly once, here or among those that wait, and no
other id is. -/
def Once {table : Table} (refs waiting : List (TableId table)) (n : Nat) : Prop :=
  ∀ id, refs.count id + waiting.count id = if id.index < n then 1 else 0

section
variable {table : Table} {refs refs' xs waiting waiting' : List (TableId table)} {n : Nat}

/-- The ids that a new node refers to wait no longer. -/
theorem Once.move (h : Once refs (xs ++ waiting) n)
    (hr : ∀ id, refs'.count id = refs.count id + xs.count id) : Once refs' waiting n := by
  intro id
  have := h id
  rw [List.count_append] at this
  rw [hr]
  omega

/-- The new node itself waits. -/
theorem Once.push (h : Once refs waiting n) : Once refs (⟨n⟩ :: waiting) (n + 1) := by
  intro id
  have := h id
  rw [List.count_cons]
  by_cases hid : id.index = n
  · obtain ⟨i⟩ := id
    obtain rfl : i = n := hid
    simp at this ⊢
    omega
  · have hne : (⟨n⟩ : TableId table) ≠ id := fun he => hid (by rw [← he])
    rw [beq_eq_false_iff_ne.mpr hne, if_neg Bool.false_ne_true, Nat.add_zero, this]
    by_cases hlt : id.index < n
    · rw [if_pos hlt, if_pos (by omega)]
    · rw [if_neg hlt, if_neg (by omega)]

theorem Once.perm (h : Once refs waiting n) (hp : waiting.Perm waiting') :
    Once refs waiting' n := by
  intro id
  rw [← hp.count_eq]
  exact h id

end

/-! ## Slices -/

/-- The slices lie one behind the other, from `n` to `m`. -/
def Slice.Tile : Nat → List Slice → Nat → Prop
  | n, [], m => n = m
  | n, s :: rest, m => s.start = n ∧ Slice.Tile (n + s.count) rest m

theorem Slice.Tile.concat {n m : Nat} {slices : List Slice} (h : Slice.Tile n slices m)
    (count : Nat) : Slice.Tile n (slices ++ [⟨m, count⟩]) (m + count) := by
  induction slices generalizing n with
  | nil =>
    obtain rfl : n = m := h
    exact ⟨rfl, rfl⟩
  | cons s rest ih => exact ⟨h.1, ih h.2⟩

def ExprNode.args? : ExprNode → Option Slice
  | .call _ slice => some slice
  | _ => none

def CommandNode.body? : CommandNode → Option Slice
  | .block slice => some slice
  | _ => none

def CommandNode.branches? : CommandNode → Option Slice
  | .cond _ _ slice _ => some slice
  | _ => none

def CommandNode.cases? : CommandNode → Option Slice
  | .switch _ slice _ => some slice
  | _ => none

namespace Arena

/-- The slices of arguments, in the order of the nodes that own them. -/
def argSlices (a : Arena) : List Slice := a.exprs.toList.filterMap (·.shape.args?)

def bodySlices (a : Arena) : List Slice := a.commands.toList.filterMap (·.shape.body?)

def branchSlices (a : Arena) : List Slice := a.commands.toList.filterMap (·.shape.branches?)

def caseSlices (a : Arena) : List Slice := a.commands.toList.filterMap (·.shape.cases?)

/-- Every id is referred to once, if the given ids wait for a node that refers to them, and the
slices of the nodes tile the tables of lists. -/
structure Tidy (a : Arena) (es : List ExprId) (ps : List PredId) (cs : List CommandId) : Prop where
  exprs : Once a.exprIds es a.exprs.size
  preds : Once a.predIds ps a.preds.size
  commands : Once a.commandIds cs a.commands.size
  args : Slice.Tile 0 a.argSlices a.args.size
  bodies : Slice.Tile 0 a.bodySlices a.bodies.size
  branches : Slice.Tile 0 a.branchSlices a.branches.size
  cases : Slice.Tile 0 a.caseSlices a.cases.size

/-! ## Steps -/

variable {a : Arena} {es es' : List ExprId} {ps ps' : List PredId} {cs cs' : List CommandId}

theorem Tidy.perm (h : Tidy a es ps cs) (he : es.Perm es') (hp : ps.Perm ps') (hc : cs.Perm cs') :
    Tidy a es' ps' cs' :=
  { h with exprs := h.exprs.perm he, preds := h.preds.perm hp, commands := h.commands.perm hc }

theorem Tidy.addExpr (node : ExprNode) (h : Tidy a (node.exprIds ++ es) ps cs)
    (hn : node.args? = none) (span : Span) :
    Tidy (a.addExpr node span).2 ((a.addExpr node span).1 :: es) ps cs where
  exprs := by
    simp only [Arena.addExpr, Array.size_push]
    refine (h.exprs.move fun id => ?_).push
    simp [exprIds, List.count_append]
    omega
  preds := h.preds
  commands := h.commands
  args := by simpa [Arena.addExpr, argSlices, hn] using h.args
  bodies := h.bodies
  branches := h.branches
  cases := h.cases

theorem Tidy.addCall {ids : List ExprId} (h : Tidy a (ids ++ es) ps cs) (function : FunctionId)
    (span : Span) :
    Tidy (a.addCall function ids span).2 ((a.addCall function ids span).1 :: es) ps cs where
  exprs := by
    simp only [Arena.addCall, Arena.addExpr, Array.size_push]
    refine (h.exprs.move fun id => ?_).push
    simp [exprIds, ExprNode.exprIds, List.count_append]
    omega
  preds := h.preds
  commands := h.commands
  args := by
    have := h.args.concat ids.length
    simpa [Arena.addCall, Arena.addExpr, argSlices, ExprNode.args?] using this
  bodies := h.bodies
  branches := h.branches
  cases := h.cases

theorem Tidy.addPred (node : PredNode) (h : Tidy a (node.exprIds ++ es) (node.predIds ++ ps) cs)
    (span : Span) : Tidy (a.addPred node span).2 es ((a.addPred node span).1 :: ps) cs where
  exprs := by
    refine h.exprs.move fun id => ?_
    simp [Arena.addPred, exprIds, List.count_append]
    omega
  preds := by
    simp only [Arena.addPred, Array.size_push]
    refine (h.preds.move fun id => ?_).push
    simp [predIds, List.count_append]
    omega
  commands := h.commands
  args := h.args
  bodies := h.bodies
  branches := h.branches
  cases := h.cases

theorem Tidy.addCommand (node : CommandNode)
    (h : Tidy a (node.exprIds ++ es) (node.predIds ++ ps) (node.commandIds ++ cs))
    (hb : node.body? = none) (ho : node.branches? = none) (hc : node.cases? = none) (span : Span) :
    Tidy (a.addCommand node span).2 es ps ((a.addCommand node span).1 :: cs) where
  exprs := by
    refine h.exprs.move fun id => ?_
    simp [Arena.addCommand, exprIds, List.count_append]
    omega
  preds := by
    refine h.preds.move fun id => ?_
    simp [Arena.addCommand, predIds, List.count_append]
    omega
  commands := by
    simp only [Arena.addCommand, Array.size_push]
    refine (h.commands.move fun id => ?_).push
    simp [commandIds, List.count_append]
    omega
  args := h.args
  bodies := by simpa [Arena.addCommand, bodySlices, hb] using h.bodies
  branches := by simpa [Arena.addCommand, branchSlices, ho] using h.branches
  cases := by simpa [Arena.addCommand, caseSlices, hc] using h.cases

theorem Tidy.addBlock {ids : List CommandId} (h : Tidy a es ps (ids ++ cs)) (span : Span) :
    Tidy (a.addBlock ids span).2 es ps ((a.addBlock ids span).1 :: cs) where
  exprs := by simpa [Arena.addBlock, Arena.addCommand, exprIds, CommandNode.exprIds] using h.exprs
  preds := by simpa [Arena.addBlock, Arena.addCommand, predIds, CommandNode.predIds] using h.preds
  commands := by
    simp only [Arena.addBlock, Arena.addCommand, Array.size_push]
    refine (h.commands.move fun id => ?_).push
    simp [commandIds, CommandNode.commandIds, List.count_append]
    omega
  args := h.args
  bodies := by
    have := h.bodies.concat ids.length
    simpa [Arena.addBlock, Arena.addCommand, bodySlices, CommandNode.body?] using this
  branches := by
    simpa [Arena.addBlock, Arena.addCommand, branchSlices, CommandNode.branches?] using h.branches
  cases := by simpa [Arena.addBlock, Arena.addCommand, caseSlices, CommandNode.cases?] using h.cases

theorem Tidy.addCond {test : PredId} {body last : CommandId} {others : List (PredId × CommandId)}
    (h : Tidy a es (test :: (others.map Prod.fst ++ ps))
      (body :: last :: (others.map Prod.snd ++ cs))) (span : Span) :
    Tidy (a.addCond test body others last span).2 es ps
      ((a.addCond test body others last span).1 :: cs) where
  exprs := by simpa [Arena.addCond, Arena.addCommand, exprIds, CommandNode.exprIds] using h.exprs
  preds := by
    have hp : Once a.predIds ((test :: others.map Prod.fst) ++ ps) a.preds.size := h.preds
    refine hp.move fun id => ?_
    simp [Arena.addCond, Arena.addCommand, predIds, CommandNode.predIds, List.count_append,
      List.count_cons]
    omega
  commands := by
    have hc : Once a.commandIds ((body :: last :: others.map Prod.snd) ++ cs) a.commands.size :=
      h.commands
    simp only [Arena.addCond, Arena.addCommand, Array.size_push]
    refine (hc.move fun id => ?_).push
    simp [commandIds, CommandNode.commandIds, List.count_append, List.count_cons]
    omega
  args := h.args
  bodies := by
    simpa [Arena.addCond, Arena.addCommand, bodySlices, CommandNode.body?] using h.bodies
  branches := by
    have := h.branches.concat others.length
    simpa [Arena.addCond, Arena.addCommand, branchSlices, CommandNode.branches?] using this
  cases := by simpa [Arena.addCond, Arena.addCommand, caseSlices, CommandNode.cases?] using h.cases

theorem Tidy.addSwitch {selector : ExprId} {cases : List (Int32 × CommandId)} {default : CommandId}
    (h : Tidy a (selector :: es) ps (default :: (cases.map Prod.snd ++ cs))) (span : Span) :
    Tidy (a.addSwitch selector cases default span).2 es ps
      ((a.addSwitch selector cases default span).1 :: cs) where
  exprs := by
    have he : Once a.exprIds ([selector] ++ es) a.exprs.size := h.exprs
    refine he.move fun id => ?_
    simp [Arena.addSwitch, Arena.addCommand, exprIds, CommandNode.exprIds, List.count_append]
    omega
  preds := by simpa [Arena.addSwitch, Arena.addCommand, predIds, CommandNode.predIds] using h.preds
  commands := by
    have hc : Once a.commandIds ((default :: cases.map Prod.snd) ++ cs) a.commands.size :=
      h.commands
    simp only [Arena.addSwitch, Arena.addCommand, Array.size_push]
    refine (hc.move fun id => ?_).push
    simp [commandIds, CommandNode.commandIds, List.count_append, List.count_cons]
    omega
  args := h.args
  bodies := by
    simpa [Arena.addSwitch, Arena.addCommand, bodySlices, CommandNode.body?] using h.bodies
  branches := by
    simpa [Arena.addSwitch, Arena.addCommand, branchSlices, CommandNode.branches?] using h.branches
  cases := by
    have := h.cases.concat cases.length
    simpa [Arena.addSwitch, Arena.addCommand, caseSlices, CommandNode.cases?] using this

/-! ## Runs -/

mutual

theorem layExpr_tidy (scope : ScopeId) : ∀ (e : Expr) {a : Arena} {es : List ExprId},
    Tidy a es ps cs → Tidy (layExpr scope e a).2 ((layExpr scope e a).1 :: es) ps cs
  | .int value span, _, _, h => h.addExpr (.int value) rfl span
  | .var name span, _, _, h => h.addExpr (.var name scope) rfl span
  | .read span, _, _, h => h.addExpr .read rfl span
  | .neg operand span, _, _, h =>
    (layExpr_tidy scope operand h).addExpr (.neg _) rfl span
  | .arith op left right span, _, _, h =>
    ((layExpr_tidy scope right (layExpr_tidy scope left h)).perm (.swap ..) .rfl .rfl).addExpr
      (.arith op _ _) rfl span
  | .call function args span, _, _, h => (layExprs_tidy scope args h).addCall function span

theorem layExprs_tidy (scope : ScopeId) : ∀ (args : List Expr) {a : Arena} {es : List ExprId},
    Tidy a es ps cs → Tidy (layExprs scope args a).2 ((layExprs scope args a).1 ++ es) ps cs
  | [], _, _, h => h
  | e :: args, _, _, h =>
    (layExprs_tidy scope args (layExpr_tidy scope e h)).perm List.perm_middle .rfl .rfl

end

theorem layPred_tidy (scope : ScopeId) : ∀ (p : Pred) {a : Arena} {ps : List PredId},
    Tidy a es ps cs → Tidy (layPred scope p a).2 es ((layPred scope p a).1 :: ps) cs
  | .lit value span, _, _, h => h.addPred (.lit value) span
  | .not operand span, _, _, h => (layPred_tidy scope operand h).addPred (.not _) span
  | .logic op left right span, _, _, h =>
    ((layPred_tidy scope right (layPred_tidy scope left h)).perm .rfl (.swap ..) .rfl).addPred
      (.logic op _ _) span
  | .rel op left right span, _, _, h =>
    ((layExpr_tidy scope right (layExpr_tidy scope left h)).perm (.swap ..) .rfl .rfl).addPred
      (.rel op _ _) span

mutual

theorem layCommand_tidy (scope : ScopeId) : ∀ (c : Command) {a : Arena} {es : List ExprId}
    {ps : List PredId} {cs : List CommandId}, Tidy a es ps cs →
      Tidy (layCommand scope c a).2 es ps ((layCommand scope c a).1 :: cs)
  | .skip span, _, _, _, _, h => h.addCommand .skip rfl rfl rfl span
  | .printText text span, _, _, _, _, h => h.addCommand (.printText text) rfl rfl rfl span
  | .assign target value span, _, _, _, _, h =>
    (layExpr_tidy scope value h).addCommand (.assign target scope _) rfl rfl rfl span
  | .printInt value span, _, _, _, _, h =>
    (layExpr_tidy scope value h).addCommand (.printInt _) rfl rfl rfl span
  | .block body span, _, _, _, _, h => (layCommands_tidy scope body h).addBlock span
  | .loop test body span, _, _, _, _, h =>
    (layCommand_tidy scope body (layPred_tidy scope test h)).addCommand (.loop _ _) rfl rfl rfl span
  | .count var start stop step body span, _, _, _, _, h => by
    have h₁ := layExpr_tidy scope step (layExpr_tidy scope stop (layExpr_tidy scope start h))
    have h₂ := layCommand_tidy scope body h₁
    refine (h₂.perm ?_ .rfl .rfl).addCommand (.count var scope _ _ _ _) rfl rfl rfl span
    exact (List.Perm.swap ..).trans ((List.Perm.cons _ (.swap ..)).trans (.swap ..))
  | .cond test body others last span, _, _, _, _, h => by
    have h₁ := layCommand_tidy scope body (layPred_tidy scope test h)
    have h₂ := layCommand_tidy scope last (layBranches_tidy scope others h₁)
    refine (h₂.perm .rfl List.perm_middle ?_).addCond span
    exact (List.Perm.cons _ List.perm_middle).trans (.swap ..)
  | .switch selector cases default span, _, _, _, _, h =>
    (layCommand_tidy scope default
      (layCases_tidy scope cases (layExpr_tidy scope selector h))).addSwitch span

theorem layCommands_tidy (scope : ScopeId) : ∀ (body : List Command) {a : Arena}
    {es : List ExprId} {ps : List PredId} {cs : List CommandId}, Tidy a es ps cs →
      Tidy (layCommands scope body a).2 es ps ((layCommands scope body a).1 ++ cs)
  | [], _, _, _, _, h => h
  | c :: body, _, _, _, _, h =>
    (layCommands_tidy scope body (layCommand_tidy scope c h)).perm .rfl .rfl List.perm_middle

theorem layBranches_tidy (scope : ScopeId) : ∀ (bs : List (Pred × Command)) {a : Arena}
    {es : List ExprId} {ps : List PredId} {cs : List CommandId}, Tidy a es ps cs →
      Tidy (layBranches scope bs a).2 es ((layBranches scope bs a).1.map Prod.fst ++ ps)
        ((layBranches scope bs a).1.map Prod.snd ++ cs)
  | [], _, _, _, _, h => h
  | (test, body) :: rest, _, _, _, _, h =>
    (layBranches_tidy scope rest (layCommand_tidy scope body (layPred_tidy scope test h))).perm .rfl
      List.perm_middle List.perm_middle

theorem layCases_tidy (scope : ScopeId) : ∀ (cases : List (Int32 × Command)) {a : Arena}
    {es : List ExprId} {ps : List PredId} {cs : List CommandId}, Tidy a es ps cs →
      Tidy (layCases scope cases a).2 es ps ((layCases scope cases a).1.map Prod.snd ++ cs)
  | [], _, _, _, _, h => h
  | (_, body) :: rest, _, _, _, _, h =>
    (layCases_tidy scope rest (layCommand_tidy scope body h)).perm .rfl .rfl List.perm_middle

end

end Arena

namespace Module

/-- The bodies of the functions. -/
def bodies (m : Module) : List ExprId := m.functions.entries.toList.filterMap (·.body)

/-- What waits for no node are the bodies of the functions and the top-level commands. -/
abbrev Tidy (m : Module) : Prop := m.arena.Tidy m.bodies [] m.commands

theorem add_tidy {m : Module} (hm : m.scopes.size = m.functions.size + 1) (h : m.Tidy)
    (i : Instruction) : (m.add i).Tidy := by
  cases i with
  | command c =>
    have hc : (m.add (.command c)).commands =
        m.commands ++ [(Arena.layCommand .root c m.arena).1] := by
      simp [Module.add, Module.commands]
    rw [Module.Tidy, hc]
    exact (Arena.layCommand_tidy .root c h).perm .rfl .rfl (List.perm_append_singleton _ _).symm
  | declare d =>
    have hd := add_declare d hm
    have hb : (m.add (.declare d)).bodies =
        m.bodies ++ [(Arena.layExpr ⟨m.functions.size + 1⟩ d.body m.arena).1] := by
      simp [hd, Module.bodies]
    have hc : (m.add (.declare d)).commands = m.commands := by
      simp [hd, Module.commands]
    have ha : (m.add (.declare d)).arena =
        (Arena.layExpr ⟨m.functions.size + 1⟩ d.body m.arena).2 := by
      rw [hd]
    rw [Module.Tidy, hb, hc, ha]
    exact (Arena.layExpr_tidy _ d.body h).perm (List.perm_append_singleton _ _).symm .rfl .rfl

theorem foldl_add_tidy (program : Program) {m : Module}
    (hm : m.scopes.size = m.functions.size + 1) (h : m.Tidy) : (program.foldl add m).Tidy := by
  induction program generalizing m with
  | nil => exact h
  | cons i rest ih => exact ih (size_scopes_add hm i) (add_tidy hm h i)

theorem ofProgram_tidy (program : Program) : (ofProgram program).Tidy := by
  refine foldl_add_tidy program rfl ⟨?_, ?_, ?_, rfl, rfl, rfl, rfl⟩
  all_goals
    intro id
    simp [Arena.exprIds, Arena.predIds, Arena.commandIds, Module.bodies, Module.commands]

end Module

end Enquanto

import Enquanto.Program.Parser
import Enquanto.Proofs.Tidy
import Enquanto.Report

/-!
# Flat modules

The module of a program is its post-order and nothing else: no node is left over, none is shared,
and all references lead backwards.

* `Arena.Backward`: a part of the same kind has a smaller id;
* `Module.IsFlattening` gathers what is exact about a module;
* `Module.ofProgram_isFlattening`: the modules of programs are such.
-/

namespace Enquanto

namespace Arena

/-- The expressions that are parts of a node. -/
def exprParts (a : Arena) : ExprNode → List ExprId
  | .call _ slice => (a.args? slice).getD []
  | node => node.exprIds

/-- The commands that are parts of a node. -/
def commandParts (a : Arena) (node : CommandNode) : List CommandId :=
  node.commandIds ++
    match node with
    | .block slice => (a.body? slice).getD []
    | .cond _ _ slice _ => ((a.branches? slice).getD []).map Prod.snd
    | .switch _ slice _ => ((a.cases? slice).getD []).map Prod.snd
    | _ => []

/-- Parts of the same kind have smaller ids. -/
structure Backward (a : Arena) : Prop where
  exprs : ∀ id node, a.expr? id = some node → ∀ i ∈ a.exprParts node.shape, i.index < id.index
  preds : ∀ id node, a.pred? id = some node → ∀ i ∈ node.shape.predIds, i.index < id.index
  commands : ∀ id node, a.command? id = some node →
    ∀ i ∈ a.commandParts node.shape, i.index < id.index

section
variable {a : Arena} {scope : ScopeId}

theorem HoldsExpr.parts_lt {e : Expr} {id : ExprId} {node : Located ExprNode}
    (h : a.HoldsExpr scope e id) (hn : a.expr? id = some node) :
    ∀ i ∈ a.exprParts node.shape, i.index < id.index := by
  cases e with
  | int _ _ | var _ _ | read _ =>
    cases hn.symm.trans h
    simp [exprParts, ExprNode.exprIds]
  | neg _ _ =>
    obtain ⟨i, hn', hi, -⟩ := h
    cases hn.symm.trans hn'
    simpa [exprParts, ExprNode.exprIds] using hi
  | arith _ _ _ _ =>
    obtain ⟨l, r, hn', hl, hr, -⟩ := h
    cases hn.symm.trans hn'
    simpa [exprParts, ExprNode.exprIds] using ⟨hl, hr⟩
  | call _ _ _ =>
    obtain ⟨slice, ids, hn', hs, hi, -⟩ := h
    cases hn.symm.trans hn'
    simpa [exprParts, hs] using hi

theorem HoldsPred.parts_lt {p : Pred} {id : PredId} {node : Located PredNode}
    (h : a.HoldsPred scope p id) (hn : a.pred? id = some node) :
    ∀ i ∈ node.shape.predIds, i.index < id.index := by
  cases p with
  | lit _ _ =>
    cases hn.symm.trans h
    simp [PredNode.predIds]
  | not _ _ =>
    obtain ⟨i, hn', hi, -⟩ := h
    cases hn.symm.trans hn'
    simpa [PredNode.predIds] using hi
  | logic _ _ _ _ =>
    obtain ⟨l, r, hn', hl, hr, -⟩ := h
    cases hn.symm.trans hn'
    simpa [PredNode.predIds] using ⟨hl, hr⟩
  | rel _ _ _ _ =>
    obtain ⟨l, r, hn', -⟩ := h
    cases hn.symm.trans hn'
    simp [PredNode.predIds]

theorem HoldsCommand.parts_lt {c : Command} {id : CommandId} {node : Located CommandNode}
    (h : a.HoldsCommand scope c id) (hn : a.command? id = some node) :
    ∀ i ∈ a.commandParts node.shape, i.index < id.index := by
  cases c with
  | skip _ | printText _ _ =>
    cases hn.symm.trans h
    simp [commandParts, CommandNode.commandIds]
  | assign _ _ _ | printInt _ _ =>
    obtain ⟨v, hn', -⟩ := h
    cases hn.symm.trans hn'
    simp [commandParts, CommandNode.commandIds]
  | block _ _ =>
    obtain ⟨slice, ids, hn', hs, hi, -⟩ := h
    cases hn.symm.trans hn'
    simpa [commandParts, CommandNode.commandIds, hs] using hi
  | cond _ _ _ _ _ =>
    obtain ⟨t, b, slice, os, l, hn', hs, hb, ho, hl, -⟩ := h
    cases hn.symm.trans hn'
    simp only [commandParts, CommandNode.commandIds, hs, Option.getD_some, List.forall_mem_append,
      List.forall_mem_map, List.forall_mem_cons]
    exact ⟨⟨hb, hl, by simp⟩, ho⟩
  | loop _ _ _ =>
    obtain ⟨t, b, hn', hb, -⟩ := h
    cases hn.symm.trans hn'
    simpa [commandParts, CommandNode.commandIds] using hb
  | count _ _ _ _ _ _ =>
    obtain ⟨i, j, k, b, hn', hb, -⟩ := h
    cases hn.symm.trans hn'
    simpa [commandParts, CommandNode.commandIds] using hb
  | switch _ _ _ _ =>
    obtain ⟨s, slice, cs, d, hn', hs, hc, hd, -⟩ := h
    cases hn.symm.trans hn'
    simp only [commandParts, CommandNode.commandIds, hs, Option.getD_some, List.forall_mem_append,
      List.forall_mem_map, List.forall_mem_cons]
    exact ⟨⟨hd, by simp⟩, hc⟩

end

/-! In an arena that was laid out from nothing, every node is the root of one of the trees. -/

section
variable {a : Arena} {f : Flattening}

theorem Laid.exists_holdsExpr (h : Laid {} a f) {id : ExprId} {node : Located ExprNode}
    (hn : a.expr? id = some node) : ∃ scope e, (scope, e) ∈ f.exprs ∧ a.HoldsExpr scope e id :=
  h.exprs.exists_holds (Nat.zero_le _) (Array.getElem?_eq_some_iff.mp hn).1

theorem Laid.exists_holdsPred (h : Laid {} a f) {id : PredId} {node : Located PredNode}
    (hn : a.pred? id = some node) : ∃ scope p, (scope, p) ∈ f.preds ∧ a.HoldsPred scope p id :=
  h.preds.exists_holds (Nat.zero_le _) (Array.getElem?_eq_some_iff.mp hn).1

theorem Laid.exists_holdsCommand (h : Laid {} a f) {id : CommandId} {node : Located CommandNode}
    (hn : a.command? id = some node) :
    ∃ scope c, (scope, c) ∈ f.commands ∧ a.HoldsCommand scope c id :=
  h.commands.exists_holds (Nat.zero_le _) (Array.getElem?_eq_some_iff.mp hn).1

theorem Laid.backward (h : Laid {} a f) : a.Backward where
  exprs := by
    intro id node hn
    obtain ⟨scope, e, -, he⟩ := h.exists_holdsExpr hn
    exact he.parts_lt hn
  preds := by
    intro id node hn
    obtain ⟨scope, p, -, hp⟩ := h.exists_holdsPred hn
    exact hp.parts_lt hn
  commands := by
    intro id node hn
    obtain ⟨scope, c, -, hc⟩ := h.exists_holdsCommand hn
    exact hc.parts_lt hn

end

end Arena

/-- How a declaration is written in a listing. -/
def Declaration.signature (d : Declaration) (names : Names) : String :=
  names.text d.name ++ "(" ++ ", ".intercalate (d.params.map names.text) ++ ")"

/-- What a summary of a program says, counted on its trees. -/
def Program.summary (names : Names) (program : Program) : String :=
  let sizes : List (String × Nat) :=
    [("Instructions", program.length), ("Top-level commands", program.commands.length),
      ("Functions", program.declarations.length), ("Expressions", program.flat.exprs.length),
      ("Predicates", program.flat.preds.length), ("Scopes", program.declarations.length + 1)]
  let signatures := program.declarations.map fun d => "  " ++ d.signature names ++ "\n"
  String.join (sizes.map fun (title, n) => "  " ++ title ++ ": " ++ toString n ++ "\n") ++
    (if signatures = [] then "" else "\nFunctions:\n" ++ String.join signatures)

namespace Arena

variable {a : Arena}

theorem HoldsCommands.length_eq {scope : ScopeId} {cs : List Command} {ids : List CommandId}
    (h : a.HoldsCommands scope cs ids) : ids.length = cs.length := by
  induction cs generalizing ids with
  | nil =>
    cases ids with
    | nil => rfl
    | cons => exact h.elim
  | cons c cs ih =>
    cases ids with
    | nil => exact h.elim
    | cons id ids => exact congrArg (· + 1) (ih h.2)

theorem HoldsSteps.length_eq : ∀ {k : Nat} {program : Program} {steps : List Step},
    a.HoldsSteps k program steps → steps.length = program.length
  | _, [], [], _ => rfl
  | _, .command _ :: _, .command _ :: _, ⟨_, hs⟩ => congrArg (· + 1) hs.length_eq
  | k, .declare _ :: _, .declare _ :: _, ⟨_, hs⟩ => congrArg (· + 1) (hs.length_eq (k := k + 1))

theorem HoldsFunctions.signatures (names : Names) : ∀ {k : Nat} {ds : List Declaration}
    {fs : List Function}, a.HoldsFunctions k ds fs →
      fs.map (·.signature names) = ds.map (·.signature names)
  | _, [], [], _ => rfl
  | _, _ :: _, _ :: _, ⟨⟨_, hf, _⟩, hs⟩ => by
    subst hf
    rw [List.map_cons, List.map_cons, hs.signatures names]
    rfl

end Arena

namespace Module

variable {m : Module} {program : Program}

/-- The summary of a module counts the trees of its program. -/
theorem Represents.summary_eq (h : m.Represents program) (names : Names) :
    Report.summary names m = program.summary names := by
  have hsteps : m.steps.size = program.length := by
    rw [← Array.length_toList, h.steps.length_eq]
  have hexprs : m.arena.exprs.size = program.flat.exprs.length := by
    rw [h.arena.exprs.eq_add]
    simp
  have hpreds : m.arena.preds.size = program.flat.preds.length := by
    rw [h.arena.preds.eq_add]
    simp
  have hscopes : m.scopes.size = program.declarations.length + 1 := by
    rw [Scopes.size, ← Array.length_toList, h.scopes, List.length_replicate]
  have hsigs := congrArg (List.map fun s => "  " ++ s ++ "\n") (h.functions.signatures names)
  simp only [List.map_map, Function.comp_def] at hsigs
  simp only [Report.summary, Program.summary, hsteps, h.commands.length_eq, h.functions_size,
    hexprs, hpreds, hscopes, hsigs]

/-- The module is exactly the post-order of the program. -/
structure IsFlattening (m : Module) (program : Program) : Prop where
  /-- The subtrees of the program stand in the tables in post-order, and there is nothing else. -/
  postorder : Arena.Laid {} m.arena program.flat
  /-- The functions and steps of the module are the declarations and instructions of the program. -/
  functions : m.arena.HoldsFunctions 0 program.declarations m.functions.entries.toList
  steps : m.arena.HoldsSteps 0 program m.steps.toList
  backward : m.arena.Backward
  /-- Each expression is referred to once, by a node, a list of arguments or as a body. -/
  exprs_once : ∀ id, (m.arena.exprIds ++ m.bodies).count id =
    if id.index < m.arena.exprs.size then 1 else 0
  preds_once : ∀ id, m.arena.predIds.count id = if id.index < m.arena.preds.size then 1 else 0
  /-- Each command is referred to once, by a node, a list or as a top-level command. -/
  commands_once : ∀ id, (m.arena.commandIds ++ m.commands).count id =
    if id.index < m.arena.commands.size then 1 else 0
  /-- The slices lie one behind the other, in the order of their nodes, and fill their tables. -/
  args_tiled : Slice.Tile 0 m.arena.argSlices m.arena.args.size
  bodies_tiled : Slice.Tile 0 m.arena.bodySlices m.arena.bodies.size
  branches_tiled : Slice.Tile 0 m.arena.branchSlices m.arena.branches.size
  cases_tiled : Slice.Tile 0 m.arena.caseSlices m.arena.cases.size
  summary : ∀ names, Report.summary names m = program.summary names

theorem ofProgram_isFlattening (program : Program) : (ofProgram program).IsFlattening program := by
  have h := ofProgram_represents program
  have ht := ofProgram_tidy program
  refine ⟨h.arena, h.functions, h.steps, h.arena.backward, fun id => ?_, fun id => ?_, fun id => ?_,
    ht.args, ht.bodies, ht.branches, ht.cases, h.summary_eq⟩
  · rw [List.count_append]
    exact ht.exprs id
  · exact ht.preds id
  · rw [List.count_append]
    exact ht.commands id

end Module

end Enquanto

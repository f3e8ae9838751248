import Enquanto.Proofs.ModuleLayout
import Enquanto.Proofs.Translation
import Mathlib.Logic.Function.Basic

/-!
# Modules under other names

A module uses names in its variables, its texts and its functions. Giving other numbers to them
changes nothing else in it.

* `Module.rename` and `Module.names`;
* `Arena.layExpr_rename`, `Arena.layPred_rename` and `Arena.layCommand_rename`: trees that are
  translations of each other are laid out in the same places;
* `Module.ofProgram_rename`: so the module of a program whose names are replaced is the module with
  its names replaced;
* `Module.name_of_mem_names`: the module has no names but those of the program.
-/

namespace Enquanto

variable {ρ : Name → Name}

/-! ## Names of a module -/

def Located.map {α β : Type} (f : α → β) (x : Located α) : Located β := ⟨f x.shape, x.span⟩

def ExprNode.rename (ρ : Name → Name) : ExprNode → ExprNode
  | .var x scope => .var (ρ x) scope
  | node => node

def ExprNode.names : ExprNode → List Name
  | .var x _ => [x]
  | _ => []

def CommandNode.rename (ρ : Name → Name) : CommandNode → CommandNode
  | .assign x scope value => .assign (ρ x) scope value
  | .count x scope start stop step body => .count (ρ x) scope start stop step body
  | .printText x => .printText (ρ x)
  | node => node

def CommandNode.names : CommandNode → List Name
  | .assign x _ _ | .count x _ _ _ _ _ | .printText x => [x]
  | _ => []

def Function.rename (ρ : Name → Name) (f : Function) : Function :=
  { f with name := ρ f.name, params := f.params.map ρ }

def Function.names (f : Function) : List Name := f.name :: f.params

/-- Replaces the names in all nodes. -/
def Arena.rename (ρ : Name → Name) (a : Arena) : Arena :=
  { a with
    exprs := a.exprs.map (Located.map (ExprNode.rename ρ))
    commands := a.commands.map (Located.map (CommandNode.rename ρ)) }

namespace Module

/-- Replaces all names of a module. -/
def rename (ρ : Name → Name) (m : Module) : Module :=
  { m with
    arena := m.arena.rename ρ
    functions := ⟨m.functions.entries.map (Function.rename ρ)⟩ }

/-- The names that a module uses, as often as it does. -/
def names (m : Module) : List Name :=
  m.arena.exprs.toList.flatMap (·.shape.names) ++
    m.arena.commands.toList.flatMap (·.shape.names) ++
    m.functions.entries.toList.flatMap Function.names

end Module

theorem ExprNode.names_rename (node : ExprNode) : (node.rename ρ).names = node.names.map ρ := by
  cases node <;> rfl

theorem CommandNode.names_rename (node : CommandNode) :
    (node.rename ρ).names = node.names.map ρ := by
  cases node <;> rfl

theorem Module.names_rename (m : Module) : (m.rename ρ).names = m.names.map ρ := by
  simp only [names, rename, Arena.rename, Array.toList_map, List.flatMap_map, List.map_append,
    List.map_flatMap, Located.map, ExprNode.names_rename, CommandNode.names_rename]
  rfl

/-! ## Layout -/

/-- All that the translation may change is names, and it does so as `ρ`. -/
structure Translation.Renames (τ : Translation) (ρ : Name → Name) : Prop where
  name : ∀ {x x'}, τ.name x x' → x' = ρ x
  function : ∀ {f f'}, τ.function f f' → f' = f
  span : ∀ {s s'}, τ.span s s' → s' = s

theorem Translation.Renames.map_eq {τ : Translation} (hτ : τ.Renames ρ) {xs xs' : List Name}
    (h : List.Forall₂ τ.name xs xs') : xs' = xs.map ρ := by
  induction h with
  | nil => rfl
  | cons hx _ ih => rw [List.map_cons, ← hτ.name hx, ih]

namespace Arena

variable {τ : Translation} {scope : ScopeId}

theorem addExpr_rename (a : Arena) (node : ExprNode) (span : Span) :
    (a.rename ρ).addExpr (node.rename ρ) span =
      ((a.addExpr node span).1, (a.addExpr node span).2.rename ρ) := by
  simp [addExpr, rename, Located.map]

theorem addPred_rename (a : Arena) (node : PredNode) (span : Span) :
    (a.rename ρ).addPred node span = ((a.addPred node span).1, (a.addPred node span).2.rename ρ) :=
  rfl

theorem addCommand_rename (a : Arena) (node : CommandNode) (span : Span) :
    (a.rename ρ).addCommand (node.rename ρ) span =
      ((a.addCommand node span).1, (a.addCommand node span).2.rename ρ) := by
  simp [addCommand, rename, Located.map]

theorem addCall_rename (a : Arena) (function : FunctionId) (args : List ExprId) (span : Span) :
    (a.rename ρ).addCall function args span =
      ((a.addCall function args span).1, (a.addCall function args span).2.rename ρ) := by
  simp [addCall, addExpr, rename, Located.map, ExprNode.rename]

theorem addBlock_rename (a : Arena) (body : List CommandId) (span : Span) :
    (a.rename ρ).addBlock body span =
      ((a.addBlock body span).1, (a.addBlock body span).2.rename ρ) := by
  simp [addBlock, addCommand, rename, Located.map, CommandNode.rename]

theorem addCond_rename (a : Arena) (test : PredId) (body : CommandId)
    (others : List (PredId × CommandId)) (last : CommandId) (span : Span) :
    (a.rename ρ).addCond test body others last span =
      ((a.addCond test body others last span).1,
        (a.addCond test body others last span).2.rename ρ) := by
  simp [addCond, addCommand, rename, Located.map, CommandNode.rename]

theorem addSwitch_rename (a : Arena) (selector : ExprId) (cases : List (Int32 × CommandId))
    (default : CommandId) (span : Span) :
    (a.rename ρ).addSwitch selector cases default span =
      ((a.addSwitch selector cases default span).1,
        (a.addSwitch selector cases default span).2.rename ρ) := by
  simp [addSwitch, addCommand, rename, Located.map, CommandNode.rename]

mutual

theorem layExpr_rename (hτ : τ.Renames ρ) : ∀ {e e' : Expr}, e.Translates τ e' → ∀ a : Arena,
    layExpr scope e' (a.rename ρ) = ((layExpr scope e a).1, (layExpr scope e a).2.rename ρ)
  | .int _ _, _, .int hs, a => by
    obtain rfl := hτ.span hs
    exact a.addExpr_rename (.int _) _
  | .var _ _, _, .var hx hs, a => by
    obtain rfl := hτ.name hx
    obtain rfl := hτ.span hs
    exact a.addExpr_rename (.var _ scope) _
  | .neg _ _, _, .neg he hs, a => by
    obtain rfl := hτ.span hs
    simp only [layExpr, layExpr_rename hτ he]
    exact addExpr_rename _ (.neg _) _
  | .arith _ _ _ _, _, .arith hl hr hs, a => by
    obtain rfl := hτ.span hs
    simp only [layExpr, layExpr_rename hτ hl, layExpr_rename hτ hr]
    exact addExpr_rename _ (.arith _ _ _) _
  | .read _, _, .read hs, a => by
    obtain rfl := hτ.span hs
    exact a.addExpr_rename .read _
  | .call _ _ _, _, .call hf hes hs, a => by
    obtain rfl := hτ.function hf
    obtain rfl := hτ.span hs
    simp only [layExpr, layExprs_rename hτ hes]
    exact addCall_rename _ _ _ _

theorem layExprs_rename (hτ : τ.Renames ρ) : ∀ {es es' : List Expr},
    List.Forall₂ (Expr.Translates τ) es es' → ∀ a : Arena,
    layExprs scope es' (a.rename ρ) = ((layExprs scope es a).1, (layExprs scope es a).2.rename ρ)
  | [], _, .nil, _ => rfl
  | _ :: _, _, .cons he hes, a => by
    simp only [layExprs, layExpr_rename hτ he, layExprs_rename hτ hes]

end

theorem layPred_rename (hτ : τ.Renames ρ) : ∀ {p p' : Pred}, p.Translates τ p' → ∀ a : Arena,
    layPred scope p' (a.rename ρ) = ((layPred scope p a).1, (layPred scope p a).2.rename ρ)
  | .lit _ _, _, .lit hs, a => by
    obtain rfl := hτ.span hs
    exact a.addPred_rename _ _
  | .not _ _, _, .not hp hs, a => by
    obtain rfl := hτ.span hs
    simp only [layPred, layPred_rename hτ hp]
    exact addPred_rename _ _ _
  | .logic _ _ _ _, _, .logic hl hr hs, a => by
    obtain rfl := hτ.span hs
    simp only [layPred, layPred_rename hτ hl, layPred_rename hτ hr]
    exact addPred_rename _ _ _
  | .rel _ _ _ _, _, .rel hl hr hs, a => by
    obtain rfl := hτ.span hs
    simp only [layPred, layExpr_rename hτ hl, layExpr_rename hτ hr]
    exact addPred_rename _ _ _

mutual

theorem layCommand_rename (hτ : τ.Renames ρ) : ∀ {c c' : Command}, c.Translates τ c' →
    ∀ a : Arena, layCommand scope c' (a.rename ρ) =
      ((layCommand scope c a).1, (layCommand scope c a).2.rename ρ)
  | .skip _, _, .skip hs, a => by
    obtain rfl := hτ.span hs
    exact a.addCommand_rename .skip _
  | .assign _ _ _, _, .assign hx he hs, a => by
    obtain rfl := hτ.name hx
    obtain rfl := hτ.span hs
    simp only [layCommand, layExpr_rename hτ he]
    exact addCommand_rename _ (.assign _ _ _) _
  | .block _ _, _, .block hcs hs, a => by
    obtain rfl := hτ.span hs
    simp only [layCommand, layCommands_rename hτ hcs]
    exact addBlock_rename _ _ _
  | .cond _ _ _ _ _, _, .cond ht hb ho hl hs, a => by
    obtain rfl := hτ.span hs
    simp only [layCommand, layPred_rename hτ ht, layCommand_rename hτ hb,
      layBranches_rename hτ ho, layCommand_rename hτ hl]
    exact addCond_rename _ _ _ _ _ _
  | .loop _ _ _, _, .loop ht hb hs, a => by
    obtain rfl := hτ.span hs
    simp only [layCommand, layPred_rename hτ ht, layCommand_rename hτ hb]
    exact addCommand_rename _ (.loop _ _) _
  | .count _ _ _ _ _ _, _, .count hx hi hj hk hb hs, a => by
    obtain rfl := hτ.name hx
    obtain rfl := hτ.span hs
    simp only [layCommand, layExpr_rename hτ hi, layExpr_rename hτ hj, layExpr_rename hτ hk,
      layCommand_rename hτ hb]
    exact addCommand_rename _ (.count _ _ _ _ _ _) _
  | .switch _ _ _ _, _, .switch he hc hd hs, a => by
    obtain rfl := hτ.span hs
    simp only [layCommand, layExpr_rename hτ he, layCases_rename hτ hc, layCommand_rename hτ hd]
    exact addSwitch_rename _ _ _ _ _
  | .printInt _ _, _, .printInt he hs, a => by
    obtain rfl := hτ.span hs
    simp only [layCommand, layExpr_rename hτ he]
    exact addCommand_rename _ (.printInt _) _
  | .printText _ _, _, .printText hx hs, a => by
    obtain rfl := hτ.name hx
    obtain rfl := hτ.span hs
    exact a.addCommand_rename (.printText _) _

theorem layCommands_rename (hτ : τ.Renames ρ) : ∀ {cs cs' : List Command},
    List.Forall₂ (Command.Translates τ) cs cs' → ∀ a : Arena,
    layCommands scope cs' (a.rename ρ) =
      ((layCommands scope cs a).1, (layCommands scope cs a).2.rename ρ)
  | [], _, .nil, _ => rfl
  | _ :: _, _, .cons hc hcs, a => by
    simp only [layCommands, layCommand_rename hτ hc, layCommands_rename hτ hcs]

theorem layBranches_rename (hτ : τ.Renames ρ) : ∀ {bs bs' : List (Pred × Command)},
    List.Forall₂ (Command.BranchTranslates τ) bs bs' → ∀ a : Arena,
    layBranches scope bs' (a.rename ρ) =
      ((layBranches scope bs a).1, (layBranches scope bs a).2.rename ρ)
  | [], _, .nil, _ => rfl
  | (_, _) :: _, _, .cons (.intro ht hb) hbs, a => by
    simp only [layBranches, layPred_rename hτ ht, layCommand_rename hτ hb,
      layBranches_rename hτ hbs]

theorem layCases_rename (hτ : τ.Renames ρ) : ∀ {cs cs' : List (Int32 × Command)},
    List.Forall₂ (Command.CaseTranslates τ) cs cs' → ∀ a : Arena,
    layCases scope cs' (a.rename ρ) = ((layCases scope cs a).1, (layCases scope cs a).2.rename ρ)
  | [], _, .nil, _ => rfl
  | (_, _) :: _, _, .cons (.intro hb) hcs, a => by
    simp only [layCases, layCommand_rename hτ hb, layCases_rename hτ hcs]

end

end Arena

namespace Module

variable {τ : Translation}

theorem add_rename (hτ : τ.Renames ρ) {i i' : Instruction} (h : i.Translates τ i') (m : Module) :
    (m.rename ρ).add i' = (m.add i).rename ρ := by
  cases h with
  | command hc =>
    simp only [add, rename, Arena.layCommand_rename hτ hc]
  | @declare d d' hd =>
    have hsize : (m.rename ρ).functions.size = m.functions.size := Array.size_map
    simp only [add, Scopes.add, setBody_declare]
    rw [show (m.rename ρ).arena = m.arena.rename ρ from rfl,
      show (m.rename ρ).scopes = m.scopes from rfl, Arena.layExpr_rename hτ hd.body]
    rw [hτ.name hd.name, hτ.span hd.span, hτ.map_eq hd.params]
    simp [rename, Functions.declare, Function.rename]

/-- The module of a program with other names is the module of the program, with these names. -/
theorem ofProgram_rename (hτ : τ.Renames ρ) {program program' : Program}
    (h : List.Forall₂ (Instruction.Translates τ) program program') :
    ofProgram program' = (ofProgram program).rename ρ := by
  have hfold : ∀ m : Module, program'.foldl add (m.rename ρ) = (program.foldl add m).rename ρ := by
    induction h with
    | nil => exact fun _ => rfl
    | cons hi _ ih =>
      intro m
      rw [List.foldl_cons, List.foldl_cons, add_rename hτ hi, ih]
  have hempty : rename ρ {} = {} := by
    simp [rename, Arena.rename]
  rw [ofProgram, ← hempty, hfold]
  rfl

/-- Every name of the module is one that the translation speaks of. -/
theorem name_of_mem_names (hτ : τ.Renames ρ) {program program' : Program}
    (h : List.Forall₂ (Instruction.Translates τ) program program') {x : Name}
    (hx : x ∈ (ofProgram program).names) : τ.name x (ρ x) := by
  by_contra hne
  -- Otherwise any other name could stand for it as well.
  have hother : τ.Renames (Function.update ρ x ⟨(ρ x).index + 1⟩) := by
    refine ⟨fun {y y'} hy => ?_, hτ.function, hτ.span⟩
    have hyx : y ≠ x := by
      rintro rfl
      exact hne (hτ.name hy ▸ hy)
    rw [Function.update_of_ne hyx, hτ.name hy]
  have hnames := congrArg names ((ofProgram_rename hτ h).symm.trans (ofProgram_rename hother h))
  rw [names_rename, names_rename, List.map_inj_left] at hnames
  have hsame := congrArg Name.index (hnames x hx)
  rw [Function.update_self] at hsame
  exact Nat.succ_ne_self _ hsame.symm

end Module

end Enquanto

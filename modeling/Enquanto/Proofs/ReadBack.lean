import Enquanto.Proofs.ModuleLayout
import Enquanto.Proofs.ProgramParsing

/-!
# Reading a module back

`Module.program?` rebuilds the trees of a program from its module. Parts of the same kind have
smaller ids than the whole, so the size of a table bounds the depth of the trees in it. Reading back
undoes laying out, and so a source is accepted by the parser exactly if it derives from the grammar,
and its module is the tree of that derivation.

* `Module.program?_ofProgram`: nothing is lost by laying a program out;
* `Module.parse_iff_derives`: the modules that the parser gives.
-/

namespace Enquanto

open Grammar

namespace Arena

/-- The expression at an id, less deep than `n`, if its variables are in `scope`. -/
def readExpr? (a : Arena) (scope : ScopeId) : (n : Nat) → ExprId → Option Expr
  | 0, _ => none
  | n + 1, id => do
    let node ← a.expr? id
    match node.shape with
    | .int value => return .int value node.span
    | .var name s => if s = scope then return .var name node.span else none
    | .neg i => return .neg (← readExpr? a scope n i) node.span
    | .arith op l r =>
      return .arith op (← readExpr? a scope n l) (← readExpr? a scope n r) node.span
    | .read => return .read node.span
    | .call function slice =>
      return .call function (← (← a.args? slice).mapM (readExpr? a scope n)) node.span

/-- The predicate at an id, less deep than `n`. -/
def readPred? (a : Arena) (scope : ScopeId) : (n : Nat) → PredId → Option Pred
  | 0, _ => none
  | n + 1, id => do
    let node ← a.pred? id
    match node.shape with
    | .lit value => return .lit value node.span
    | .not i => return .not (← readPred? a scope n i) node.span
    | .logic op l r =>
      return .logic op (← readPred? a scope n l) (← readPred? a scope n r) node.span
    | .rel op l r =>
      return .rel op (← a.readExpr? scope a.exprs.size l) (← a.readExpr? scope a.exprs.size r)
        node.span

/-- Both parts of a pair, if both can be read. -/
def readPair? {α β γ δ : Type} (first : α → Option γ) (second : β → Option δ) (x : α × β) :
    Option (γ × δ) :=
  return (← first x.1, ← second x.2)

/-- The command at an id, less deep than `n`, if its variables are in `scope`. -/
def readCommand? (a : Arena) (scope : ScopeId) : (n : Nat) → CommandId → Option Command
  | 0, _ => none
  | n + 1, id => do
    let node ← a.command? id
    let expr := a.readExpr? scope a.exprs.size
    let pred := a.readPred? scope a.preds.size
    let command := readCommand? a scope n
    match node.shape with
    | .skip => return .skip node.span
    | .assign target s v =>
      if s = scope then return .assign target (← expr v) node.span else none
    | .block slice => return .block (← (← a.body? slice).mapM command) node.span
    | .cond t b slice l => do
      let others ← (← a.branches? slice).mapM (readPair? pred command)
      return .cond (← pred t) (← command b) others (← command l) node.span
    | .loop t b => return .loop (← pred t) (← command b) node.span
    | .count var s i j k b =>
      if s = scope then
        return .count var (← expr i) (← expr j) (← expr k) (← command b) node.span
      else none
    | .switch s slice d => do
      let cases ← (← a.cases? slice).mapM (readPair? some command)
      return .switch (← expr s) cases (← command d) node.span
    | .printInt v => return .printInt (← expr v) node.span
    | .printText text => return .printText text node.span

section
variable {a : Arena} {scope : ScopeId}

mutual

theorem HoldsExpr.read : ∀ {e : Expr} {id : ExprId} {n : Nat}, a.HoldsExpr scope e id →
    id.index < n → a.readExpr? scope n id = some e
  | .int _ _, id, n + 1, hn, _ => by
    have hn : a.expr? id = _ := hn
    simp [readExpr?, hn]
  | .var _ _, id, n + 1, hn, _ => by
    have hn : a.expr? id = _ := hn
    simp [readExpr?, hn]
  | .read _, id, n + 1, hn, _ => by
    have hn : a.expr? id = _ := hn
    simp [readExpr?, hn]
  | .neg _ _, _, n + 1, ⟨i, hn, hi, he⟩, hid => by
    have h := he.read (n := n) (by omega)
    simp [readExpr?, hn, h]
  | .arith _ _ _ _, _, n + 1, ⟨l, r, hn, hl, hr, he, he'⟩, hid => by
    have h := he.read (n := n) (by omega)
    have h' := he'.read (n := n) (by omega)
    simp [readExpr?, hn, h, h']
  | .call _ _ _, _, n + 1, ⟨slice, ids, hn, hs, hi, hes⟩, hid => by
    have h := hes.read (n := n) fun i hm => Nat.lt_of_lt_of_le (hi i hm) (Nat.le_of_lt_succ hid)
    simp [readExpr?, hn, hs, h]

theorem HoldsExprs.read : ∀ {es : List Expr} {ids : List ExprId} {n : Nat},
    a.HoldsExprs scope es ids → (∀ i ∈ ids, i.index < n) →
      ids.mapM (a.readExpr? scope n) = some es
  | [], [], _, _, _ => rfl
  | _ :: _, _ :: _, n, ⟨he, hes⟩, hid => by
    obtain ⟨h₁, h₂⟩ := List.forall_mem_cons.mp hid
    simp [List.mapM_cons, he.read h₁, hes.read h₂]

end

theorem HoldsExpr.lt_size {e : Expr} {id : ExprId} (h : a.HoldsExpr scope e id) :
    id.index < a.exprs.size := by
  have hn : ∃ node, a.expr? id = some node := by
    cases e with
    | int _ _ | var _ _ | read _ => exact ⟨_, h⟩
    | neg _ _ =>
      obtain ⟨i, hn, -⟩ := h
      exact ⟨_, hn⟩
    | arith _ _ _ _ | call _ _ _ =>
      obtain ⟨i, j, hn, -⟩ := h
      exact ⟨_, hn⟩
  obtain ⟨node, hn⟩ := hn
  exact (Array.getElem?_eq_some_iff.mp hn).1

/-- The expression at an id, read with all the depth that its table allows. -/
theorem HoldsExpr.read_size {e : Expr} {id : ExprId} (h : a.HoldsExpr scope e id) :
    a.readExpr? scope a.exprs.size id = some e :=
  h.read h.lt_size

theorem HoldsPred.read : ∀ {p : Pred} {id : PredId} {n : Nat}, a.HoldsPred scope p id →
    id.index < n → a.readPred? scope n id = some p
  | .lit _ _, id, n + 1, hn, _ => by
    have hn : a.pred? id = _ := hn
    simp [readPred?, hn]
  | .not _ _, _, n + 1, ⟨i, hn, hi, hp⟩, hid => by
    have h := hp.read (n := n) (by omega)
    simp [readPred?, hn, h]
  | .logic _ _ _ _, _, n + 1, ⟨l, r, hn, hl, hr, hp, hp'⟩, hid => by
    have h := hp.read (n := n) (by omega)
    have h' := hp'.read (n := n) (by omega)
    simp [readPred?, hn, h, h']
  | .rel _ _ _ _, _, n + 1, ⟨l, r, hn, he, he'⟩, _ => by
    simp [readPred?, hn, he.read_size, he'.read_size]

theorem HoldsPred.read_size {p : Pred} {id : PredId} (h : a.HoldsPred scope p id) :
    a.readPred? scope a.preds.size id = some p := by
  have hn : ∃ node, a.pred? id = some node := by
    cases p with
    | lit _ _ => exact ⟨_, h⟩
    | not _ _ =>
      obtain ⟨i, hn, -⟩ := h
      exact ⟨_, hn⟩
    | logic _ _ _ _ | rel _ _ _ _ =>
      obtain ⟨i, j, hn, -⟩ := h
      exact ⟨_, hn⟩
  obtain ⟨node, hn⟩ := hn
  exact h.read (Array.getElem?_eq_some_iff.mp hn).1

theorem HoldsCommand.lt_size {c : Command} {id : CommandId} (h : a.HoldsCommand scope c id) :
    id.index < a.commands.size := by
  have hn : ∃ node, a.command? id = some node := by
    cases c with
    | skip _ | printText _ _ => exact ⟨_, h⟩
    | assign _ _ _ | printInt _ _ =>
      obtain ⟨i, hn, -⟩ := h
      exact ⟨_, hn⟩
    | block _ _ | loop _ _ _ =>
      obtain ⟨i, j, hn, -⟩ := h
      exact ⟨_, hn⟩
    | count _ _ _ _ _ _ | switch _ _ _ _ =>
      obtain ⟨i, j, k, l, hn, -⟩ := h
      exact ⟨_, hn⟩
    | cond _ _ _ _ _ =>
      obtain ⟨i, j, k, l, o, hn, -⟩ := h
      exact ⟨_, hn⟩
  obtain ⟨node, hn⟩ := hn
  exact (Array.getElem?_eq_some_iff.mp hn).1

mutual

theorem HoldsCommand.read : ∀ {c : Command} {id : CommandId} {n : Nat},
    a.HoldsCommand scope c id → id.index < n → a.readCommand? scope n id = some c
  | .skip _, id, n + 1, hn, _ => by
    have hn : a.command? id = _ := hn
    simp [readCommand?, hn]
  | .printText _ _, id, n + 1, hn, _ => by
    have hn : a.command? id = _ := hn
    simp [readCommand?, hn]
  | .assign _ _ _, _, n + 1, ⟨v, hn, he⟩, _ => by simp [readCommand?, hn, he.read_size]
  | .printInt _ _, _, n + 1, ⟨v, hn, he⟩, _ => by simp [readCommand?, hn, he.read_size]
  | .block _ _, _, n + 1, ⟨slice, ids, hn, hs, hi, hcs⟩, hid => by
    have h := hcs.read (n := n) fun i hm => Nat.lt_of_lt_of_le (hi i hm) (Nat.le_of_lt_succ hid)
    simp [readCommand?, hn, hs, h]
  | .cond _ _ _ _ _, _, n + 1, ⟨t, b, slice, os, l, hn, hs, hb, ho, hl, hp, hc, hbs, hc'⟩, hid => by
    have h := hc.read (n := n) (by omega)
    have h' := hc'.read (n := n) (by omega)
    have hbs := hbs.read (n := n) fun i hm => Nat.lt_of_lt_of_le (ho i hm) (Nat.le_of_lt_succ hid)
    simp only [readCommand?, hn, hs, hp.read_size, h, h', hbs, Option.bind_eq_bind,
      Option.bind_some]
    rfl
  | .loop _ _ _, _, n + 1, ⟨t, b, hn, hb, hp, hc⟩, hid => by
    have h := hc.read (n := n) (by omega)
    simp [readCommand?, hn, hp.read_size, h]
  | .count _ _ _ _ _ _, _, n + 1, ⟨i, j, k, b, hn, hb, hi, hj, hk, hc⟩, hid => by
    have h := hc.read (n := n) (by omega)
    simp [readCommand?, hn, hi.read_size, hj.read_size, hk.read_size, h]
  | .switch _ _ _ _, _, n + 1, ⟨s, slice, cs, d, hn, hs, hi, hd, he, hcs, hc⟩, hid => by
    have h := hc.read (n := n) (by omega)
    have hcs := hcs.read (n := n) fun i hm => Nat.lt_of_lt_of_le (hi i hm) (Nat.le_of_lt_succ hid)
    simp only [readCommand?, hn, hs, he.read_size, h, hcs, Option.bind_eq_bind, Option.bind_some]
    rfl

theorem HoldsCommands.read : ∀ {cs : List Command} {ids : List CommandId} {n : Nat},
    a.HoldsCommands scope cs ids → (∀ i ∈ ids, i.index < n) →
      ids.mapM (a.readCommand? scope n) = some cs
  | [], [], _, _, _ => rfl
  | _ :: _, _ :: _, n, ⟨hc, hcs⟩, hid => by
    obtain ⟨h₁, h₂⟩ := List.forall_mem_cons.mp hid
    simp [List.mapM_cons, hc.read h₁, hcs.read h₂]

theorem HoldsBranches.read : ∀ {bs : List (Pred × Command)} {ids : List (PredId × CommandId)}
    {n : Nat}, a.HoldsBranches scope bs ids → (∀ i ∈ ids, i.2.index < n) →
      ids.mapM (readPair? (a.readPred? scope a.preds.size) (a.readCommand? scope n)) = some bs
  | [], [], _, _, _ => rfl
  | _ :: _, _ :: _, n, ⟨⟨hp, hc⟩, hbs⟩, hid => by
    obtain ⟨h₁, h₂⟩ := List.forall_mem_cons.mp hid
    simp [List.mapM_cons, readPair?, hp.read_size, hc.read h₁, hbs.read h₂]

theorem HoldsCases.read : ∀ {cs : List (Int32 × Command)} {ids : List (Int32 × CommandId)}
    {n : Nat}, a.HoldsCases scope cs ids → (∀ i ∈ ids, i.2.index < n) →
      ids.mapM (readPair? some (a.readCommand? scope n)) = some cs
  | [], [], _, _, _ => rfl
  | _ :: _, _ :: _, n, ⟨⟨hv, hc⟩, hcs⟩, hid => by
    obtain ⟨h₁, h₂⟩ := List.forall_mem_cons.mp hid
    simp [List.mapM_cons, readPair?, hv, hc.read h₁, hcs.read h₂]

end

end

end Arena

namespace Module

/-- The instruction of a step. -/
def instruction? (m : Module) : Step → Option Instruction
  | .command id => return .command (← m.arena.readCommand? .root m.arena.commands.size id)
  | .declare id => do
    let f ← m.functions.get? id
    let body ← m.arena.readExpr? f.scope m.arena.exprs.size (← f.body)
    return .declare ⟨f.name, f.params, body, f.span⟩

/-- The program that a module lays out. -/
def program? (m : Module) : Option Program := m.steps.toList.mapM m.instruction?

variable {m : Module} {program : Program}

/-- The program that a module represents can be read back from it. -/
theorem Represents.program?_eq (h : m.Represents program) : m.program? = some program := by
  suffices hs : ∀ {k : Nat} {rest : Program} {steps : List Step}, m.arena.HoldsSteps k rest steps →
      (∀ i d, rest.declarations[i]? = some d → program.declarations[k + i]? = some d) →
      steps.mapM m.instruction? = some rest from
    hs h.steps fun i d hd => by rwa [Nat.zero_add]
  intro k rest steps hs hd
  induction rest generalizing k steps with
  | nil =>
    cases steps with
    | nil => rfl
    | cons s steps => exact hs.elim
  | cons i rest ih =>
    cases steps with
    | nil => cases i <;> exact hs.elim
    | cons s steps =>
      cases i with
      | command c =>
        cases s with
        | command id =>
          obtain ⟨hc, hs⟩ := hs
          have hid : id.index < m.arena.commands.size := hc.lt_size
          simp [List.mapM_cons, instruction?, hc.read hid, ih hs hd]
        | declare id => exact hs.elim
      | declare d =>
        cases s with
        | command id => exact hs.elim
        | declare id =>
          obtain ⟨rfl, hs⟩ := hs
          obtain ⟨body, hf, hb⟩ := h.function (hd 0 d rfl)
          have hrest := ih hs fun i d' hd' => by
            have := hd (i + 1) d' hd'
            rwa [show k + (i + 1) = k + 1 + i by omega] at this
          have hb := hb.read_size
          simp only [Nat.add_zero] at hf hb
          simp [List.mapM_cons, instruction?, hf, hb, hrest]

theorem program?_ofProgram (program : Program) : (ofProgram program).program? = some program :=
  (ofProgram_represents program).program?_eq

/-- A token list is accepted exactly if the tokens before its first end of file are none, or derive
from the grammar by a derivation that satisfies the rules. There is then one in which every
`senaose` and `senao` belongs to the nearest open conditional, and the module is read back as its
tree. -/
theorem parse_iff_derives (names : Names) (tokens : List (Token Name)) :
    ((∃ m, (Program.parse names tokens).map ofProgram = .ok m) ↔
      readable tokens = [] ∨
        ∃ form, ProgramForm.Derives (readable tokens) form ∧ form.Admissible []) ∧
    ∀ m, (Program.parse names tokens).map ofProgram = .ok m →
      (readable tokens = [] ∧ m.program? = some []) ∨
      ((∃ form, ProgramForm.Derives (readable tokens) form ∧ form.Admissible [] ∧ form.Nearest) ∧
        ∀ form, ProgramForm.Derives (readable tokens) form → form.Admissible [] → form.Nearest →
          m.program? = some (form.tree [])) := by
  have hmap : ∀ m, (Program.parse names tokens).map ofProgram = .ok m ↔
      ∃ program, Program.parse names tokens = .ok program ∧ ofProgram program = m := by
    intro m
    cases Program.parse names tokens <;> simp [Except.map]
  constructor
  · rw [← Program.exists_parse_eq_ok_iff names tokens]
    constructor
    · rintro ⟨m, hm⟩
      obtain ⟨program, hp, -⟩ := (hmap m).mp hm
      exact ⟨program, hp⟩
    · rintro ⟨program, hp⟩
      exact ⟨_, (hmap _).mpr ⟨program, hp, rfl⟩⟩
  · intro m hm
    obtain ⟨program, hp, rfl⟩ := (hmap m).mp hm
    rw [program?_ofProgram]
    rcases Program.parse_eq_ok_iff.mp hp with ⟨hnil, rfl⟩ | ⟨form, hd, hadm, hnear, rfl⟩
    · exact .inl ⟨hnil, rfl⟩
    · refine .inr ⟨⟨form, hd, hadm, hnear⟩, fun form' hd' hadm' hnear' => ?_⟩
      -- The parser has one result, so both derivations have the same tree.
      have hp' : Program.parse names tokens = .ok (form'.tree []) :=
        Program.parse_eq_ok_iff.mpr (.inr ⟨form', hd', hadm', hnear', rfl⟩)
      rw [Except.ok.inj (hp.symm.trans hp')]

end Module

end Enquanto

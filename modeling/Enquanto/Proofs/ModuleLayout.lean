import Enquanto.Proofs.PostOrder

/-!
# The module of a program

`Module.Represents` relates a module to the program that it lays out: the arena holds the subtrees
of the program in post-order, the functions are its declarations in order, each with a scope of its
own below the root, and the steps are its instructions.

* `Module.Adds`: what adding instructions to a module changes;
* `Module.ofProgram_represents`: the module of a program represents it.
-/

namespace Enquanto

namespace Program

/-- The functions that a program declares, in order. -/
def declarations (program : Program) : List Declaration :=
  program.filterMap fun
    | .command _ => none
    | .declare d => some d

/-- The commands of a program, in order. -/
def commands (program : Program) : List Command :=
  program.filterMap fun
    | .command c => some c
    | .declare _ => none

end Program

/-- The functions are the declarations, of which the first has the number `k`. -/
def Arena.HoldsFunctions (a : Arena) : Nat → List Declaration → List Function → Prop
  | _, [], [] => True
  | k, d :: ds, f :: fs =>
    (∃ body, f = ⟨d.name, d.params, some body, ⟨k + 1⟩, d.span⟩ ∧ a.HoldsExpr ⟨k + 1⟩ d.body body) ∧
      Arena.HoldsFunctions a (k + 1) ds fs
  | _, _, _ => False

/-- The steps are the instructions; the first declaration among them has the number `k`. -/
def Arena.HoldsSteps (a : Arena) : Nat → Program → List Step → Prop
  | _, [], [] => True
  | k, .command c :: rest, .command id :: steps =>
    a.HoldsCommand .root c id ∧ Arena.HoldsSteps a k rest steps
  | k, .declare _ :: rest, .declare id :: steps => id = ⟨k⟩ ∧ Arena.HoldsSteps a (k + 1) rest steps
  | _, _, _ => False

namespace Module

/-- The module `m'` is `m` with the instructions of a program behind its own. -/
structure Adds (m m' : Module) (program : Program) : Prop where
  arena : Arena.Laid m.arena m'.arena (program.flatFrom m.functions.size)
  scopes : m'.scopes.links.toList =
    m.scopes.links.toList ++ List.replicate program.declarations.length .root
  functions : ∃ fs, m'.functions.entries.toList = m.functions.entries.toList ++ fs ∧
    m'.arena.HoldsFunctions m.functions.size program.declarations fs
  steps : ∃ steps, m'.steps.toList = m.steps.toList ++ steps ∧
    m'.arena.HoldsSteps m.functions.size program steps

theorem Adds.refl (m : Module) : Adds m m [] :=
  ⟨.refl m.arena, by simp [Program.declarations], ⟨[], by simp, trivial⟩, ⟨[], by simp, trivial⟩⟩

theorem Adds.command {m m' : Module} {c : Command} {rest : Program}
    (h : Adds (m.add (.command c)) m' rest) : Adds m m' (.command c :: rest) := by
  have hc := Arena.layCommand_laid .root c m.arena
  obtain ⟨fs, hfs, hf⟩ := h.functions
  obtain ⟨steps, hsteps, hs⟩ := h.steps
  refine ⟨hc.laid.trans h.arena, h.scopes, ⟨fs, hfs, hf⟩,
    ⟨.command (Arena.layCommand .root c m.arena).1 :: steps, ?_, ?_, hs⟩⟩
  · rw [hsteps]
    simp [add]
  · exact hc.holds.mono h.arena.growth

/-- A function that was declared last gets its body. -/
theorem setBody_declare (fs : Functions) (name : Name) (params : List Name) (scope : ScopeId)
    (span : Span) (body : ExprId) :
    ((fs.declare name params scope span).2.setBody (fs.declare name params scope span).1 body) =
      ⟨fs.entries.push ⟨name, params, some body, scope, span⟩⟩ := by
  simp only [Functions.declare, Functions.setBody, Functions.mk.injEq]
  apply Array.ext
  · simp
  · intro i hi hi'
    by_cases h : i = fs.entries.size
    · subst h
      rw [Array.getElem_modify, if_pos rfl]
      simp
    · have hlt : i < fs.entries.size := by
        simp only [Array.size_push] at hi'
        omega
      rw [Array.getElem_modify, if_neg (Ne.symm h), Array.getElem_push_lt hlt,
        Array.getElem_push_lt hlt]

theorem add_declare {m : Module} (d : Declaration) (hm : m.scopes.size = m.functions.size + 1) :
    m.add (.declare d) =
      { arena := (Arena.layExpr ⟨m.functions.size + 1⟩ d.body m.arena).2
        functions := ⟨m.functions.entries.push ⟨d.name, d.params,
          some (Arena.layExpr ⟨m.functions.size + 1⟩ d.body m.arena).1, ⟨m.functions.size + 1⟩,
          d.span⟩⟩
        scopes := ⟨m.scopes.links.push .root⟩
        steps := m.steps.push (.declare ⟨m.functions.size⟩) } := by
  have hs : m.scopes.links.size = m.functions.size + 1 := hm
  simp only [add, Scopes.add, setBody_declare, hs]
  rfl

theorem Adds.declare {m m' : Module} {d : Declaration} {rest : Program}
    (hm : m.scopes.size = m.functions.size + 1) (h : Adds (m.add (.declare d)) m' rest) :
    Adds m m' (.declare d :: rest) := by
  have hd := Arena.layExpr_laid ⟨m.functions.size + 1⟩ d.body m.arena
  rw [add_declare d hm] at h
  obtain ⟨hl, hscopes, ⟨fs, hfs, hf⟩, ⟨steps, hsteps, hs⟩⟩ := h
  simp only [Functions.size, Array.size_push, Array.toList_push] at hl hscopes hfs hf hsteps hs
  refine ⟨hd.laid.trans hl, ?_, ⟨_ :: fs, ?_, ⟨_, rfl, hd.holds.mono hl.growth⟩, hf⟩,
    ⟨.declare ⟨m.functions.size⟩ :: steps, ?_, rfl, hs⟩⟩
  · rw [hscopes, List.append_assoc]
    rfl
  · rw [hfs, List.append_assoc]
    rfl
  · rw [hsteps, List.append_assoc]
    rfl

theorem size_scopes_add {m : Module} (hm : m.scopes.size = m.functions.size + 1)
    (i : Instruction) : (m.add i).scopes.size = (m.add i).functions.size + 1 := by
  cases i with
  | command c => exact hm
  | declare d =>
    rw [add_declare d hm]
    simpa [Scopes.size, Functions.size] using hm

/-- Adding the instructions of a program one by one. -/
theorem foldl_add_adds (program : Program) {m : Module}
    (hm : m.scopes.size = m.functions.size + 1) : Adds m (program.foldl add m) program := by
  induction program generalizing m with
  | nil => exact .refl m
  | cons i rest ih =>
    have h := ih (size_scopes_add hm i)
    cases i with
    | command c => exact h.command
    | declare d => exact h.declare hm

/-- The module lays the program out. -/
structure Represents (m : Module) (program : Program) : Prop where
  arena : Arena.Laid {} m.arena program.flat
  scopes : m.scopes.links.toList = List.replicate (program.declarations.length + 1) .root
  functions : m.arena.HoldsFunctions 0 program.declarations m.functions.entries.toList
  steps : m.arena.HoldsSteps 0 program m.steps.toList

theorem ofProgram_represents (program : Program) : (ofProgram program).Represents program := by
  have h : Adds {} (ofProgram program) program := foldl_add_adds program rfl
  obtain ⟨fs, hfs, hf⟩ := h.functions
  obtain ⟨steps, hsteps, hs⟩ := h.steps
  refine ⟨h.arena, ?_, ?_, ?_⟩
  · rw [h.scopes, List.replicate_succ]
    rfl
  · rw [hfs]
    exact hf
  · rw [hsteps]
    exact hs

end Module

/-! ## What a representation gives -/

namespace Arena

variable {a : Arena}

theorem HoldsSteps.commands : ∀ {k : Nat} {program : Program} {steps : List Step},
    a.HoldsSteps k program steps → a.HoldsCommands .root program.commands
      (steps.filterMap fun
        | .command id => some id
        | .declare _ => none)
  | _, [], [], _ => trivial
  | _, .command _ :: _, .command _ :: _, ⟨hc, hs⟩ => ⟨hc, hs.commands⟩
  | _, .declare _ :: _, .declare _ :: _, ⟨_, hs⟩ => hs.commands (k := _ + 1)

theorem HoldsFunctions.length_eq : ∀ {k : Nat} {ds : List Declaration} {fs : List Function},
    a.HoldsFunctions k ds fs → fs.length = ds.length
  | _, [], [], _ => rfl
  | _, _ :: _, _ :: _, ⟨_, hs⟩ => congrArg (· + 1) hs.length_eq

theorem HoldsFunctions.get {k : Nat} {ds : List Declaration} {fs : List Function}
    (h : a.HoldsFunctions k ds fs) {i : Nat} {d : Declaration} (hd : ds[i]? = some d) :
    ∃ body, fs[i]? = some ⟨d.name, d.params, some body, ⟨k + i + 1⟩, d.span⟩ ∧
      a.HoldsExpr ⟨k + i + 1⟩ d.body body := by
  induction ds generalizing k fs i with
  | nil => simp at hd
  | cons d' ds ih =>
    cases fs with
    | nil => exact h.elim
    | cons f fs =>
      cases i with
      | zero =>
        cases hd
        obtain ⟨⟨body, rfl, hb⟩, -⟩ := h
        exact ⟨body, rfl, hb⟩
      | succ i =>
        obtain ⟨body, hf, hb⟩ := ih h.2 (i := i) (by simpa using hd)
        rw [show k + 1 + i = k + (i + 1) by omega] at hf hb
        exact ⟨body, by simpa using hf, hb⟩

end Arena

namespace Module

variable {m : Module} {program : Program}

/-- The top-level commands stand at the ids of the module's commands. -/
theorem Represents.commands (h : m.Represents program) :
    m.arena.HoldsCommands .root program.commands m.commands :=
  h.steps.commands

theorem Represents.functions_size (h : m.Represents program) :
    m.functions.size = program.declarations.length := by
  rw [Functions.size, ← Array.length_toList, h.functions.length_eq]

/-- The function of a declaration has its body and its own scope. -/
theorem Represents.function (h : m.Represents program) {i : Nat} {d : Declaration}
    (hd : program.declarations[i]? = some d) :
    ∃ body, m.functions.get? ⟨i⟩ = some ⟨d.name, d.params, some body, ⟨i + 1⟩, d.span⟩ ∧
      m.arena.HoldsExpr ⟨i + 1⟩ d.body body := by
  obtain ⟨body, hf, hb⟩ := h.functions.get hd
  rw [Nat.zero_add, Array.getElem?_toList] at hf
  rw [Nat.zero_add] at hb
  exact ⟨body, hf, hb⟩

/-- Every function has a body, which stands in its own scope. -/
theorem Represents.exists_body (h : m.Represents program) {id : FunctionId} {f : Function}
    (hf : m.functions.get? id = some f) :
    ∃ body e, f.body = some body ∧ m.arena.HoldsExpr f.scope e body := by
  have hi : id.index < m.functions.size := (Array.getElem?_eq_some_iff.mp hf).1
  rw [h.functions_size] at hi
  obtain ⟨body, hf', hb⟩ := h.function (List.getElem?_eq_getElem hi)
  cases hf.symm.trans hf'
  exact ⟨body, _, rfl, hb⟩

end Module

end Enquanto

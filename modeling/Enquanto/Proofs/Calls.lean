import Enquanto.Proofs.ModuleLayout
import Enquanto.Proofs.ProgramParsing

/-!
# Resolved calls

Every call in a program that was read leads to a function of the program, with as many arguments as
the function has parameters.

* `Flattening.Resolved`: the calls among some subtrees lead to declared functions;
* `Program.parse_resolved`: those of a program that was read do;
* `Flattening.Within`: the expressions among some subtrees are all among others, as those of a body
  or of any tree in a program are among those of the program: `Program.body_within`,
  `Program.commands_within` and `Program.whole_flat`;
* `Module.Represents.exists_expr` and the like: so are those of the tree at any node of a module.
-/

namespace Enquanto

namespace Signature

/-- A function is among those declared, the latest first, with `n` parameters. -/
def Resolves (declared : List Signature) (f : FunctionId) (n : Nat) : Prop :=
  declared.reverse[f.index]?.map Signature.arity = some n

variable {declared : List Signature} {f : FunctionId} {n : Nat}

/-- A later declaration does not change what a call leads to. -/
theorem Resolves.cons (h : Resolves declared f n) (s : Signature) :
    Resolves (s :: declared) f n := by
  unfold Resolves at h ⊢
  obtain ⟨t, ht, rfl⟩ := Option.map_eq_some_iff.mp h
  have hi := (List.getElem?_eq_some_iff.mp ht).1
  rw [List.reverse_cons, List.getElem?_append_left hi, ht]
  rfl

theorem Declares.resolves {name : Name} (h : Declares declared name n) :
    Resolves declared (callee declared name) n := by
  induction declared with
  | nil => cases h
  | cons s earlier ih =>
    unfold Declares at h
    by_cases hs : s.name = name
    · have hc : callee (s :: earlier) name = ⟨earlier.length⟩ := by simp [callee, hs]
      simpa [Resolves, hc, hs] using h
    · have hc : callee (s :: earlier) name = callee earlier name := by simp [callee, hs]
      rw [List.find?_cons_of_neg (by simpa using hs)] at h
      rw [hc]
      exact (ih h).cons s

theorem Resolves.append (h : Resolves declared f n) (later : List Signature) :
    Resolves (later ++ declared) f n := by
  induction later with
  | nil => exact h
  | cons s later ih => exact ih.cons s

end Signature

/-- The calls among some subtrees lead to functions with as many parameters as they have
arguments. -/
def Flattening.Resolved (declared : List Signature) (f : Flattening) : Prop :=
  ∀ scope function args span, (scope, Expr.call function args span) ∈ f.exprs →
    Signature.Resolves declared function args.length

namespace Flattening

variable {declared : List Signature} {f g : Flattening}

@[simp] theorem resolved_empty : Resolved declared {} :=
  fun _ _ _ _ h => nomatch h

@[simp] theorem resolved_append : Resolved declared (f ++ g) ↔
    Resolved declared f ∧ Resolved declared g := by
  simp only [Resolved, exprs_append, List.mem_append]
  constructor
  · intro h
    exact ⟨fun _ _ _ _ hm => h _ _ _ _ (.inl hm), fun _ _ _ _ hm => h _ _ _ _ (.inr hm)⟩
  · rintro ⟨hf, hg⟩ _ _ _ _ (hm | hm)
    · exact hf _ _ _ _ hm
    · exact hg _ _ _ _ hm

@[simp] theorem resolved_pred (scope : ScopeId) (p : Pred) : Resolved declared (pred scope p) :=
  fun _ _ _ _ h => nomatch h

@[simp] theorem resolved_command (scope : ScopeId) (c : Command) :
    Resolved declared (command scope c) :=
  fun _ _ _ _ h => nomatch h

theorem resolved_expr_iff {scope : ScopeId} {e : Expr} : Resolved declared (expr scope e) ↔
    ∀ function args span, e = .call function args span →
      Signature.Resolves declared function args.length := by
  constructor
  · rintro h function args span rfl
    exact h scope function args span (List.mem_singleton.mpr rfl)
  · intro h _ _ _ _ hm
    exact h _ _ _ (Prod.ext_iff.mp (List.mem_singleton.mp hm)).2.symm

@[simp] theorem resolved_call {scope : ScopeId} {function : FunctionId} {args : List Expr}
    {span : Span} : Resolved declared (expr scope (.call function args span)) ↔
      Signature.Resolves declared function args.length := by
  rw [resolved_expr_iff]
  constructor
  · intro h
    exact h function args span rfl
  · rintro h _ _ _ ⟨⟩
    exact h

theorem Resolved.append (h : Resolved declared f) (later : List Signature) :
    Resolved (later ++ declared) f :=
  fun _ _ _ _ hm => (h _ _ _ _ hm).append later

end Flattening

/-! ## The trees of forms -/

section
variable {declared : List Signature}

open Flattening

mutual

theorem ExprForm.resolved_tree (scope : ScopeId) : ∀ form : ExprForm, form.Admissible declared →
    Resolved declared ((form.tree declared).flat scope)
  | .int _ _, _ | .read _, _ | .var _ _, _ => resolved_expr_iff.mpr nofun
  | .call _ _ args _, ⟨hd, hargs⟩ => by
    have hs := resolved_trees scope args hargs
    simp only [tree, Expr.flat, resolved_append, resolved_call]
    rw [trees_eq_map] at hs ⊢
    exact ⟨hs, by simpa using hd.resolves⟩
  | .paren e, h => resolved_tree scope e h
  | .neg e _, h => by
    unfold tree
    split
    · exact resolved_expr_iff.mpr nofun
    · next hl =>
      have he := resolved_tree scope e (h.resolve_left hl)
      exact resolved_append.mpr ⟨he, resolved_expr_iff.mpr nofun⟩
  | .arith _ l r, ⟨hl, hr⟩ => by
    simp only [tree, Expr.binary, Expr.flat, resolved_append]
    exact ⟨⟨resolved_tree scope l hl, resolved_tree scope r hr⟩, resolved_expr_iff.mpr nofun⟩

theorem ExprForm.resolved_trees (scope : ScopeId) : ∀ forms : List ExprForm,
    AdmissibleAll declared forms → Resolved declared (Expr.flatAll scope (trees declared forms))
  | [], _ => resolved_empty
  | e :: es, ⟨h, hs⟩ => resolved_append.mpr ⟨resolved_tree scope e h, resolved_trees scope es hs⟩

end

theorem PredForm.resolved_tree (scope : ScopeId) : ∀ form : PredForm, form.Admissible declared →
    Resolved declared ((form.tree declared).flat scope)
  | .lit _ _, _ => resolved_pred _ _
  | .paren p, h => resolved_tree scope p h
  | .rel _ l r, ⟨hl, hr⟩ => by
    simp only [tree, Pred.relation, Pred.flat, resolved_append]
    exact ⟨⟨l.resolved_tree scope hl, r.resolved_tree scope hr⟩, resolved_pred _ _⟩
  | .not p _, h => resolved_append.mpr ⟨resolved_tree scope p h, resolved_pred _ _⟩
  | .logic _ l r, ⟨hl, hr⟩ => by
    simp only [tree, Pred.binary, Pred.flat, resolved_append]
    exact ⟨⟨resolved_tree scope l hl, resolved_tree scope r hr⟩, resolved_pred _ _⟩

mutual

theorem CommandForm.resolved_tree (scope : ScopeId) : ∀ form : CommandForm,
    form.Admissible declared → Resolved declared ((form.tree declared).flat scope)
  | .skip _, _ | .printText _ _, _ => resolved_command _ _
  | .assign _ e _, h => resolved_append.mpr ⟨e.resolved_tree scope h, resolved_command _ _⟩
  | .printInt e _, h => resolved_append.mpr ⟨e.resolved_tree scope h, resolved_command _ _⟩
  | .block body _, h => resolved_append.mpr ⟨resolved_trees scope body h, resolved_command _ _⟩
  | .cond test body others last _, ⟨ht, hb, ho, hl⟩ => by
    simp only [tree, Command.flat, resolved_append, resolved_command, and_true]
    exact ⟨⟨⟨test.resolved_tree scope ht, resolved_tree scope body hb⟩,
      resolved_branchTrees scope others ho⟩, resolved_tree scope last hl⟩
  | .condOnly test body others _ _, ⟨ht, hb, ho⟩ => by
    simp only [tree, Command.flat, resolved_append, resolved_command, and_true]
    exact ⟨⟨test.resolved_tree scope ht, resolved_tree scope body hb⟩,
      resolved_branchTrees scope others ho⟩
  | .loop test body _, ⟨ht, hb⟩ => by
    simp only [tree, Command.flat, resolved_append, resolved_command, and_true]
    exact ⟨test.resolved_tree scope ht, resolved_tree scope body hb⟩
  | .count _ start stop step body _, ⟨hi, hj, hk, hb⟩ => by
    simp only [tree, Command.flat, resolved_append, resolved_command, and_true]
    exact ⟨⟨⟨start.resolved_tree scope hi, stop.resolved_tree scope hj⟩,
      step.resolved_tree scope hk⟩, resolved_tree scope body hb⟩
  | .countOnes _ start stop _ body _, ⟨hi, hj, hb⟩ => by
    simp only [tree, Command.flat, Expr.flat, resolved_append, resolved_command, and_true]
    exact ⟨⟨⟨start.resolved_tree scope hi, stop.resolved_tree scope hj⟩,
      resolved_expr_iff.mpr nofun⟩, resolved_tree scope body hb⟩
  | .switch selector cases default _, ⟨hs, hc, hd⟩ => by
    simp only [tree, Command.flat, resolved_append, resolved_command, and_true]
    exact ⟨⟨selector.resolved_tree scope hs, resolved_caseTrees scope cases hc⟩,
      resolved_tree scope default hd⟩

theorem CommandForm.resolved_trees (scope : ScopeId) : ∀ forms : List CommandForm,
    AdmissibleAll declared forms → Resolved declared (Command.flatAll scope (trees declared forms))
  | [], _ => resolved_empty
  | c :: cs, ⟨h, hs⟩ => resolved_append.mpr ⟨resolved_tree scope c h, resolved_trees scope cs hs⟩

theorem CommandForm.resolved_branchTrees (scope : ScopeId) :
    ∀ forms : List (PredForm × CommandForm), AdmissibleBranches declared forms →
      Resolved declared (Command.flatBranches scope (branchTrees declared forms))
  | [], _ => resolved_empty
  | (test, body) :: rest, ⟨⟨ht, hb⟩, hs⟩ => by
    simp only [branchTrees, Command.flatBranches, resolved_append]
    exact ⟨⟨test.resolved_tree scope ht, resolved_tree scope body hb⟩,
      resolved_branchTrees scope rest hs⟩

theorem CommandForm.resolved_caseTrees (scope : ScopeId) :
    ∀ forms : List (CaseLabel × CommandForm), AdmissibleCases declared forms →
      Resolved declared (Command.flatCases scope (caseTrees declared forms))
  | [], _ => resolved_empty
  | (_, body) :: rest, ⟨⟨_, hb⟩, hs⟩ =>
    resolved_append.mpr ⟨resolved_tree scope body hb, resolved_caseTrees scope rest hs⟩

end

end

/-! ## Programs -/

/-- The name of a declared function, with the number of its parameters. -/
def Declaration.header (d : Declaration) : Signature := ⟨d.name, d.params.length⟩

namespace Program

/-- The functions of a program as a context lists them, the latest first. -/
def headers (program : Program) : List Signature :=
  (program.declarations.map Declaration.header).reverse

theorem resolves_headers_iff {program : Program} {f : FunctionId} {n : Nat} :
    Signature.Resolves program.headers f n ↔
      ∃ d, program.declarations[f.index]? = some d ∧ d.params.length = n := by
  simp [Signature.Resolves, headers, Declaration.header]

theorem resolved_tree : ∀ (form : ProgramForm) (declared : List Signature) (k : Nat),
    form.Admissible declared → ((form.tree declared).flatFrom k).Resolved
      ((form.tree declared).headers ++ declared)
  | [], _, _, _ => Flattening.resolved_empty
  | .command c :: rest, declared, k, ⟨h, hs⟩ =>
    Flattening.resolved_append.mpr
      ⟨(c.resolved_tree .root h).append _, resolved_tree rest declared k hs⟩
  | .declare x params body span :: rest, declared, k, ⟨h, hs⟩ => by
    have hrest := resolved_tree rest (⟨x, params.length⟩ :: declared) (k + 1) hs
    have hbody := (body.resolved_tree ⟨k + 1⟩ h).append
      (headers (ProgramForm.tree (⟨x, params.length⟩ :: declared) rest))
    have hh : headers (ProgramForm.tree declared (.declare x params body span :: rest)) ++
        declared = headers (ProgramForm.tree (⟨x, params.length⟩ :: declared) rest) ++
          ⟨x, params.length⟩ :: declared := by
      simp [headers, ProgramForm.tree, InstructionForm.tree, InstructionForm.declares,
        declarations, Declaration.header]
    rw [hh]
    exact Flattening.resolved_append.mpr ⟨hbody, hrest⟩

/-- Every call in a program that was read leads to one of its functions, with as many arguments as
it has parameters. -/
theorem parse_resolved {names : Names} {tokens : List (Token Name)} {program : Program}
    (h : parse names tokens = .ok program) : program.flat.Resolved program.headers := by
  rcases parse_eq_ok_iff.mp h with ⟨-, rfl⟩ | ⟨form, -, hadm, -, rfl⟩
  · exact Flattening.resolved_empty
  · simpa [flat] using resolved_tree form [] 0 hadm

end Program

/-! ## Parts of a program -/

/-- The expressions among the first subtrees are all among the second. -/
def Flattening.Within (f g : Flattening) : Prop := f.exprs ⊆ g.exprs

namespace Flattening

variable {f g h : Flattening}

theorem within_append : (f ++ g).Within h ↔ f.Within h ∧ g.Within h := List.append_subset

theorem Within.trans (hf : f.Within g) (hg : g.Within h) : f.Within h := List.Subset.trans hf hg

theorem within_append_left (f g : Flattening) : f.Within (f ++ g) :=
  List.subset_append_left _ _

theorem within_append_right (f g : Flattening) : g.Within (f ++ g) :=
  List.subset_append_right _ _

theorem Within.empty (f : Flattening) : Within {} f := List.nil_subset _

end Flattening

namespace Program

open Flattening

theorem body_within_flatFrom {program : Program} {k i : Nat} {d : Declaration}
    (h : program.declarations[i]? = some d) :
    (d.body.flat ⟨k + i + 1⟩).Within (program.flatFrom k) := by
  induction program generalizing k i with
  | nil => simp [declarations] at h
  | cons instruction rest ih =>
    cases instruction with
    | command c => exact (ih h).trans (within_append_right _ _)
    | declare d' =>
      cases i with
      | zero =>
        cases h
        exact within_append_left _ _
      | succ i =>
        have hd := ih (k := k + 1) (i := i) h
        rw [show k + 1 + i = k + (i + 1) by omega] at hd
        exact hd.trans (within_append_right _ _)

/-- The body of a function is among the subtrees of the program. -/
theorem body_within {program : Program} {i : Nat} {d : Declaration}
    (h : program.declarations[i]? = some d) : (d.body.flat ⟨i + 1⟩).Within program.flat := by
  have hb := body_within_flatFrom (k := 0) h
  rwa [Nat.zero_add] at hb

theorem commands_within_flatFrom (program : Program) (k : Nat) :
    (Command.flatAll .root program.commands).Within (program.flatFrom k) := by
  induction program generalizing k with
  | nil => exact .empty _
  | cons instruction rest ih =>
    cases instruction with
    | command c =>
      exact within_append.mpr
        ⟨within_append_left _ _, (ih k).trans (within_append_right _ _)⟩
    | declare d => exact (ih (k + 1)).trans (within_append_right _ _)

/-- The top-level commands are among the subtrees of the program. -/
theorem commands_within (program : Program) :
    (Command.flatAll .root program.commands).Within program.flat :=
  commands_within_flatFrom program 0

end Program

/-! ## Trees inside others -/

namespace Flattening

/-- The subtrees of each command among the subtrees are among them. -/
def Closed (f : Flattening) : Prop :=
  ∀ scope c, (scope, c) ∈ f.commands → (c.flat scope).Within f

/-- The subtrees of each tree among the subtrees are among them. -/
structure Whole (f : Flattening) : Prop where
  exprs : ∀ scope e, (scope, e) ∈ f.exprs → (e.flat scope).Within f
  preds : ∀ scope p, (scope, p) ∈ f.preds → (p.flat scope).Within f
  commands : f.Closed

variable {f g : Flattening} {scope : ScopeId}

theorem Whole.empty : Whole {} := ⟨nofun, nofun, nofun⟩

/-- Trees are put behind others that already have their subtrees with them. -/
theorem Whole.extend (hf : f.Whole)
    (he : ∀ scope e, (scope, e) ∈ g.exprs → (e.flat scope).Within (f ++ g))
    (hp : ∀ scope p, (scope, p) ∈ g.preds → (p.flat scope).Within (f ++ g))
    (hc : ∀ scope c, (scope, c) ∈ g.commands → (c.flat scope).Within (f ++ g)) :
    (f ++ g).Whole where
  exprs := by
    intro scope e hm
    rcases List.mem_append.mp hm with hm | hm
    · exact (hf.exprs scope e hm).trans (within_append_left f g)
    · exact he scope e hm
  preds := by
    intro scope p hm
    rcases List.mem_append.mp hm with hm | hm
    · exact (hf.preds scope p hm).trans (within_append_left f g)
    · exact hp scope p hm
  commands := by
    intro scope c hm
    rcases List.mem_append.mp hm with hm | hm
    · exact (hf.commands scope c hm).trans (within_append_left f g)
    · exact hc scope c hm

theorem Whole.append (hf : f.Whole) (hg : g.Whole) : (f ++ g).Whole :=
  hf.extend (fun scope e hm => (hg.exprs scope e hm).trans (within_append_right f g))
    (fun scope p hm => (hg.preds scope p hm).trans (within_append_right f g))
    fun scope c hm => (hg.commands scope c hm).trans (within_append_right f g)

/-! A tree stands behind its proper subtrees. -/

theorem Whole.expr {e : Expr} (hf : f.Whole) (he : e.flat scope = f ++ .expr scope e) :
    (e.flat scope).Whole := by
  rw [he]
  refine hf.extend (fun scope' e' hm => ?_) nofun nofun
  cases List.mem_singleton.mp hm
  rw [he]
  exact List.Subset.refl _

theorem Whole.pred {p : Pred} (hf : f.Whole) (hp : p.flat scope = f ++ .pred scope p) :
    (p.flat scope).Whole := by
  rw [hp]
  refine hf.extend nofun (fun scope' p' hm => ?_) nofun
  cases List.mem_singleton.mp hm
  rw [hp]
  exact List.Subset.refl _

theorem Whole.command {c : Command} (hf : f.Whole) (hc : c.flat scope = f ++ .command scope c) :
    (c.flat scope).Whole := by
  rw [hc]
  refine hf.extend nofun nofun fun scope' c' hm => ?_
  cases List.mem_singleton.mp hm
  rw [hc]
  exact List.Subset.refl _

end Flattening

open Flattening

mutual

theorem Expr.whole_flat (scope : ScopeId) : ∀ e : Expr, (e.flat scope).Whole
  | .int _ _ | .var _ _ | .read _ => Whole.empty.expr rfl
  | .neg e _ => (Expr.whole_flat scope e).expr rfl
  | .arith _ l r _ => ((Expr.whole_flat scope l).append (Expr.whole_flat scope r)).expr rfl
  | .call _ args _ => (Expr.whole_flatAll scope args).expr rfl

theorem Expr.whole_flatAll (scope : ScopeId) : ∀ es : List Expr, (Expr.flatAll scope es).Whole
  | [] => .empty
  | e :: es => (Expr.whole_flat scope e).append (Expr.whole_flatAll scope es)

end

theorem Pred.whole_flat (scope : ScopeId) : ∀ p : Pred, (p.flat scope).Whole
  | .lit _ _ => Whole.empty.pred rfl
  | .not p _ => (p.whole_flat scope).pred rfl
  | .logic _ l r _ => ((l.whole_flat scope).append (r.whole_flat scope)).pred rfl
  | .rel _ l r _ => ((l.whole_flat scope).append (r.whole_flat scope)).pred rfl

mutual

theorem Command.whole_flat (scope : ScopeId) : ∀ c : Command, (c.flat scope).Whole
  | .skip _ | .printText _ _ => Whole.empty.command rfl
  | .assign _ e _ | .printInt e _ => (e.whole_flat scope).command rfl
  | .block body _ => (Command.whole_flatAll scope body).command rfl
  | .cond test body others last _ =>
    ((((test.whole_flat scope).append (Command.whole_flat scope body)).append
      (Command.whole_flatBranches scope others)).append (Command.whole_flat scope last)).command rfl
  | .loop test body _ =>
    ((test.whole_flat scope).append (Command.whole_flat scope body)).command rfl
  | .count _ start stop step body _ =>
    ((((start.whole_flat scope).append (stop.whole_flat scope)).append
      (step.whole_flat scope)).append (Command.whole_flat scope body)).command rfl
  | .switch selector cases default _ =>
    (((selector.whole_flat scope).append (Command.whole_flatCases scope cases)).append
      (Command.whole_flat scope default)).command rfl

theorem Command.whole_flatAll (scope : ScopeId) : ∀ cs : List Command,
    (Command.flatAll scope cs).Whole
  | [] => .empty
  | c :: cs => (Command.whole_flat scope c).append (Command.whole_flatAll scope cs)

theorem Command.whole_flatBranches (scope : ScopeId) : ∀ bs : List (Pred × Command),
    (Command.flatBranches scope bs).Whole
  | [] => .empty
  | (test, body) :: rest =>
    ((test.whole_flat scope).append (Command.whole_flat scope body)).append
      (Command.whole_flatBranches scope rest)

theorem Command.whole_flatCases (scope : ScopeId) : ∀ cs : List (Int32 × Command),
    (Command.flatCases scope cs).Whole
  | [] => .empty
  | (_, body) :: rest =>
    (Command.whole_flat scope body).append (Command.whole_flatCases scope rest)

end

theorem Program.whole_flatFrom (program : Program) (k : Nat) : (program.flatFrom k).Whole := by
  induction program generalizing k with
  | nil => exact .empty
  | cons instruction rest ih =>
    cases instruction with
    | command c => exact (c.whole_flat .root).append (ih k)
    | declare d => exact (d.body.whole_flat _).append (ih (k + 1))

/-- A tree anywhere in a program is run with subtrees of the program only. -/
theorem Program.whole_flat (program : Program) : program.flat.Whole := program.whole_flatFrom 0

/-! Every node of a module is the root of a tree, whose subtrees are among those of the program. -/

namespace Module.Represents

variable {m : Module} {program : Program}

theorem exists_expr (h : m.Represents program) {id : ExprId}
    (hid : id.index < m.arena.exprs.size) :
    ∃ scope e, m.arena.HoldsExpr scope e id ∧ (e.flat scope).Within program.flat := by
  obtain ⟨scope, e, he, hholds⟩ := h.arena.exprs.exists_holds (Nat.zero_le _) hid
  exact ⟨scope, e, hholds, program.whole_flat.exprs scope e he⟩

theorem exists_pred (h : m.Represents program) {id : PredId}
    (hid : id.index < m.arena.preds.size) :
    ∃ scope p, m.arena.HoldsPred scope p id ∧ (p.flat scope).Within program.flat := by
  obtain ⟨scope, p, hp, hholds⟩ := h.arena.preds.exists_holds (Nat.zero_le _) hid
  exact ⟨scope, p, hholds, program.whole_flat.preds scope p hp⟩

theorem exists_command (h : m.Represents program) {id : CommandId}
    (hid : id.index < m.arena.commands.size) :
    ∃ scope c, m.arena.HoldsCommand scope c id ∧ (c.flat scope).Within program.flat := by
  obtain ⟨scope, c, hc, hholds⟩ := h.arena.commands.exists_holds (Nat.zero_le _) hid
  exact ⟨scope, c, hholds, program.whole_flat.commands scope c hc⟩

end Module.Represents

end Enquanto

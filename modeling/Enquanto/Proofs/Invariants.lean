import Enquanto.Proofs.Calls
import Enquanto.Proofs.Semantics

/-!
# Invariants of runs

A run changes a state in three ways: it stores a variable, it reads the input, or it prints a line.
It raises a fault at three sorts of nodes: divisions, reads and calls. So a property of states that
none of the former breaks, with a property of faults that all of the latter have, is one of whole
runs.

* `Setting.Keeps`: what has to be shown of single steps;
* `Setting.KeepsIn`: what has to be shown of the expressions and the stores of commands, if less is
  known of single steps;
* `Evaluates.keeps`, `Decides.keepsIn`, `Executes.keepsIn` and `Executes.keeps`: what follows for
  runs.
-/

namespace Enquanto

open Flattening

/-- No step breaks `inv`, and a step from a state with `inv` that raises a fault raises one with
`bad`. -/
structure Setting.Keeps (w : Setting) (inv : State → Prop) (bad : Fault → Prop) : Prop where
  store : ∀ s scope name value, inv s → inv (s.store scope name value)
  print : ∀ s line, inv s → inv (s.print line)
  read : ∀ s value input, inv s → s.input.readInt = (.ok value, input) → inv (s.withInput input)
  read_fault : ∀ s error input scope span, (scope, Expr.read span) ∈ w.program.flat.exprs →
    inv s → s.input.readInt = (.error error, input) →
    inv (s.withInput input) ∧ bad ⟨.read error, some span⟩
  division : ∀ scope l r span, (scope, Expr.arith .div l r span) ∈ w.program.flat.exprs →
    bad ⟨.divisionByZero, some span⟩
  limit : ∀ scope function args span,
    (scope, Expr.call function args span) ∈ w.program.flat.exprs →
    bad ⟨.stackOverflow w.maxDepth, some span⟩

/-- A result that is no fault, or one with `bad`. -/
def FaultsOnly {α : Type} (bad : Fault → Prop) : Except Fault α → Prop
  | .ok _ => True
  | .error f => bad f

theorem FaultsOnly.of_eq {α : Type} {bad : Fault → Prop} {result : Except Fault α}
    (h : FaultsOnly bad result) (f : Fault) (he : result = .error f) : bad f := by
  rw [he] at h
  exact h

section
variable {w : Setting} {inv : State → Prop} {bad : Fault → Prop}

theorem Flattening.within_call {scope : ScopeId} {function : FunctionId} {args : List Expr}
    {span : Span} {f : Flattening} (h : ((Expr.call function args span).flat scope).Within f) :
    (Expr.flatAll scope args).Within f ∧ (scope, Expr.call function args span) ∈ f.exprs := by
  obtain ⟨hargs, hcall⟩ := within_append.mp h
  exact ⟨hargs, hcall (List.mem_singleton.mpr rfl)⟩

theorem Flattening.within_args {scope : ScopeId} {function : FunctionId} {args : List Expr}
    {params : List Name} {span : Span} {f : Flattening} (hn : args.length = params.length)
    (h : ((Expr.call function args span).flat scope).Within f) :
    (Expr.flatAll scope ((params.zip args).map Prod.snd)).Within f := by
  rw [List.map_snd_zip (Nat.le_of_eq hn)]
  exact (within_call h).1

theorem Flattening.within_arith {scope : ScopeId} {op : ArithOp} {l r : Expr} {span : Span}
    {f : Flattening} (h : ((Expr.arith op l r span).flat scope).Within f) :
    (l.flat scope).Within f ∧ (r.flat scope).Within f ∧
      (scope, Expr.arith op l r span) ∈ f.exprs := by
  obtain ⟨hlr, harith⟩ := within_append.mp h
  obtain ⟨hl, hr⟩ := within_append.mp hlr
  exact ⟨hl, hr, harith (List.mem_singleton.mpr rfl)⟩

/-! ## Expressions -/

mutual

theorem Evaluates.keeps (hk : w.Keeps inv bad) : ∀ {depth : Nat} {scope : ScopeId} {e : Expr}
    {s s' : State} {result : Except Fault Int32}, Evaluates w depth scope e s result s' →
    (e.flat scope).Within w.program.flat → inv s → inv s' ∧ FaultsOnly bad result
  | _, _, _, _, _, _, .int, _, hs => ⟨hs, trivial⟩
  | _, _, _, _, _, _, .var, _, hs => ⟨hs, trivial⟩
  | _, _, _, _, _, _, .neg h, hw, hs => h.keeps hk (within_append.mp hw).1 hs
  | _, _, _, _, _, _, .neg_fault h, hw, hs => h.keeps hk (within_append.mp hw).1 hs
  | _, _, _, _, _, _, .arith hl hr _, hw, hs => by
    obtain ⟨hwl, hwr, -⟩ := within_arith hw
    exact ⟨(hr.keeps hk hwr (hl.keeps hk hwl hs).1).1, trivial⟩
  | _, _, _, _, _, _, .arith_undefined hl hr hn, hw, hs => by
    obtain ⟨hwl, hwr, harith⟩ := within_arith hw
    obtain ⟨rfl, -⟩ := (ArithOp.apply_eq_none_iff _ _ _).mp hn
    exact ⟨(hr.keeps hk hwr (hl.keeps hk hwl hs).1).1, hk.division _ _ _ _ harith⟩
  | _, _, _, _, _, _, .arith_left hl, hw, hs => hl.keeps hk (within_arith hw).1 hs
  | _, _, _, _, _, _, .arith_right hl hr, hw, hs => by
    obtain ⟨hwl, hwr, -⟩ := within_arith hw
    exact hr.keeps hk hwr (hl.keeps hk hwl hs).1
  | _, _, _, _, _, _, .read h, _, hs => ⟨hk.read _ _ _ hs h, trivial⟩
  | _, _, _, _, _, _, .read_fault h, hw, hs =>
    hk.read_fault _ _ _ _ _ (hw (List.mem_singleton.mpr rfl)) hs h
  | _, _, _, _, _, _, .call hd hn hargs _ hbody, hw, hs =>
    hbody.keeps hk (Program.body_within hd) (hargs.keeps hk (within_args hn hw) hs).1
  | _, _, _, _, _, _, .call_limit _ hn hargs _, hw, hs =>
    ⟨(hargs.keeps hk (within_args hn hw) hs).1, hk.limit _ _ _ _ (within_call hw).2⟩
  | _, _, _, _, _, _, .call_args _ hn hargs, hw, hs => hargs.keeps hk (within_args hn hw) hs

theorem Binds.keeps (hk : w.Keeps inv bad) : ∀ {depth : Nat} {scope callee : ScopeId}
    {args : List (Name × Expr)} {s s' : State} {result : Except Fault Unit},
    Binds w depth scope callee args s result s' →
    (Expr.flatAll scope (args.map Prod.snd)).Within w.program.flat → inv s →
    inv s' ∧ FaultsOnly bad result
  | _, _, _, _, _, _, _, .nil, _, hs => ⟨hs, trivial⟩
  | _, _, _, _, _, _, _, .cons h hrest, hw, hs => by
    obtain ⟨hwarg, hwrest⟩ := within_append.mp hw
    exact hrest.keeps hk hwrest (hk.store _ _ _ _ (h.keeps hk hwarg hs).1)
  | _, _, _, _, _, _, _, .fault h, hw, hs => h.keeps hk (within_append.mp hw).1 hs

end

/-! ## Predicates and commands -/

namespace Command

mutual

/-- The variables that a command assigns or counts with. -/
def targets : Command → List Name
  | .skip _ | .printInt _ _ | .printText _ _ => []
  | .assign target _ _ => [target]
  | .block body _ => targetsAll body
  | .cond _ body others last _ => body.targets ++ targetsBranches others ++ last.targets
  | .loop _ body _ => body.targets
  | .count var _ _ _ body _ => var :: body.targets
  | .switch _ cases default _ => targetsCases cases ++ default.targets

def targetsAll : List Command → List Name
  | [] => []
  | c :: cs => c.targets ++ targetsAll cs

def targetsBranches : List (Pred × Command) → List Name
  | [] => []
  | (_, body) :: rest => body.targets ++ targetsBranches rest

def targetsCases : List (Int32 × Command) → List Name
  | [] => []
  | (_, body) :: rest => body.targets ++ targetsCases rest

end

theorem targets_subset_targetsCases {value : Int32} {c : Command}
    {cases : List (Int32 × Command)} (hc : (value, c) ∈ cases) :
    c.targets ⊆ targetsCases cases := by
  induction cases with
  | nil => cases hc
  | cons first rest ih =>
    rcases List.mem_cons.mp hc with rfl | hc
    · exact List.subset_append_left ..
    · exact List.Subset.trans (ih hc) (List.subset_append_right ..)

end Command

/-- The subtrees of what is to be run. -/
def Work.flat (scope : ScopeId) : Work → Flattening
  | .command c => c.flat scope
  | .sequence body => Command.flatAll scope body
  | .choice branches last => Command.flatBranches scope branches ++ last.flat scope
  | .turns _ stop step body => stop.flat scope ++ step.flat scope ++ body.flat scope

/-- The variables that are stored by what is to be run. -/
def Work.targets : Work → List Name
  | .command c => c.targets
  | .sequence body => Command.targetsAll body
  | .choice branches last => Command.targetsBranches branches ++ last.targets
  | .turns var _ _ body => var :: body.targets

/-- Neither the expressions of the program nor stores of variables with `allowed`, nor printing,
break `inv`, and expressions raise no faults but those with `bad`. -/
structure Setting.KeepsIn (w : Setting) (scope : ScopeId) (allowed : Name → Prop)
    (inv : State → Prop) (bad : Fault → Prop) : Prop where
  evaluates : ∀ {e s s' result}, Evaluates w 0 scope e s result s' →
    (e.flat scope).Within w.program.flat → inv s → inv s' ∧ FaultsOnly bad result
  store : ∀ {s name} (value : Int32), allowed name → inv s → inv (s.store scope name value)
  print : ∀ {s} (line : String), inv s → inv (s.print line)

theorem Setting.Keeps.keepsIn (hk : w.Keeps inv bad) (scope : ScopeId) :
    w.KeepsIn scope (fun _ => True) inv bad where
  evaluates := fun h hw hs => h.keeps hk hw hs
  store := fun value _ hs => hk.store _ _ _ value hs
  print := fun line hs => hk.print _ line hs

section
variable {scope : ScopeId} {allowed : Name → Prop}

theorem Decides.keepsIn (hk : w.KeepsIn scope allowed inv bad) {p : Pred} {s s' : State}
    {result : Except Fault Bool} (h : Decides w scope p s result s')
    (hw : (p.flat scope).Within w.program.flat) (hs : inv s) :
    inv s' ∧ FaultsOnly bad result := by
  induction h with
  | lit => exact ⟨hs, trivial⟩
  | not _ ih => exact ih (within_append.mp hw).1 hs
  | not_fault _ ih => exact ih (within_append.mp hw).1 hs
  | logic _ _ ihl ihr =>
    obtain ⟨hwl, hwr⟩ := within_append.mp (within_append.mp hw).1
    exact ihr hwr (ihl hwl hs).1
  | logic_left _ ihl => exact ihl (within_append.mp (within_append.mp hw).1).1 hs
  | logic_right _ _ ihl ihr =>
    obtain ⟨hwl, hwr⟩ := within_append.mp (within_append.mp hw).1
    exact ihr hwr (ihl hwl hs).1
  | rel hl hr =>
    obtain ⟨hwl, hwr⟩ := within_append.mp (within_append.mp hw).1
    exact hk.evaluates hr hwr (hk.evaluates hl hwl hs).1
  | rel_left hl => exact hk.evaluates hl (within_append.mp (within_append.mp hw).1).1 hs
  | rel_right hl hr =>
    obtain ⟨hwl, hwr⟩ := within_append.mp (within_append.mp hw).1
    exact hk.evaluates hr hwr (hk.evaluates hl hwl hs).1

theorem Flattening.within_case {value : Int32} {c : Command}
    {cases : List (Int32 × Command)} {f : Flattening} (hc : (value, c) ∈ cases)
    (h : (Command.flatCases scope cases).Within f) : (c.flat scope).Within f := by
  induction cases with
  | nil => cases hc
  | cons first rest ih =>
    obtain ⟨hfirst, hrest⟩ := within_append.mp h
    rcases List.mem_cons.mp hc with rfl | hc
    · exact hfirst
    · exact ih hc hrest

theorem Executes.keepsIn (hk : w.KeepsIn scope allowed inv bad) {work : Work} {s s' : State}
    {result : Except Fault Unit} (h : Executes w scope work s result s')
    (hw : (work.flat scope).Within w.program.flat) (ha : ∀ x ∈ work.targets, allowed x)
    (hs : inv s) : inv s' ∧ FaultsOnly bad result := by
  induction h with
  | skip => exact ⟨hs, trivial⟩
  | assign he =>
    have hx := ha _ (List.mem_singleton.mpr rfl)
    exact ⟨hk.store _ hx (hk.evaluates he (within_append.mp hw).1 hs).1, trivial⟩
  | assign_fault he => exact hk.evaluates he (within_append.mp hw).1 hs
  | printInt he => exact ⟨hk.print _ (hk.evaluates he (within_append.mp hw).1 hs).1, trivial⟩
  | printInt_fault he => exact hk.evaluates he (within_append.mp hw).1 hs
  | printText => exact ⟨hk.print _ hs, trivial⟩
  | block _ ih => exact ih (within_append.mp hw).1 ha hs
  | sequence_nil => exact ⟨hs, trivial⟩
  | sequence_cons _ _ ihc ihrest =>
    obtain ⟨hwc, hwrest⟩ := within_append.mp hw
    obtain ⟨hac, harest⟩ := List.forall_mem_append.mp ha
    exact ihrest hwrest harest (ihc hwc hac hs).1
  | sequence_fault _ ihc =>
    exact ihc (within_append.mp hw).1 (List.forall_mem_append.mp ha).1 hs
  | cond _ ih =>
    simp only [Work.flat, Command.flat, Command.flatBranches, within_append] at hw ih
    exact ih hw.1 ha hs
  | choice_last _ ih => exact ih (within_append.mp hw).2 ha hs
  | choice_taken ht _ ihb =>
    simp only [Work.flat, Command.flatBranches, within_append] at hw ihb
    simp only [Work.targets, Command.targetsBranches, List.forall_mem_append] at ha
    exact ihb hw.1.1.2 ha.1.1 (ht.keepsIn hk hw.1.1.1 hs).1
  | choice_passed ht _ iho =>
    simp only [Work.flat, Command.flatBranches, within_append] at hw iho
    simp only [Work.targets, Command.targetsBranches, List.forall_mem_append] at ha iho
    exact iho ⟨hw.1.2, hw.2⟩ ⟨ha.1.2, ha.2⟩ (ht.keepsIn hk hw.1.1.1 hs).1
  | choice_fault ht =>
    simp only [Work.flat, Command.flatBranches, within_append] at hw
    exact ht.keepsIn hk hw.1.1.1 hs
  | loop_done ht =>
    exact ⟨(ht.keepsIn hk (within_append.mp (within_append.mp hw).1).1 hs).1, trivial⟩
  | loop_turn ht _ _ ihb ihl =>
    obtain ⟨hwt, hwb⟩ := within_append.mp (within_append.mp hw).1
    exact ihl hw ha (ihb hwb ha (ht.keepsIn hk hwt hs).1).1
  | loop_fault ht => exact ht.keepsIn hk (within_append.mp (within_append.mp hw).1).1 hs
  | loop_body ht _ ihb =>
    obtain ⟨hwt, hwb⟩ := within_append.mp (within_append.mp hw).1
    exact ihb hwb ha (ht.keepsIn hk hwt hs).1
  | count_none hi hj _ =>
    simp only [Work.flat, Command.flat, within_append] at hw
    obtain ⟨⟨⟨⟨hwi, hwj⟩, -⟩, -⟩, -⟩ := hw
    have hx := (List.forall_mem_cons.mp ha).1
    exact ⟨(hk.evaluates hj hwj (hk.store _ hx (hk.evaluates hi hwi hs).1)).1, trivial⟩
  | count_some hi hj _ _ ih =>
    simp only [Work.flat, Command.flat, within_append] at hw ih
    obtain ⟨⟨⟨⟨hwi, hwj⟩, hwk⟩, hwb⟩, -⟩ := hw
    have hx := (List.forall_mem_cons.mp ha).1
    have hs₂ := (hk.evaluates hj hwj (hk.store _ hx (hk.evaluates hi hwi hs).1)).1
    exact ih ⟨⟨hwj, hwk⟩, hwb⟩ ha hs₂
  | count_start hi =>
    simp only [Work.flat, Command.flat, within_append] at hw
    exact hk.evaluates hi hw.1.1.1.1 hs
  | count_stop hi hj =>
    simp only [Work.flat, Command.flat, within_append] at hw
    obtain ⟨⟨⟨⟨hwi, hwj⟩, -⟩, -⟩, -⟩ := hw
    have hx := (List.forall_mem_cons.mp ha).1
    exact hk.evaluates hj hwj (hk.store _ hx (hk.evaluates hi hwi hs).1)
  | turns_overflow _ hstep _ ihb =>
    obtain ⟨hws, hwb⟩ := within_append.mp hw
    have hab := (List.forall_mem_cons.mp ha).2
    exact ⟨(hk.evaluates hstep (within_append.mp hws).2 (ihb hwb hab hs).1).1, trivial⟩
  | turns_done _ hstep _ hstop _ ihb =>
    obtain ⟨hws, hwb⟩ := within_append.mp hw
    obtain ⟨hwstop, hwstep⟩ := within_append.mp hws
    have hab := (List.forall_mem_cons.mp ha).2
    have hs₂ := (hk.evaluates hstep hwstep (ihb hwb hab hs).1).1
    exact ⟨(hk.evaluates hstop hwstop hs₂).1, trivial⟩
  | turns_next _ hstep _ hstop _ _ ihb ihnext =>
    obtain ⟨hws, hwb⟩ := within_append.mp hw
    obtain ⟨hwstop, hwstep⟩ := within_append.mp hws
    obtain ⟨hx, hab⟩ := List.forall_mem_cons.mp ha
    have hs₂ := (hk.evaluates hstep hwstep (ihb hwb hab hs).1).1
    exact ihnext hw ha (hk.store _ hx (hk.evaluates hstop hwstop hs₂).1)
  | turns_body _ ihb =>
    exact ihb (within_append.mp hw).2 (List.forall_mem_cons.mp ha).2 hs
  | turns_step _ hstep ihb =>
    obtain ⟨hws, hwb⟩ := within_append.mp hw
    have hab := (List.forall_mem_cons.mp ha).2
    exact hk.evaluates hstep (within_append.mp hws).2 (ihb hwb hab hs).1
  | turns_stop _ hstep _ hstop ihb =>
    obtain ⟨hws, hwb⟩ := within_append.mp hw
    obtain ⟨hwstop, hwstep⟩ := within_append.mp hws
    have hab := (List.forall_mem_cons.mp ha).2
    exact hk.evaluates hstop hwstop (hk.evaluates hstep hwstep (ihb hwb hab hs).1).1
  | switch_case he hc _ _ ih =>
    simp only [Work.flat, Command.flat, within_append] at hw ih
    obtain ⟨⟨⟨hwe, hwc⟩, -⟩, -⟩ := hw
    have hmem := hc ▸ List.mem_append_right _ List.mem_cons_self
    have hac := (List.forall_mem_append.mp ha).1
    exact ih (within_case hmem hwc)
      (fun x hx => hac x (Command.targets_subset_targetsCases hmem hx)) (hk.evaluates he hwe hs).1
  | switch_default he _ _ ih =>
    simp only [Work.flat, Command.flat, within_append] at hw ih
    obtain ⟨⟨⟨hwe, -⟩, hwd⟩, -⟩ := hw
    exact ih hwd (List.forall_mem_append.mp ha).2 (hk.evaluates he hwe hs).1
  | switch_fault he =>
    simp only [Work.flat, Command.flat, within_append] at hw
    exact hk.evaluates he hw.1.1.1 hs

end

theorem Executes.keeps (hk : w.Keeps inv bad) {scope : ScopeId} {work : Work} {s s' : State}
    {result : Except Fault Unit} (h : Executes w scope work s result s')
    (hw : (work.flat scope).Within w.program.flat) (hs : inv s) :
    inv s' ∧ FaultsOnly bad result :=
  h.keepsIn (hk.keepsIn scope) hw (fun _ _ => trivial) hs

end

end Enquanto

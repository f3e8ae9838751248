import Enquanto.Interpret
import Enquanto.Proofs.Adequacy
import Enquanto.Proofs.Frames

/-!
# The limit of open calls

The limit shows nowhere but in the check that a call makes before its body is evaluated. So a run
with a greater limit does the same, up to the point where the run with the smaller limit overflows.

* `Fault.IsOverflow` and `Run.Overflows`: a run that is ended by the limit;
* `Run.CutShort`: an outcome is another one, or an overflow on the way to it;
* `Run.Cuts`: from every state, a run is another one, perhaps cut short; all that runs are made of
  keeps this;
* `Machine.cuts_run`: a smaller limit cuts the run of a module short, and changes it in no other
  way;
* `Module.parse_run_limit`: the same of the ends of runs, from the text of a source on.
-/

namespace Enquanto

/-- More calls were open than the limit allows. -/
def Fault.IsOverflow (f : Fault) : Prop := ∃ limit, f.cause = .stackOverflow limit

theorem Fault.IsOverflow.orSpan {f : Fault} (h : f.IsOverflow) (span : Span) :
    (f.orSpan span).IsOverflow := h

open Machine (finalState)

namespace Run

variable {α β : Type}

/-- The run was ended by the limit of open calls. -/
def Overflows (x : EStateM.Result Halt State α) : Prop :=
  ∃ f s, x = .error (.fault f) s ∧ f.IsOverflow

/-- The output of the second state starts with that of the first. -/
def OutputGrows (s s' : State) : Prop := ∃ more, s'.output = s.output ++ more

theorem OutputGrows.refl (s : State) : OutputGrows s s := ⟨"", String.append_empty.symm⟩

theorem OutputGrows.trans {s₁ s₂ s₃ : State} (h₁ : OutputGrows s₁ s₂) (h₂ : OutputGrows s₂ s₃) :
    OutputGrows s₁ s₃ := by
  obtain ⟨more₁, h₁⟩ := h₁
  obtain ⟨more₂, h₂⟩ := h₂
  exact ⟨more₁ ++ more₂, by rw [h₂, h₁, String.append_assoc]⟩

/-- The first outcome is the second, or an overflow after part of the output of the second. -/
inductive CutShort : EStateM.Result Halt State α → EStateM.Result Halt State α → Prop
  | same {x : EStateM.Result Halt State α} : CutShort x x
  | overflow {f : Fault} {s : State} {y : EStateM.Result Halt State α} : f.IsOverflow →
    OutputGrows s (finalState y) → CutShort (.error (.fault f) s) y

/-- From every state, the first run is the second one, perhaps cut short. The second one only adds
to the output, so that what it does after the cut keeps the output of the first one as its start. -/
structure Cuts (run run' : Run α) : Prop where
  cutShort : ∀ s, CutShort (run s) (run' s)
  grows : ∀ s, OutputGrows s (finalState (run' s))

/-! ## Closure -/

/-- A run that only adds to the output is related to itself. -/
theorem cuts_self {run : Run α} (h : ∀ s, OutputGrows s (finalState (run s))) : Cuts run run :=
  ⟨fun _ => .same, h⟩

theorem cuts_pure (a : α) : Cuts (pure a : Run α) (pure a) := cuts_self fun s => .refl s

theorem cuts_throw (halt : Halt) : Cuts (throw halt : Run α) (throw halt) :=
  cuts_self fun s => .refl s

theorem cuts_fault (cause : Fault.Cause) (span : Option Span) :
    Cuts (fault cause span : Run α) (fault cause span) := cuts_throw _

theorem cuts_found : ∀ o : Option α, Cuts (found o) (found o)
  | some a => cuts_pure a
  | none => cuts_throw .dangling

theorem cuts_lookup (scope : ScopeId) (name : Name) :
    Cuts (lookup scope name) (lookup scope name) := cuts_self fun s => .refl s

theorem cuts_store (scope : ScopeId) (name : Name) (value : Int32) :
    Cuts (store scope name value) (store scope name value) :=
  cuts_self fun _ => ⟨"", String.append_empty.symm⟩

theorem cuts_printLine (line : String) : Cuts (printLine line) (printLine line) :=
  cuts_self fun _ => ⟨line ++ "\n", String.append_assoc⟩

theorem cuts_readInt (span : Span) : Cuts (readInt span) (readInt span) := by
  refine cuts_self fun s => ⟨"", ?_⟩
  rw [String.append_empty]
  unfold readInt
  split <;> rfl

theorem finalState_orSpan (span : Span) (run : Run α) (s : State) :
    finalState (orSpan span run s) = finalState (run s) := by
  unfold orSpan
  split
  · next h => rw [h]; rfl
  · rfl

theorem Cuts.orSpan {run run' : Run α} (h : Cuts run run') (span : Span) :
    Cuts (orSpan span run) (orSpan span run') where
  cutShort := by
    intro s
    have hcut := h.cutShort s
    generalize hx : run s = x at hcut
    cases hcut with
    | same =>
      have heq : Run.orSpan span run s = Run.orSpan span run' s := by
        unfold Run.orSpan
        rw [hx]
      rw [heq]
      exact .same
    | overflow hf hout =>
      rw [orSpan_of_fault hx]
      refine .overflow (hf.orSpan span) ?_
      rwa [finalState_orSpan]
  grows := by
    intro s
    rw [finalState_orSpan]
    exact h.grows s

theorem grows_bind {run : Run α} {next : α → Run β} {s t : State}
    (h : OutputGrows t (finalState (run s))) (hn : ∀ a s, OutputGrows s (finalState (next a s))) :
    OutputGrows t (finalState ((run >>= next) s)) := by
  cases hx : run s with
  | ok a s' =>
    rw [hx] at h
    rw [bind_of_ok hx]
    exact h.trans (hn a s')
  | error halt s' =>
    rw [hx] at h
    rw [bind_of_error hx]
    exact h

theorem Cuts.bind {run run' : Run α} {next next' : α → Run β} (h : Cuts run run')
    (hn : ∀ a, Cuts (next a) (next' a)) : Cuts (run >>= next) (run' >>= next') where
  cutShort := by
    intro s
    have hcut := h.cutShort s
    generalize hx : run s = x at hcut
    generalize hy : run' s = y at hcut
    cases hcut with
    | same =>
      cases x with
      | ok a s' =>
        rw [bind_of_ok hx, bind_of_ok hy]
        exact (hn a).cutShort s'
      | error halt s' =>
        rw [bind_of_error hx, bind_of_error hy]
        exact .same
    | overflow hf hout =>
      rw [bind_of_error hx]
      -- The second run goes on after the cut, and adds to the output.
      rw [← hy] at hout
      exact .overflow hf (grows_bind hout fun a => (hn a).grows)
  grows := fun s => grows_bind (h.grows s) fun a => (hn a).grows

theorem Cuts.ite {c : Prop} [Decidable c] {run₁ run₁' run₂ run₂' : Run α} (h₁ : Cuts run₁ run₁')
    (h₂ : Cuts run₂ run₂') : Cuts (if c then run₁ else run₂) (if c then run₁' else run₂') := by
  split
  · exact h₁
  · exact h₂

/-- The check of the limit is where a run is cut short. -/
theorem Cuts.limit {body body' : Run α} (h : Cuts body body') {depth d d' : Nat} (hd : d ≤ d') :
    Cuts (if depth < d then body else fault (.stackOverflow d))
      (if depth < d' then body' else fault (.stackOverflow d')) := by
  by_cases hlt : depth < d
  · rw [if_pos hlt, if_pos (Nat.lt_of_lt_of_le hlt hd)]
    exact h
  · have hgrows : ∀ s, OutputGrows s
        (finalState ((if depth < d' then body' else fault (.stackOverflow d')) s)) := by
      intro s
      split
      · exact h.grows s
      · exact .refl s
    rw [if_neg hlt]
    exact ⟨fun s => .overflow ⟨d, rfl⟩ (hgrows s), hgrows⟩

end Run

/-! ## Two limits -/

namespace Machine

open Run

/-- The machine with another limit. -/
def withLimit (m : Machine) (limit : Nat) : Machine := { m with maxDepth := limit }

variable {m : Machine} {d d' : Nat}

/-- With this fuel, expressions, calls and arguments are cut short by the smaller limit. -/
structure EvalCuts (m : Machine) (d d' fuel : Nat) : Prop where
  evalExpr : ∀ depth id,
    Cuts ((m.withLimit d).evalExpr fuel depth id) ((m.withLimit d').evalExpr fuel depth id)
  call : ∀ depth id args,
    Cuts ((m.withLimit d).call fuel depth id args) ((m.withLimit d').call fuel depth id args)
  bindArgs : ∀ depth scope args, Cuts ((m.withLimit d).bindArgs fuel depth scope args)
    ((m.withLimit d').bindArgs fuel depth scope args)

theorem evalCuts (m : Machine) (hd : d ≤ d') (fuel : Nat) : m.EvalCuts d d' fuel := by
  induction fuel with
  | zero => exact ⟨fun _ _ => cuts_throw _, fun _ _ _ => cuts_throw _, fun _ _ _ => cuts_throw _⟩
  | succ fuel ih =>
    refine ⟨fun depth id => ?_, fun depth id args => ?_, fun depth scope args => ?_⟩
    · refine (cuts_found _).bind fun node => ?_
      cases node.shape with
      | int value => exact cuts_pure value
      | var name scope => exact cuts_lookup scope name
      | neg operand => exact (ih.evalExpr depth operand).bind fun _ => cuts_pure _
      | arith op left right =>
        refine (ih.evalExpr depth left).bind fun x => (ih.evalExpr depth right).bind fun y => ?_
        cases op.apply x y with
        | some value => exact cuts_pure value
        | none => exact cuts_fault _ _
      | read => exact cuts_readInt node.span
      | call function args => exact (ih.call depth function args).orSpan node.span
    · simp only [Machine.call, withLimit]
      split
      · exact cuts_fault _ _
      · split
        · exact cuts_fault _ _
        · refine (cuts_found _).bind fun args => .ite (cuts_fault _ _) ?_
          exact (ih.bindArgs depth _ _).bind fun _ => (ih.evalExpr (depth + 1) _).limit hd
    · cases args with
      | nil => exact cuts_pure ()
      | cons arg rest =>
        refine (ih.evalExpr depth arg.2).bind fun value => ?_
        exact (cuts_store scope arg.1 value).bind fun _ => ih.bindArgs depth scope rest

theorem cuts_evalPred (m : Machine) (hd : d ≤ d') (fuel : Nat) (id : PredId) :
    Cuts ((m.withLimit d).evalPred fuel id) ((m.withLimit d').evalPred fuel id) := by
  induction fuel generalizing id with
  | zero => exact cuts_throw _
  | succ fuel ih =>
    have he := (m.evalCuts hd fuel).evalExpr 0
    refine (cuts_found _).bind fun node => ?_
    cases node.shape with
    | lit value => exact cuts_pure value
    | not operand => exact (ih operand).bind fun _ => cuts_pure _
    | logic op left right =>
      exact (ih left).bind fun _ => (ih right).bind fun _ => cuts_pure _
    | rel op left right => exact (he left).bind fun _ => (he right).bind fun _ => cuts_pure _

/-- With this fuel, commands, and what is left of them, are cut short by the smaller limit. -/
structure ExecCuts (m : Machine) (d d' fuel : Nat) : Prop where
  exec : ∀ id, Cuts ((m.withLimit d).exec fuel id) ((m.withLimit d').exec fuel id)
  execAll : ∀ body, Cuts ((m.withLimit d).execAll fuel body) ((m.withLimit d').execAll fuel body)
  execFirst : ∀ branches last, Cuts ((m.withLimit d).execFirst fuel branches last)
    ((m.withLimit d').execFirst fuel branches last)
  execCount : ∀ var scope stop step body,
    Cuts ((m.withLimit d).execCount fuel var scope stop step body)
      ((m.withLimit d').execCount fuel var scope stop step body)

theorem ExecCuts.exec_succ {fuel : Nat} (hd : d ≤ d') (ih : m.ExecCuts d d' fuel) (id : CommandId) :
    Cuts ((m.withLimit d).exec (fuel + 1) id) ((m.withLimit d').exec (fuel + 1) id) := by
  have he := (m.evalCuts hd fuel).evalExpr 0
  have hp := m.cuts_evalPred hd fuel
  refine (cuts_found _).bind fun node => ?_
  cases node.shape with
  | skip => exact cuts_pure ()
  | assign target scope value => exact (he value).bind fun _ => cuts_store scope target _
  | block body => exact (cuts_found _).bind fun body => ih.execAll body
  | cond test body others last =>
    refine (hp test).bind fun _ => .ite (ih.exec body) ?_
    exact (cuts_found _).bind fun branches => ih.execFirst branches last
  | loop test body =>
    refine (hp test).bind fun _ => .ite ?_ (cuts_pure ())
    exact (ih.exec body).bind fun _ => ih.exec id
  | count var scope start stop step body =>
    refine (he start).bind fun first => (cuts_store scope var first).bind fun _ => ?_
    exact (he stop).bind fun _ => .ite (ih.execCount var scope stop step body) (cuts_pure ())
  | switch selector cases default =>
    exact (he selector).bind fun _ => (cuts_found _).bind fun _ => ih.exec _
  | printInt value => exact (he value).bind fun _ => cuts_printLine _
  | printText text => exact cuts_printLine _

theorem ExecCuts.execCount_succ {fuel : Nat} (hd : d ≤ d') (ih : m.ExecCuts d d' fuel) (var : Name)
    (scope : ScopeId) (stop step : ExprId) (body : CommandId) :
    Cuts ((m.withLimit d).execCount (fuel + 1) var scope stop step body)
      ((m.withLimit d').execCount (fuel + 1) var scope stop step body) := by
  have he := (m.evalCuts hd fuel).evalExpr 0
  refine (ih.exec body).bind fun _ => (cuts_lookup scope var).bind fun current => ?_
  refine (he step).bind fun amount => ?_
  cases advance? current amount with
  | none => exact cuts_pure ()
  | some next =>
    refine (he stop).bind fun _ => .ite ?_ (cuts_pure ())
    exact (cuts_store scope var next).bind fun _ => ih.execCount var scope stop step body

theorem execCuts (m : Machine) (hd : d ≤ d') (fuel : Nat) : m.ExecCuts d d' fuel := by
  induction fuel with
  | zero =>
    exact ⟨fun _ => cuts_throw _, fun _ => cuts_throw _, fun _ _ => cuts_throw _,
      fun _ _ _ _ _ => cuts_throw _⟩
  | succ fuel ih =>
    refine ⟨ih.exec_succ hd, fun body => ?_, fun branches last => ?_, ih.execCount_succ hd⟩
    · cases body with
      | nil => exact cuts_pure ()
      | cons id rest => exact (ih.exec id).bind fun _ => ih.execAll rest
    · cases branches with
      | nil => exact ih.exec last
      | cons branch rest =>
        exact (m.cuts_evalPred hd fuel branch.1).bind fun _ =>
          .ite (ih.exec branch.2) (ih.execFirst rest last)

/-- A smaller limit cuts a run short, and changes it in no other way. -/
theorem cuts_run (m : Machine) (hd : d ≤ d') (fuel : Nat) :
    Cuts ((m.withLimit d).run fuel) ((m.withLimit d').run fuel) :=
  (m.execCuts hd fuel).execAll m.module.commands

end Machine

/-! ## Whole runs -/

namespace Run

variable {α : Type}

/-- The first run, with all fuels, is the second one, perhaps cut short by the limit. -/
structure OnlyCutShort (run run' : Nat → Run α) (s : State) : Prop where
  /-- Short of an overflow, nothing differs. -/
  same : ∀ fuel, ¬ Overflows (run fuel s) → run' fuel s = run fuel s
  output : ∀ fuel, Overflows (run fuel s) →
    OutputGrows (finalState (run fuel s)) (finalState (run' fuel s))
  ends : ∀ r t, Ends run s r t → (∀ f, r = .error f → ¬ f.IsOverflow) → Ends run' s r t
  diverges : (∀ fuel, (run fuel).Exhausts s) → ∀ fuel, (run' fuel).Exhausts s
  /-- After an overflow of the first run, the second one ends with more output, or goes on forever
  with more output. -/
  overflows : ∀ f t, Ends run s (.error f) t → f.IsOverflow →
    (∃ r t', Ends run' s r t' ∧ OutputGrows t t') ∨
    (∀ fuel, (run' fuel).Exhausts s) ∧
      ∀ᶠ fuel in Filter.atTop, OutputGrows t (finalState (run' fuel s))

theorem CutShort.eq_of_not_overflows {x y : EStateM.Result Halt State α} (h : CutShort x y)
    (hx : ¬ Overflows x) : y = x := by
  cases h with
  | same => rfl
  | overflow hf _ => exact absurd ⟨_, _, rfl, hf⟩ hx

theorem CutShort.grows {x y : EStateM.Result Halt State α} (h : CutShort x y) :
    OutputGrows (finalState x) (finalState y) := by
  cases h with
  | same => exact .refl _
  | overflow _ hout => exact hout

theorem overflows_ended {r : Except Fault α} {s : State} (h : Overflows (ended r s)) :
    ∃ f, r = .error f ∧ f.IsOverflow := by
  obtain ⟨f, t, he, hf⟩ := h
  cases r with
  | ok a => cases he
  | error f' =>
    cases he
    exact ⟨f, rfl, hf⟩

/-- Runs that are cut short with every fuel are cut short as a whole, if the uncut one ends or
diverges. -/
theorem onlyCutShort_of_cuts {run run' : Nat → Run α} {s : State}
    (h : ∀ fuel, Cuts (run fuel) (run' fuel))
    (hrun : (∃ r t, Ends run' s r t) ∨ ∀ fuel, (run' fuel).Exhausts s) :
    OnlyCutShort run run' s where
  same := fun fuel hx => ((h fuel).cutShort s).eq_of_not_overflows hx
  output := fun fuel _ => ((h fuel).cutShort s).grows
  ends := by
    intro r t hends hr
    filter_upwards [hends] with fuel hfuel
    rw [← hfuel]
    refine ((h fuel).cutShort s).eq_of_not_overflows fun hx => ?_
    rw [hfuel] at hx
    obtain ⟨f, hf, hover⟩ := overflows_ended hx
    exact hr f hf hover
  diverges := by
    intro hall fuel
    obtain ⟨t, ht⟩ := hall fuel
    refine ⟨t, ?_⟩
    rw [← ht]
    refine ((h fuel).cutShort s).eq_of_not_overflows ?_
    rintro ⟨f, t', he, -⟩
    cases ht.symm.trans he
  overflows := by
    intro f t hends _
    have hgrows : ∀ᶠ fuel in Filter.atTop, OutputGrows t (finalState (run' fuel s)) := by
      filter_upwards [hends] with fuel hfuel
      have hcut := ((h fuel).cutShort s).grows
      rwa [hfuel] at hcut
    rcases hrun with ⟨r, t', hends'⟩ | hall
    · obtain ⟨fuel, hout, hfuel⟩ := (hgrows.and hends').exists
      refine .inl ⟨r, t', hends', ?_⟩
      rw [hfuel] at hout
      cases r <;> exact hout
    · exact .inr ⟨hall, hgrows⟩

end Run

/-- For a source that was read, a smaller limit of open calls only cuts runs short. -/
theorem Module.parse_run_limit (source : String) (names names' : Names) (m : Module)
    (h : Module.parse source names = (.ok m, names')) (d d' : Nat) (hd : d ≤ d') (s : State) :
    Run.OnlyCutShort (Machine.run ⟨names', m, d⟩) (Machine.run ⟨names', m, d'⟩) s := by
  obtain ⟨program, -, hserves⟩ := Machine.serves_of_parse h
  refine Run.onlyCutShort_of_cuts (fun fuel => ?_) ((hserves d').run_ends_or_exhausts s)
  exact Machine.cuts_run ⟨names', m, d⟩ hd fuel

/-- A limit of one call cuts a run short that a limit of two calls lets pass. -/
theorem Module.parse_run_limit_nested : ∃ (m : Module) (names : Names),
    Module.parse "def f(x) = x; def g(x) = f(x); escreva 1; escreva g(2)" .initial =
      (.ok m, names) ∧
    let s := Machine.start m (.ofString "")
    Run.OnlyCutShort (Machine.run ⟨names, m, 1⟩) (Machine.run ⟨names, m, 2⟩) s ∧
    Run.Overflows (Machine.run ⟨names, m, 1⟩ 20 s) ∧
    (finalState (Machine.run ⟨names, m, 1⟩ 20 s)).output = "1\n" ∧
    (finalState (Machine.run ⟨names, m, 2⟩ 20 s)).output = "1\n2\n" := by
  have h : Module.parse "def f(x) = x; def g(x) = f(x); escreva 1; escreva g(2)" .initial =
      (.ok (.ofProgram [.declare ⟨⟨1⟩, [⟨2⟩], .var ⟨2⟩ ⟨11, 12⟩, ⟨0, 10⟩⟩,
        .declare ⟨⟨3⟩, [⟨2⟩], .call ⟨0⟩ [.var ⟨2⟩ ⟨27, 28⟩] ⟨25, 29⟩, ⟨14, 24⟩⟩,
        .command (.printInt (.int 1 ⟨39, 40⟩) ⟨31, 40⟩),
        .command (.printInt (.call ⟨1⟩ [.int 2 ⟨52, 53⟩] ⟨50, 54⟩) ⟨42, 54⟩)]),
        ⟨#["", "f", "x", "g"]⟩) := by
    decide +kernel
  refine ⟨_, _, h, Module.parse_run_limit _ _ _ _ h 1 2 (by decide) _, ?_, ?_, ?_⟩
  · exact ⟨⟨.stackOverflow 1, some ⟨25, 29⟩⟩, _, rfl, 1, rfl⟩
  · decide +kernel
  · decide +kernel

end Enquanto

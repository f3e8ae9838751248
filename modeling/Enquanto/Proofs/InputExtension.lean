import Enquanto.Proofs.CallLimit
import Enquanto.Proofs.Congruence
import Enquanto.Proofs.InputWords
import Enquanto.Proofs.ParserTranslation

/-!
# Input that goes on

A run takes words off its input one by one, and sees nothing of those behind them. So on an input
that goes on longer it does the same, up to the point where it looks for a word that is not there.

* `State.Continued`: a state that differs from another only in that its input goes on;
* `Run.UpToDry`: an outcome is another one, or finds no word on the way to it;
* `Run.Foresees`: from all such states, a run does so; all that runs are made of keeps this;
* `Module.parse_run_append`: what this means for the runs of a source on a text and on a text with
  more lines.
-/

namespace Enquanto

open Filter Run
open Machine (finalState)

/-- No word was left to be read. -/
def Fault.IsDry (f : Fault) : Prop := f.cause = .read .exhausted

/-- The same environment and output, and texts to read of which the second begins with the words of
the first. -/
structure State.Continued (s t : State) : Prop where
  env : s.env = t.env
  output : s.output = t.output
  text : s.input.IsText
  text' : t.input.IsText
  words : s.input.words <+: t.input.words

namespace Run

variable {α β : Type}

/-- The run ended because no word was left. -/
def RunsDry (x : EStateM.Result Halt State α) : Prop :=
  ∃ f s, x = .error (.fault f) s ∧ f.IsDry

/-- The first outcome is the second, in states that differ in what is left to read, or it has run
dry after part of the output of the second. -/
inductive UpToDry : EStateM.Result Halt State α → EStateM.Result Halt State α → Prop
  | ok {a : α} {s t : State} : s.Continued t → UpToDry (.ok a s) (.ok a t)
  | error {halt : Halt} {s t : State} : s.Continued t → UpToDry (.error halt s) (.error halt t)
  | dry {f : Fault} {s : State} {y : EStateM.Result Halt State α} : f.IsDry →
    OutputGrows s (finalState y) → UpToDry (.error (.fault f) s) y

/-- From states of which the second has more to read, the runs have the same outcome, unless the
first one runs dry. The second one only adds to the output, so that what it does after that keeps
the output of the first one as its start. -/
structure Foresees (run run' : Run α) : Prop where
  outcome : ∀ s t, s.Continued t → UpToDry (run s) (run' t)
  grows : ∀ t, OutputGrows t (finalState (run' t))

/-! ## Closure -/

namespace Foresees

theorem pure (a : α) : Foresees (pure a) (pure a) := ⟨fun _ _ h => .ok h, (cuts_pure a).grows⟩

theorem throw (halt : Halt) : Foresees (throw halt : Run α) (throw halt) :=
  ⟨fun _ _ h => .error h, (cuts_throw halt).grows⟩

theorem lookup (scope : ScopeId) (x : Name) : Foresees (lookup scope x) (lookup scope x) where
  outcome := by
    intro s t h
    show UpToDry (.ok (s.env.lookup scope x) s) (.ok (t.env.lookup scope x) t)
    rw [h.env]
    exact .ok h
  grows := (cuts_lookup scope x).grows

theorem store (scope : ScopeId) (x : Name) (value : Int32) :
    Foresees (store scope x value) (store scope x value) where
  outcome := fun _ _ h =>
    .ok ⟨congrArg (·.store scope x value) h.env, h.output, h.text, h.text', h.words⟩
  grows := (cuts_store scope x value).grows

theorem printLine (line : String) : Foresees (printLine line) (printLine line) where
  outcome := fun _ _ h =>
    .ok ⟨h.env, congrArg (Output.withLine · line) h.output, h.text, h.text', h.words⟩
  grows := (cuts_printLine line).grows

/-- Reading is where a run goes dry. -/
theorem readInt (span : Span) : Foresees (readInt span) (readInt span) where
  outcome := by
    intro s t h
    cases hw : s.input.words with
    | nil =>
      obtain ⟨rest, hr⟩ := h.text.readInt_of_words_nil hw
      rw [readInt_of_error hr]
      refine .dry rfl ?_
      obtain ⟨more, hmore⟩ := (cuts_readInt span).grows t
      exact ⟨more, hmore.trans (congrArg (· ++ more) h.output.symm)⟩
    | cons word ws =>
      obtain ⟨ws', hw'⟩ := h.words
      rw [hw, List.cons_append] at hw'
      obtain ⟨rest, htext, hwords, hr⟩ := h.text.readInt_of_words_cons hw
      obtain ⟨rest', htext', hwords', hr'⟩ := h.text'.readInt_of_words_cons hw'.symm
      have hrest : (s.withInput rest).Continued (t.withInput rest') :=
        ⟨h.env, h.output, htext, htext', ⟨ws', by
          show rest.words ++ ws' = rest'.words
          rw [hwords, hwords']⟩⟩
      cases hp : Decimal.parse? word.toList with
      | some value =>
        rw [hp] at hr hr'
        rw [readInt_of_ok hr, readInt_of_ok hr']
        exact .ok hrest
      | none =>
        rw [hp] at hr hr'
        rw [readInt_of_error hr, readInt_of_error hr']
        exact .error hrest
  grows := (cuts_readInt span).grows

theorem bind {run run' : Run α} {next next' : α → Run β} (h : Foresees run run')
    (hn : ∀ a, Foresees (next a) (next' a)) : Foresees (run >>= next) (run' >>= next') where
  outcome := by
    intro s t hst
    have hout := h.outcome s t hst
    generalize hx : run s = x at hout
    generalize hy : run' t = y at hout
    cases hout with
    | ok hst' =>
      rw [bind_of_ok hx, bind_of_ok hy]
      exact (hn _).outcome _ _ hst'
    | error hst' =>
      rw [bind_of_error hx, bind_of_error hy]
      exact .error hst'
    | dry hf hgrows =>
      rw [bind_of_error hx]
      -- The second run finds its word and goes on, and adds to the output.
      rw [← hy] at hgrows
      exact .dry hf (grows_bind hgrows fun a => (hn a).grows)
  grows := fun t => grows_bind (h.grows t) fun a => (hn a).grows

theorem orSpan {run run' : Run α} (h : Foresees run run') (span : Span) :
    Foresees (orSpan span run) (orSpan span run') where
  outcome := by
    intro s t hst
    have hout := h.outcome s t hst
    have hfinal := finalState_orSpan span run' t
    unfold Run.orSpan at hfinal ⊢
    generalize run s = x at hout
    generalize run' t = y at hout hfinal
    cases hout with
    | ok hst' => exact .ok hst'
    | @error halt _ _ hst' => cases halt <;> exact .error hst'
    | dry hf hgrows =>
      rw [← hfinal] at hgrows
      exact .dry hf hgrows
  grows := by
    intro t
    rw [finalState_orSpan]
    exact h.grows t

end Foresees

/-- Where more can be read, all that runs are made of does the same. -/
theorem congruence_foresees (limit : Nat) : Congruence .refl limit Foresees where
  pure := .pure
  bind := .bind
  outOfFuel := .throw _
  lookup := by
    rintro _ _ x _ ⟨⟩ rfl
    · exact .lookup _ x
    · rename_i f f' hf
      obtain rfl : f = f' := hf
      exact .lookup _ x
  store := by
    rintro _ _ x _ value ⟨⟩ rfl
    · exact .store _ x value
    · rename_i f f' hf
      obtain rfl : f = f' := hf
      exact .store _ x value
  printLine := .printLine
  readInt := by
    rintro s _ rfl
    exact .readInt s
  division := by
    rintro s _ rfl
    exact .throw _
  overflow := .throw _
  orSpan := by
    rintro s _ run run' rfl h
    exact h.orSpan s

end Run

/-! ## Whole runs -/

/-- A program that was read is a translation of itself. -/
theorem Program.translates_self {names : Names} {tokens : List (Token Name)} {program : Program}
    (h : Program.parse names tokens = .ok program) :
    List.Forall₂ (Instruction.Translates .refl) program program := by
  have htokens : List.Forall₂ (Token.Translates .refl) tokens tokens := by
    refine List.forall₂_same.mpr fun t _ => ⟨?_, rfl⟩
    cases t.kind <;> constructor <;> rfl
  obtain ⟨program', hp, htranslates⟩ := exists_parse_translates Translation.reads_refl
    (fun hx => congrArg names.text hx) htokens h
  obtain rfl := Except.ok.inj (h.symm.trans hp)
  exact htranslates

namespace Run

variable {α : Type}

/-- On the second state, of which more can be read, the run does the same as on the first one until
that one runs dry. -/
structure OnlyRunsDry (run : Nat → Run α) (s t : State) : Prop where
  /-- Unless the first run has gone dry, nothing differs but what is left to read. -/
  same : ∀ fuel, ¬ RunsDry (run fuel s) →
    Agree State.Continued State.Continued (run fuel s) (run fuel t)
  output : ∀ fuel, RunsDry (run fuel s) →
    OutputGrows (finalState (run fuel s)) (finalState (run fuel t))
  ends : ∀ r s', Ends run s r s' → (∀ f, r = .error f → ¬ f.IsDry) →
    ∃ t', Ends run t r t' ∧ t'.output = s'.output ∧ t'.env = s'.env
  diverges : (∀ fuel, (run fuel).Exhausts s) → ∀ fuel, (run fuel).Exhausts t
  /-- Where the first run goes dry, the second one ends with more output, or goes on forever with
  more output. -/
  dry : ∀ f s', Ends run s (.error f) s' → f.IsDry →
    (∃ r t', Ends run t r t' ∧ OutputGrows s' t') ∨
    (∀ fuel, (run fuel).Exhausts t) ∧ ∀ᶠ fuel in atTop, OutputGrows s' (finalState (run fuel t))

theorem UpToDry.agree {x y : EStateM.Result Halt State α} (h : UpToDry x y) (hx : ¬ RunsDry x) :
    Agree State.Continued State.Continued x y := by
  cases h with
  | ok h => exact .ok h
  | error h => exact .error h
  | dry hf _ => exact absurd ⟨_, _, rfl, hf⟩ hx

theorem UpToDry.grows {x y : EStateM.Result Halt State α} (h : UpToDry x y) :
    OutputGrows (finalState x) (finalState y) := by
  cases h with
  | ok h => exact ⟨"", h.output ▸ String.append_empty.symm⟩
  | error h => exact ⟨"", h.output ▸ String.append_empty.symm⟩
  | dry _ hgrows => exact hgrows

theorem finalState_ended (r : Except Fault α) (s : State) : finalState (ended r s) = s := by
  cases r <;> rfl

/-- An outcome that agrees with an end is that end. -/
theorem agree_ended {r : Except Fault α} {s : State} {y : EStateM.Result Halt State α}
    {done stop : State → State → Prop} (h : Agree done stop (ended r s) y) :
    ∃ t, y = ended r t ∧ (done s t ∨ stop s t) := by
  cases r with
  | ok a =>
    cases h with
    | ok h =>
      obtain ⟨rfl, h⟩ := h
      exact ⟨_, rfl, .inl h⟩
  | error f =>
    cases h with
    | error h => exact ⟨_, rfl, .inr h⟩

theorem ended_injective {r₁ r₂ : Except Fault α} {s₁ s₂ : State}
    (h : ended r₁ s₁ = ended r₂ s₂) : r₁ = r₂ ∧ s₁ = s₂ := by
  cases r₁ <;> cases r₂ <;> cases h <;> exact ⟨rfl, rfl⟩

theorem runsDry_ended {r : Except Fault α} {s : State} (h : RunsDry (ended r s)) :
    ∃ f, r = .error f ∧ f.IsDry := by
  obtain ⟨f, t, he, hf⟩ := h
  cases r with
  | ok a => cases he
  | error f' =>
    cases he
    exact ⟨f, rfl, hf⟩

/-- What holds with every fuel holds of the whole run, if the run with more to read ends or
diverges. -/
theorem onlyRunsDry_of_foresees {run : Nat → Run α} {s t : State}
    (h : ∀ fuel, UpToDry (run fuel s) (run fuel t))
    (hrun : (∃ r t', Ends run t r t') ∨ ∀ fuel, (run fuel).Exhausts t) :
    OnlyRunsDry run s t where
  same := fun fuel hx => (h fuel).agree hx
  output := fun fuel _ => (h fuel).grows
  ends := by
    intro r s' hends hr
    have hsame : ∀ fuel, run fuel s = ended r s' → ∃ t', run fuel t = ended r t' ∧
        s'.Continued t' := by
      intro fuel hfuel
      have hup := h fuel
      rw [hfuel] at hup
      have hagree := hup.agree fun hx => by
        obtain ⟨f, hf, hdry⟩ := runsDry_ended hx
        exact hr f hf hdry
      obtain ⟨t', ht', hst | hst⟩ := agree_ended hagree <;> exact ⟨t', ht', hst⟩
    rcases hrun with ⟨r', t₁, hends'⟩ | hall
    · -- With enough fuel for both runs, the two ends are the same.
      obtain ⟨fuel, hfuel, hfuel'⟩ := (hends.and hends').exists
      obtain ⟨t', ht', hst⟩ := hsame fuel hfuel
      obtain ⟨rfl, rfl⟩ := ended_injective (hfuel'.symm.trans ht')
      exact ⟨t₁, hends', hst.output.symm, hst.env.symm⟩
    · obtain ⟨fuel, hfuel⟩ := hends.exists
      obtain ⟨t', ht', -⟩ := hsame fuel hfuel
      obtain ⟨t₁, ht₁⟩ := hall fuel
      rw [ht₁] at ht'
      cases r <;> cases ht'
  diverges := by
    intro hall fuel
    obtain ⟨s', hs'⟩ := hall fuel
    have hup := h fuel
    rw [hs'] at hup
    generalize hy : run fuel t = y at hup
    cases hup with
    | error _ => exact ⟨_, hy⟩
  dry := by
    intro f s' hends _
    have hgrows : ∀ᶠ fuel in atTop, OutputGrows s' (finalState (run fuel t)) := by
      filter_upwards [hends] with fuel hfuel
      have hup := (h fuel).grows
      rwa [hfuel] at hup
    rcases hrun with ⟨r, t', hends'⟩ | hall
    · obtain ⟨fuel, hout, hfuel⟩ := (hgrows.and hends').exists
      rw [hfuel, finalState_ended] at hout
      exact .inl ⟨r, t', hends', hout⟩
    · exact .inr ⟨hall, hgrows⟩

end Run

/-- The input of a text, and that of the text with more lines. -/
theorem State.continued_append (s : State) (text more : String) :
    (s.withInput (.ofString text)).Continued (s.withInput (.ofString (text ++ "\n" ++ more))) where
  env := rfl
  output := rfl
  text := Input.isText_ofString _
  text' := Input.isText_ofString _
  words := ⟨_, (Input.words_ofString_append text more).symm⟩

/-- A source that was read runs on a text with more lines as it runs on the text, unless it looks
for a word behind the end of the text: then it has printed what it prints on the text first. -/
theorem Module.parse_run_append (source : String) (names names' : Names) (m : Module)
    (h : Module.parse source names = (.ok m, names')) (maxDepth : Nat) (s : State)
    (text more : String) :
    Run.OnlyRunsDry (Machine.run ⟨names', m, maxDepth⟩) (s.withInput (.ofString text))
      (s.withInput (.ofString (text ++ "\n" ++ more))) := by
  obtain ⟨program, rfl, hp⟩ := Module.exists_program_of_parse h
  have hm : Machine.Serves ⟨names', .ofProgram program, maxDepth⟩ ⟨names', program, maxDepth⟩ :=
    Machine.serves_ofProgram hp maxDepth
  have hself := Program.translates_self hp
  have hw : Setting.Translates .refl ⟨names', program, maxDepth⟩ ⟨names', program, maxDepth⟩ :=
    Setting.translates_of_forall₂ (fun hx => congrArg names'.text hx) rfl (fun hf => hf) hself
  refine Run.onlyRunsDry_of_foresees (fun fuel => ?_) (hm.run_ends_or_exhausts _)
  have hrun := Machine.run_congruent (Run.congruence_foresees maxDepth) hm hm hw
    (Program.commands_translate hself) fuel
  exact hrun.outcome _ _ (s.continued_append text more)

/-- The second word is behind the end of the first text. -/
theorem Module.parse_run_append_second : ∃ (m : Module) (names : Names),
    Module.parse "escreva leia; escreva leia" .initial = (.ok m, names) ∧
    let run := Machine.run ⟨names, m, 10⟩
    let s := (Machine.start m default).withInput (.ofString "7")
    let t := (Machine.start m default).withInput (.ofString ("7" ++ "\n" ++ "8"))
    Run.OnlyRunsDry run s t ∧ Run.RunsDry (run 20 s) ∧
    (finalState (run 20 s)).output = "7\n" ∧ (finalState (run 20 t)).output = "7\n8\n" := by
  have h : Module.parse "escreva leia; escreva leia" .initial =
      (.ok (.ofProgram [.command (.printInt (.read ⟨8, 12⟩) ⟨0, 12⟩),
        .command (.printInt (.read ⟨22, 26⟩) ⟨14, 26⟩)]), .initial) := by
    decide +kernel
  have hinput : Input.ofString "7" = ⟨[], [[55]]⟩ := by
    decide +kernel
  refine ⟨_, _, h, Module.parse_run_append _ _ _ _ h 10 _ _ _, ?_, ?_, ?_⟩
  · rw [hinput]
    exact ⟨⟨.read .exhausted, some ⟨22, 26⟩⟩, _, rfl, rfl⟩
  · decide +kernel
  · decide +kernel

end Enquanto

import Enquanto.Proofs.Faults
import Enquanto.Proofs.InputExtension
import Enquanto.Proofs.JoinedPrograms
import Enquanto.Proofs.NameHistory
import Mathlib

/-!
# Running sources in sequence

Two sources that are joined by a semicolon run as the first one and then, on what that leaves
behind, the second one, provided that the second one declares no function: the first run hands its
environment and what is left of the input on, the output of the second one comes behind that of the
first, and its faults are further on in the joined source.

* `State.afresh` and `State.behind`: a state without its output, and behind an output;
* `Machine.execAll_append`: commands one behind the other;
* `Run.InSequence`: how a run goes that is two runs one after the other;
* `Module.parse_sequence`: this is how a joined source runs.
-/

namespace Enquanto

open Filter Grammar Run

/-! ## Output before -/

namespace State

/-- The state with no output yet. -/
def afresh (s : State) : State := { s with output := "" }

/-- The state with an output before its own. -/
def behind (s : State) (output : String) : State := { s with output := output ++ s.output }

@[simp] theorem behind_empty (s : State) : s.behind "" = s := by
  simp [behind]

@[simp] theorem afresh_behind (s : State) : s.afresh.behind s.output = s := by
  simp [behind, afresh]

/-- An output before makes no difference to runs. -/
theorem simulates_behind {τ : Translation} (hname : ∀ {x x'}, τ.name x x' → x = x')
    (hfunction : ∀ {f f'}, τ.function f f' → f = f') (output : String) :
    State.Simulates τ fun s t => t = s.behind output := by
  have hscope : ∀ {scope scope'}, τ.Scope scope scope' → scope = scope' := by
    rintro _ _ (_ | hf)
    · rfl
    · rw [hfunction hf]
  refine ⟨?_, ?_, ?_, ?_, ?_⟩
  · rintro s _ scope scope' x x' rfl hs hx
    rw [hscope hs, hname hx]
    rfl
  · rintro s _ scope scope' x x' value rfl hs hx
    rw [hscope hs, hname hx]
    rfl
  · rintro s _ line rfl
    simp [print, behind, Output.withLine, String.append_assoc]
  · rintro s _ rfl
    rfl
  · rintro s _ input rfl
    rfl

end State

/-! ## Outcomes further on -/

theorem Span.Filled.shift {s : Span} (h : s.Filled) (n : Nat) : (s.shift n).Filled := by
  simp only [Filled, Span.shift] at h ⊢
  omega

theorem Grammar.Runs.shift {a b : Nat} {ts : List (Token Name)} (h : Runs a b ts) (n : Nat) :
    Runs (min (a + n) Span.maxOffset) (min (b + n) Span.maxOffset) (ts.map (Token.shift n)) := by
  induction ts generalizing a with
  | nil => exact Span.shift_mono h n
  | cons t ts ih =>
    obtain ⟨ha, ht, hrest⟩ := h
    exact ⟨Span.shift_mono ha n, ht.shift n, ih hrest⟩

/-- The fault with its place moved. -/
def Fault.move (place : Span → Span) (f : Fault) : Fault := { f with span := f.span.map place }

def Halt.move (place : Span → Span) : Halt → Halt
  | .fault f => .fault (f.move place)
  | halt => halt

@[simp] theorem Halt.move_id (halt : Halt) : halt.move id = halt := by
  obtain ⟨cause, _ | span⟩ | _ | _ := halt <;> rfl

namespace Run

variable {α : Type}

/-- The outcome of a run whose source stands at another place, behind an output. -/
def further (place : Span → Span) (output : String) :
    EStateM.Result Halt State α → EStateM.Result Halt State α
  | .ok a s => .ok a (s.behind output)
  | .error halt s => .error (halt.move place) (s.behind output)

variable {place : Span → Span}

theorem further_id_empty (x : EStateM.Result Halt State α) : further id "" x = x := by
  cases x <;> simp [further]

theorem further_id_further (output : String) (x : EStateM.Result Halt State α) :
    further id output (further place "" x) = further place output x := by
  cases x <;> simp [further]

theorem further_ended (output : String) (r : Except Fault α) (s : State) :
    further place output (ended r s) = ended (r.mapError (Fault.move place)) (s.behind output) := by
  cases r <;> rfl

/-- What is known of the places of faults makes the outcome definite. -/
theorem Outcomes.eq_further {τ : Translation} {output : String}
    {x y : EStateM.Result Halt State α} (h : Outcomes τ (fun s t => t = s.behind output) x y)
    (hspan : ∀ cause span span' t, y = .error (.fault ⟨cause, some span'⟩) t →
      τ.span span span' → span' = place span) : y = further place output x := by
  cases h with
  | ok hst => rw [hst]; rfl
  | error hhalt hst =>
    subst hst
    cases hhalt with
    | fault hs =>
      cases hs with
      | none => rfl
      | some hs => rw [hspan _ _ _ _ rfl hs]; rfl
    | dangling => rfl
    | outOfFuel => rfl

end Run

/-! ## Commands one behind the other -/

theorem Arena.HoldsCommands.exists_append {a : Arena} {scope : ScopeId} {cs cs' : List Command}
    {ids : List CommandId} (h : a.HoldsCommands scope (cs ++ cs') ids) :
    ∃ front back, ids = front ++ back ∧ a.HoldsCommands scope cs front ∧
      a.HoldsCommands scope cs' back := by
  induction cs generalizing ids with
  | nil => exact ⟨[], ids, rfl, trivial, h⟩
  | cons c cs ih =>
    match ids, h with
    | id :: ids, ⟨hid, hids⟩ =>
      obtain ⟨front, back, rfl, hfront, hback⟩ := ih hids
      exact ⟨id :: front, back, rfl, ⟨hid, hfront⟩, hback⟩

/-- Each command takes one level of fuel from those behind it. -/
theorem Machine.execAll_append (m : Machine) (fuel : Nat) (front back : List CommandId) :
    m.execAll fuel (front ++ back) = (do
      m.execAll fuel front
      m.execAll (fuel - front.length) back) := by
  induction front generalizing fuel with
  | nil => cases fuel <;> rfl
  | cons id front ih =>
    cases fuel with
    | zero => rfl
    | succ fuel =>
      rw [List.cons_append, execAll_cons, execAll_cons, bind_assoc, List.length_cons,
        Nat.add_sub_add_right]
      exact congrArg (m.exec fuel id >>= ·) (funext fun _ => ih fuel)

theorem Command.within_flatAll_append {scope : ScopeId} {cs cs' : List Command}
    {f : Flattening} : (flatAll scope (cs ++ cs')).Within f ↔
      (flatAll scope cs).Within f ∧ (flatAll scope cs').Within f := by
  induction cs with
  | nil => exact (and_iff_right (Flattening.Within.empty f)).symm
  | cons c cs ih =>
    exact Flattening.within_append.trans ((and_congr_right fun _ => ih).trans
      (and_assoc.symm.trans (and_congr_left fun _ => Flattening.within_append.symm)))

/-! ## The two parts of a run -/

namespace Machine

variable {m m' : Machine} {names names' : Names} {p q q' : Program} {maxDepth : Nat}
  {front back : List CommandId}

/-- The commands of the first of two programs run as those of the program alone. -/
theorem run_eq_execAll (hm : m.Serves ⟨names, p, maxDepth⟩)
    (hm' : m'.Serves ⟨names', p ++ q, maxDepth⟩) (hkeeps : names.Keeps names')
    (hself : List.Forall₂ (Instruction.Translates (.ofNames names names')) p p)
    (hfront : m'.module.arena.HoldsCommands .root p.commands front) (fuel : Nat) (s : State) :
    m.run fuel s = m'.execAll fuel front s := by
  have hname : ∀ {x x'}, names.SameString names' x x' → x = x' := by
    rintro x x' ⟨string, hx, hx'⟩
    exact congrArg Prod.fst ((hkeeps string x hx).symm.trans hx')
  have hw : Setting.Translates (.ofNames names names') ⟨names, p, maxDepth⟩
      ⟨names', p ++ q, maxDepth⟩ := by
    refine ⟨fun hx => hx.text_eq, rfl, ?_⟩
    rintro f _ d d' rfl hd hd'
    obtain ⟨hlt, rfl⟩ := List.getElem?_eq_some_iff.mp hd
    rw [Program.declarations_append, List.getElem?_append_left hlt, hd] at hd'
    obtain rfl := Option.some.inj hd'
    exact (Program.declarations_translate hself).get hlt hlt
  have hwithin := (p ++ q).commands_within
  rw [Program.commands_append, Command.within_flatAll_append] at hwithin
  have hsimilar := congruent (congruence_similar
      (State.simulates_behind hname (fun hf => hf) "") maxDepth) hm hm' hw fuel
    (.sequence (Program.commands_translate hself)) hm.implements_run (.sequence hfront)
    p.commands_within hwithin.1 s s s.behind_empty.symm
  have heq : m'.execAll fuel front s = further id "" (m.run fuel s) :=
    hsimilar.eq_further fun _ _ _ _ _ hs => hs.symm
  rw [heq, further_id_empty]

/-- The commands of the second of two programs run behind the output so far as those of the program
alone, if it declares no function. -/
theorem execAll_eq_further (hm : m.Serves ⟨names, q, maxDepth⟩)
    (hm' : m'.Serves ⟨names, p ++ q', maxDepth⟩) (hnone : q.declarations = [])
    (h : List.Forall₂ (Instruction.Translates (.ofFunctions (p.Behind q))) q q')
    (hback : m'.module.arena.HoldsCommands .root q'.commands back) (fuel : Nat) (s : State) :
    m'.execAll fuel back s = further id s.output (m.run fuel s.afresh) := by
  have hfunction : ∀ {f f'}, ¬ p.Behind q f f' := by
    rintro f f' ⟨hlt, -⟩
    rw [hnone] at hlt
    exact Nat.not_lt_zero _ hlt
  have hw : Setting.Translates (.ofFunctions (p.Behind q)) ⟨names, q, maxDepth⟩
      ⟨names, p ++ q', maxDepth⟩ :=
    ⟨fun hx => congrArg names.text hx, rfl, fun hf => absurd hf hfunction⟩
  have hwithin := (p ++ q').commands_within
  rw [Program.commands_append, Command.within_flatAll_append] at hwithin
  have hsimilar := congruent (congruence_similar (State.simulates_behind (fun hx => hx)
      (fun hf => absurd hf hfunction) s.output) maxDepth) hm hm' hw fuel
    (.sequence (Program.commands_translate h)) hm.implements_run (.sequence hback)
    q.commands_within hwithin.2 s.afresh s s.afresh_behind.symm
  exact hsimilar.eq_further fun _ _ _ _ _ hs => hs.symm

/-- The places of faults are among the tokens of the program. -/
theorem endsOn_of_run {tokens : List (Token Name)} {a b fuel : Nat}
    (hp : Program.parse names tokens = .ok p) (hruns : Runs a b (readable tokens))
    {cause : Fault.Cause} {span : Span} {s t : State}
    (hrun : Machine.run ⟨names, .ofProgram p, maxDepth⟩ fuel s =
      .error (.fault ⟨cause, some span⟩) t) : span.EndsOn (readable tokens) := by
  have hm : Serves ⟨names, .ofProgram p, maxDepth⟩ ⟨names, p, maxDepth⟩ :=
    serves_ofProgram hp maxDepth
  rcases hm.runsSafely_run fuel s _ _ hrun with hhalt | ⟨f, hf, hraised, -⟩
  · cases hhalt
  · cases hf
    obtain ⟨n, span', hspan, hn⟩ := hraised.exists_node
    obtain rfl := Option.some.inj hspan
    obtain ⟨scope, t, hholds, hlies⟩ :=
      (Module.ofProgram_represents p).arena.exists_liesAmong (Program.parse_readFrom hp hruns) hn
    obtain rfl := Option.some.inj (hn.symm.trans hholds.node.1)
    exact hlies.endsOn

/-- A program whose tokens stand further on runs alike, with its faults further on. -/
theorem run_shift {tokens : List (Token Name)} {a b n : Nat}
    (hp : Program.parse names tokens = .ok p) (hruns : Runs a b (readable tokens))
    (hq : Program.parse names (tokens.map (Token.shift n)) = .ok q)
    (h : List.Forall₂ (Instruction.Translates (.ofShift n)) p q) (fuel : Nat) (s : State) :
    Machine.run ⟨names, .ofProgram q, maxDepth⟩ fuel s =
      further (Span.shift n) "" (Machine.run ⟨names, .ofProgram p, maxDepth⟩ fuel s) := by
  have hm : Serves ⟨names, .ofProgram p, maxDepth⟩ ⟨names, p, maxDepth⟩ :=
    serves_ofProgram hp maxDepth
  have hm' : Serves ⟨names, .ofProgram q, maxDepth⟩ ⟨names, q, maxDepth⟩ :=
    serves_ofProgram hq maxDepth
  have hw : Setting.Translates (.ofShift n) ⟨names, p, maxDepth⟩ ⟨names, q, maxDepth⟩ :=
    Setting.translates_of_forall₂ (fun hx => congrArg names.text hx) rfl (fun hf => hf) h
  have hsimilar := run_congruent (congruence_similar (State.simulates_behind (fun hx => hx)
    (fun hf => hf) "") maxDepth) hm hm' hw (Program.commands_translate h) fuel s s
    s.behind_empty.symm
  refine hsimilar.eq_further fun cause span span' t hrun hspan => ?_
  have hshift := hruns.shift n
  rw [← readable_shift] at hshift
  obtain ⟨hstart, -, -, hstop, -⟩ := (endsOn_of_run hq hshift hrun).bounds hshift
  have hle := Span.shift_mono (Nat.zero_le a) n
  rw [Nat.zero_add] at hle
  exact Span.Moved.eq_shift hspan (Nat.le_trans hle hstart) (Nat.le_trans hle hstop)

end Machine

/-! ## Two runs as one -/

namespace Run

/-- From `s`, the whole run is the first one and then the second one, in a source that stands `n`
bytes further on. The second one starts in the state that the first one ends in, with an output of
its own. -/
structure InSequence (n : Nat) (first second whole : Nat → Run Unit) (s : State) : Prop where
  /-- A fault of the first run ends the whole, in the same state. -/
  fault : ∀ f s₁, Ends first s (.error f) s₁ → Ends whole s (.error f) s₁
  /-- Otherwise the second run decides, and its output comes behind that of the first one. -/
  ends : ∀ s₁ r s₂, Ends first s (.ok ()) s₁ → Ends second s₁.afresh r s₂ →
    Ends whole s (r.mapError (Fault.move (Span.shift n))) (s₂.behind s₁.output)
  /-- If the first run never ends, the whole is this run. -/
  diverges : (∀ fuel, (first fuel).Exhausts s) → ∀ fuel, whole fuel s = first fuel s
  /-- If the second run never ends, nor does the whole, which is this run from some point on. -/
  goesOn : ∀ s₁, Ends first s (.ok ()) s₁ → (∀ fuel, (second fuel).Exhausts s₁.afresh) →
    (∀ fuel, (whole fuel).Exhausts s) ∧ ∃ k, ∀ᶠ fuel in atTop,
      whole fuel s = further (Span.shift n) s₁.output (second (fuel - k) s₁.afresh)

/-- Runs are in sequence if they are so with every fuel, of which the first one uses up `k`
levels. -/
theorem inSequence_of_forall {n k : Nat} {first second whole : Nat → Run Unit} {s : State}
    (hstop : ∀ fuel halt s₁, first fuel s = .error halt s₁ → whole fuel s = .error halt s₁)
    (hgoes : ∀ fuel s₁, first fuel s = .ok () s₁ →
      whole fuel s = further (Span.shift n) s₁.output (second (fuel - k) s₁.afresh))
    (hfirst : ∀ r s₁, Ends first s r s₁ → ∀ fuel, (first fuel).Exhausts s ∨
      first fuel s = ended r s₁) : InSequence n first second whole s where
  fault := by
    intro f s₁ h
    filter_upwards [h] with fuel hfuel
    exact hstop fuel _ s₁ hfuel
  ends := by
    intro s₁ r s₂ h₁ h₂
    filter_upwards [h₁, (tendsto_sub_atTop_nat k).eventually h₂] with fuel hfuel₁ hfuel₂
    rw [hgoes fuel s₁ hfuel₁, hfuel₂, further_ended]
  diverges := by
    intro hall fuel
    obtain ⟨s₁, hs₁⟩ := hall fuel
    rw [hs₁, hstop fuel _ s₁ hs₁]
  goesOn := by
    intro s₁ h₁ hall
    refine ⟨fun fuel => ?_, k, ?_⟩
    · rcases hfirst _ _ h₁ fuel with ⟨s', hs'⟩ | hfuel
      · exact ⟨s', hstop fuel _ s' hs'⟩
      · obtain ⟨s₂, hs₂⟩ := hall (fuel - k)
        exact ⟨s₂.behind s₁.output, by rw [hgoes fuel s₁ hfuel, hs₂]; rfl⟩
    · filter_upwards [h₁] with fuel hfuel
      exact hgoes fuel s₁ hfuel

end Run

/-- Modules of programs that declare as many functions have the same scopes. -/
theorem Module.Represents.scopes_eq {m m' : Module} {p p' : Program} (h : m.Represents p)
    (h' : m'.Represents p') (hlength : p.declarations.length = p'.declarations.length) :
    m.scopes = m'.scopes := by
  have hlinks := h.scopes.trans (hlength ▸ h'.scopes.symm)
  exact congrArg Scopes.mk (Array.toList_inj.mp hlinks)

/-- The result of reading does not depend on the strings of names. -/
theorem Program.parse_eq_ok_of_names {names names' : Names} {tokens : List (Token Name)}
    {program : Program} (h : parse names tokens = .ok program) :
    parse names' tokens = .ok program :=
  parse_eq_ok_iff.mpr (parse_eq_ok_iff.mp h)

/-- The program of a source has the same names in a later table. -/
theorem Program.translates_ofNames {source : String} {names names' later : Names}
    {program : Program} (h : parse names' (lex source names).1 = .ok program)
    (hnames : (lex source names).2 = names') (hkeeps : names'.Keeps later) :
    List.Forall₂ (Instruction.Translates (.ofNames names' later)) program program := by
  subst hnames
  have htokens : List.Forall₂ (Token.Translates (.ofNames (lex source names).2 later))
      (lex source names).1 (lex source names).1 :=
    Token.translates_of_named (Token.internAll_named _ (.refl _)) (Token.internAll_named _ hkeeps)
  obtain ⟨program', hp, htranslates⟩ := exists_parse_translates (Translation.reads_ofNames _ _)
    (fun hx => hx.text_eq) htokens h
  obtain rfl := Except.ok.inj ((parse_eq_ok_of_names h).symm.trans hp)
  exact htranslates

/-- The machine of a program and another one behind it runs them in sequence, if the second one
declares no function and runs as one that stands `n` bytes further on. -/
theorem Machine.Serves.inSequence {m m₁ m₂ : Machine} {names names' : Names} {p q q' : Program}
    {maxDepth n : Nat} {second : Nat → Run Unit} (hm : m.Serves ⟨names', p ++ q', maxDepth⟩)
    (hm₁ : m₁.Serves ⟨names, p, maxDepth⟩) (hm₂ : m₂.Serves ⟨names', q, maxDepth⟩)
    (hkeeps : names.Keeps names')
    (hself : List.Forall₂ (Instruction.Translates (.ofNames names names')) p p)
    (hnone : q.declarations = [])
    (hbehind : List.Forall₂ (Instruction.Translates (.ofFunctions (p.Behind q))) q q')
    (hsecond : ∀ fuel s, m₂.run fuel s = further (Span.shift n) "" (second fuel s)) (s : State) :
    InSequence n m₁.run second m.run s := by
  have hcommands := hm.module.commands
  rw [Program.commands_append] at hcommands
  obtain ⟨front, back, hids, hfront, hback⟩ := hcommands.exists_append
  have hrun (fuel : Nat) : m.run fuel = (do
      m.execAll fuel front
      m.execAll (fuel - front.length) back) := by
    rw [← execAll_append, ← hids]
    rfl
  have hfirst (fuel : Nat) := run_eq_execAll hm₁ hm hkeeps hself hfront fuel s
  refine inSequence_of_forall (k := front.length) (fun fuel halt s₁ h => ?_) (fun fuel s₁ h => ?_)
    fun r s₁ h fuel => ?_
  · rw [hrun, bind_of_error ((hfirst fuel).symm.trans h)]
  · rw [hrun, bind_of_ok ((hfirst fuel).symm.trans h),
      execAll_eq_further hm₂ hm hnone hbehind hback, hsecond, further_id_further]
  · exact h.exhausts_or (hm₁.run_yields fuel s) fun r s' hexec => hm₁.run_ends_iff.mpr hexec

namespace Module

variable {first second : String} {names names₁ names₂ : Names} {m₁ m₂ : Module}

/-- A source that is joined to another one, which declares no function, by a semicolon on a line of
its own is read as a program that runs both in sequence: the second one as it is read after the
first, on the environment and the input that the run of the first one leaves. -/
theorem parse_sequence (h₁ : Module.parse first names = (.ok m₁, names₁))
    (h₂ : Module.parse second names₁ = (.ok m₂, names₂)) (hsteps₁ : m₁.steps ≠ #[])
    (hsteps₂ : m₂.steps ≠ #[]) (hnone : m₂.functions.size = 0) :
    ∃ m, Module.parse (first ++ "\n;\n" ++ second) names = (.ok m, names₂) ∧
      m.scopes = m₁.scopes ∧
      ∀ (maxDepth : Nat) (s : State), InSequence (first.utf8ByteSize + 3)
        (Machine.run ⟨names₁, m₁, maxDepth⟩) (Machine.run ⟨names₂, m₂, maxDepth⟩)
        (Machine.run ⟨names₂, m, maxDepth⟩) s := by
  obtain ⟨p, rfl, hp⟩ := exists_program_of_parse h₁
  obtain ⟨q, rfl, hq⟩ := exists_program_of_parse h₂
  have hnames₁ : (lex first names).2 = names₁ := congrArg Prod.snd h₁
  have hnames₂ : (lex second names₁).2 = names₂ := congrArg Prod.snd h₂
  have hpne : p ≠ [] := by
    rintro rfl
    exact hsteps₁ rfl
  have hqne : q ≠ [] := by
    rintro rfl
    exact hsteps₂ rfl
  rw [(ofProgram_represents q).functions_size] at hnone
  have hvalid : ∀ t ∈ readable (lex first names).1, t.kind ≠ .invalid := by
    obtain ⟨form, hd, -⟩ := Program.exists_form hp hpne
    intro t ht hkind
    exact hd.valid t ht (by simp [Token.toClass, hkind, TokenKind.toClass])
  obtain ⟨htokens, hnames⟩ := lex_joined hvalid second
  rw [hnames₁, ← readable_shift] at htokens
  rw [hnames₁, hnames₂] at hnames
  -- The second program as it stands behind the first one, but read alone.
  obtain ⟨q₁, hq₁, hshift⟩ := Program.parse_shift hq (first.utf8ByteSize + 3)
  have hq₁ne : q₁ ≠ [] := by
    rintro rfl
    exact hqne (List.forall₂_nil_right_iff.mp hshift)
  have hnone₁ : q₁.declarations = [] := by
    rw [(Program.declarations_translate hshift).length_eq] at hnone
    exact List.eq_nil_of_length_eq_zero hnone
  obtain ⟨q₂, hwhole, hbehind⟩ := Program.parse_append hp hpne hq₁ hq₁ne rfl htokens names₂
  have hlength : (p ++ q₂).declarations.length = p.declarations.length := by
    rw [Program.declarations_append, List.length_append,
      ← (Program.declarations_translate hbehind).length_eq, hnone₁]
    rfl
  refine ⟨.ofProgram (p ++ q₂), ?_, ?_, fun maxDepth s => ?_⟩
  · show ((Program.parse (lex _ names).2 (lex _ names).1).map ofProgram, (lex _ names).2) = _
    rw [hnames, hwhole]
    rfl
  · exact (ofProgram_represents _).scopes_eq (ofProgram_represents p) hlength
  · have hkeeps : names₁.Keeps names₂ := hnames₂ ▸ Token.internAll_keeps _ _
    exact (Machine.serves_ofProgram hwhole maxDepth).inSequence
      (Machine.serves_ofProgram hp maxDepth) (Machine.serves_ofProgram hq₁ maxDepth) hkeeps
      (Program.translates_ofNames hp hnames₁ hkeeps) hnone₁ hbehind
      (fun fuel s => Machine.run_shift hq (runs_lex second _) hq₁ hshift fuel s) s

/-- The first source ends with a comment. The second one prints, and divides by the number that the
first one read. -/
theorem parse_sequence_comment : ∃ (m m₁ m₂ : Module) (names₁ names₂ : Names),
    Module.parse "x := leia # 1" .initial = (.ok m₁, names₁) ∧
    Module.parse "exiba \"7\"; escreva 1 / x" names₁ = (.ok m₂, names₂) ∧
    Module.parse ("x := leia # 1" ++ "\n;\n" ++ "exiba \"7\"; escreva 1 / x") .initial =
      (.ok m, names₂) ∧
    (∀ s, InSequence 16 (Machine.run ⟨names₁, m₁, 10⟩) (Machine.run ⟨names₂, m₂, 10⟩)
      (Machine.run ⟨names₂, m, 10⟩) s) ∧
    ∃ s, Machine.run ⟨names₂, m, 10⟩ 20 (Machine.start m (.ofString "0")) =
      .error (.fault ⟨.divisionByZero, some ⟨35, 40⟩⟩) s ∧ s.output = "7\n" := by
  have h₁ : Module.parse "x := leia # 1" .initial =
      (.ok (.ofProgram [.command (.assign ⟨1⟩ (.read ⟨5, 9⟩) ⟨0, 9⟩)]), ⟨#["", "x"]⟩) := by
    decide +kernel
  have h₂ : Module.parse "exiba \"7\"; escreva 1 / x" ⟨#["", "x"]⟩ =
      (.ok (.ofProgram [.command (.printText ⟨2⟩ ⟨0, 9⟩),
        .command (.printInt (.arith .div (.int 1 ⟨19, 20⟩) (.var ⟨1⟩ ⟨23, 24⟩) ⟨19, 24⟩)
          ⟨11, 24⟩)]), ⟨#["", "x", "7"]⟩) := by
    decide +kernel
  have hwhole : Module.parse ("x := leia # 1" ++ "\n;\n" ++ "exiba \"7\"; escreva 1 / x") .initial =
      (.ok (.ofProgram [.command (.assign ⟨1⟩ (.read ⟨5, 9⟩) ⟨0, 9⟩),
        .command (.printText ⟨2⟩ ⟨16, 25⟩),
        .command (.printInt (.arith .div (.int 1 ⟨35, 36⟩) (.var ⟨1⟩ ⟨39, 40⟩) ⟨35, 40⟩)
          ⟨27, 40⟩)]), ⟨#["", "x", "7"]⟩) := by
    decide +kernel
  obtain ⟨m, hm, -, hrun⟩ := parse_sequence h₁ h₂ (by decide +kernel) (by decide +kernel)
    (by decide +kernel)
  obtain rfl := Except.ok.inj (congrArg Prod.fst (hm.symm.trans hwhole))
  have hinput : Input.ofString "0" = ⟨[], [[48]]⟩ := by
    decide +kernel
  refine ⟨_, _, _, _, _, h₁, h₂, hm, hrun 10, ?_⟩
  rw [hinput]
  exact ⟨⟨⟨#[⟨.root, [(⟨1⟩, 0)]⟩]⟩, ⟨[], []⟩, "7\n"⟩, by cbv, rfl⟩

end Module

end Enquanto

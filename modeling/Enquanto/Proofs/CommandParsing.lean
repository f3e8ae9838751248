import Enquanto.Command.Parser
import Enquanto.Proofs.PredParsing

/-!
# The command parser and the grammar

`Command.parser` reads exactly the commands of the grammar that satisfy the rules, and gives the
trees of those forms in which every `senaose` and `senao` belongs to the nearest open conditional;
of the others it reports the first offence.

* `Command.parser_sound`: what it has read is a command;
* `Command.parser_reports`: a command is read to its end, or to its first offence, if the token
  behind it does not go on with it.

The token behind a command decides how its end is read: a command that ends with an open conditional
has no `senaose` or `senao` behind it (`CommandForm.Attached`). `CommandForm.Fits` keeps that
together with the rules.
-/

namespace Enquanto

open Grammar Enquanto.Parser

/-- The words that go on with an open conditional. -/
def Grammar.IsElse (kind : TokenKind Name) : Prop :=
  kind = .keyword .senaose ∨ kind = .keyword .senao

namespace CommandForm

/-- The form is the one that is read in front of a token. -/
structure Attached (next : TokenKind Name) (f : CommandForm) : Prop where
  nearest : f.Nearest
  closed : f.isOpen = true → ¬IsElse next

/-- The form satisfies the rules, and is the one that is read in front of a token. -/
structure Fits (declared : List Signature) (next : TokenKind Name) (f : CommandForm) : Prop
    extends Attached next f where
  admissible : f.Admissible declared

/-- A command that satisfies the rules, with its tree. -/
abbrev Reads (declared : List Signature) : List (Token Name) → Command → Prop :=
  Denotes Derives (fun f => f.Nearest ∧ f.Admissible declared) (tree declared)

/-- A case that satisfies the rules, with its value and tree. -/
abbrev ReadsCase (declared : List Signature) : List (Token Name) → Int32 × Command → Prop :=
  Denotes Case (fun x => x.1.Admissible ∧ x.2.Nearest ∧ x.2.Admissible declared)
    (fun x => (x.1.value, x.2.tree declared))

/-- Only the last of some commands may be open, and only if what follows does not go on with it. -/
def ClosedUpTo (fs : List CommandForm) (next : TokenKind Name) : Prop :=
  (∀ f ∈ fs.dropLast, f.isOpen = false) ∧ ∀ f ∈ fs.getLast?, f.isOpen = true → ¬IsElse next

theorem closedUpTo_singleton {f : CommandForm} {next : TokenKind Name} :
    ClosedUpTo [f] next ↔ (f.isOpen = true → ¬IsElse next) := by
  simp [ClosedUpTo]

theorem closedUpTo_cons_cons {f g : CommandForm} {fs : List CommandForm} {next : TokenKind Name} :
    ClosedUpTo (f :: g :: fs) next ↔ f.isOpen = false ∧ ClosedUpTo (g :: fs) next := by
  simp [ClosedUpTo, and_assoc]

theorem ClosedUpTo.tail {f : CommandForm} {fs : List CommandForm} {next : TokenKind Name}
    (h : ClosedUpTo (f :: fs) next) : ClosedUpTo fs next := by
  cases fs with
  | nil => simp [ClosedUpTo]
  | cons g fs => exact (closedUpTo_cons_cons.mp h).2

/-- In front of a word that goes on with a conditional, all of the commands are closed. -/
theorem ClosedUpTo.forall_closed {fs : List CommandForm} {next : TokenKind Name}
    (h : ClosedUpTo fs next) (hnext : IsElse next) : ∀ f ∈ fs, f.isOpen = false := by
  intro f hf
  obtain ⟨init, last, rfl⟩ := List.eq_nil_or_concat fs |>.resolve_left (List.ne_nil_of_mem hf)
  simp only [ClosedUpTo, List.concat_eq_append, List.dropLast_concat, List.getLast?_concat,
    Option.mem_some_iff, forall_eq'] at h
  rw [List.concat_eq_append, List.mem_append, List.mem_singleton] at hf
  rcases hf with hf | rfl
  · exact h.1 f hf
  · exact Bool.eq_false_iff.mpr fun ho => h.2 ho hnext

theorem Shape.ne_nil {ts : List (Token Name)} {shape : Span → CommandForm} (h : Shape ts shape) :
    ts ≠ [] := by
  cases h <;> simp

theorem Branch.ne_nil {ts : List (Token Name)} {b : PredForm × CommandForm} (h : Branch ts b) :
    ts ≠ [] := by
  cases h
  simp

theorem Derives.ne_nil {ts : List (Token Name)} {f : CommandForm} (h : Derives ts f) :
    ts ≠ [] := by
  cases h with
  | intro h => exact h.ne_nil

end CommandForm

namespace Command

open CommandForm

variable {ctx : Context} {nested : Parser Command} {c c' : Cursor}

/-! ## Soundness -/

/-- What a parser of nested commands has read is a command that fits what follows. -/
def SoundNested (ctx : Context) (nested : Parser Command) : Prop :=
  ∀ ⦃c a c'⦄, nested c = .ok (a, c') → ∃ ts f, c.Passes ts c' ∧ Derives ts f ∧
    f.Fits ctx.declared c'.current.kind ∧ f.tree ctx.declared = a

/-- The same for the parser of a command without its span. -/
def SoundShape (ctx : Context) (p : Parser (Span → Command)) : Prop :=
  ∀ ⦃c shape c'⦄, p c = .ok (shape, c') → ∃ ts form, c.Passes ts c' ∧ Shape ts form ∧
    ∀ s, (form s).Fits ctx.declared c'.current.kind ∧ (form s).tree ctx.declared = shape s

theorem SoundNested.sound (h : SoundNested ctx nested) : Sound nested (Reads ctx.declared) := by
  intro c a c' hc
  obtain ⟨ts, f, hts, hf, hfits, rfl⟩ := h hc
  exact ⟨ts, hts, f, hf, ⟨hfits.nearest, hfits.admissible⟩, rfl⟩

theorem assignParser_sound : SoundShape ctx (assignParser ctx) := by
  intro c shape c' hc
  obtain ⟨⟨x, s⟩, c₁, h₁, hc⟩ := bind_eq_ok_iff.mp hc
  obtain ⟨s₁, c₂, h₂, hc⟩ := bind_eq_ok_iff.mp hc
  obtain ⟨e, c₃, he, hc⟩ := bind_eq_ok_iff.mp hc
  obtain ⟨rfl, rfl⟩ := pure_eq_ok_iff.mp hc
  obtain ⟨ts, hts, f, hf, ha, rfl⟩ := Expr.parser_sound ctx he
  refine ⟨_, .assign x f, (identifier_eq_ok_iff.mp h₁).cons ((symbol_eq_ok_iff.mp h₂).cons hts),
    .assign hf, fun s => ⟨⟨⟨trivial, ?_⟩, ha⟩, rfl⟩⟩
  exact nofun

theorem blockParser_sound (h : SoundNested ctx nested) : SoundShape ctx (blockParser nested) := by
  intro c shape c' hc
  obtain ⟨s₁, c₁, h₁, hc⟩ := bind_eq_ok_iff.mp hc
  obtain ⟨body, c₂, hb, hc⟩ := bind_eq_ok_iff.mp hc
  obtain ⟨s₂, c₃, h₂, hc⟩ := bind_eq_ok_iff.mp hc
  obtain ⟨rfl, rfl⟩ := pure_eq_ok_iff.mp hc
  obtain ⟨ts, hts, hs⟩ := Sound.sepBy h.sound hb
  obtain ⟨forms, hforms, hall, rfl⟩ := sepBy_denotes_iff.mp hs
  refine ⟨_, .block forms, (symbol_eq_ok_iff.mp h₁).cons (hts.append (symbolAs_eq_ok_iff.mp h₂)),
    .block hforms, fun s => ⟨⟨⟨?_, nofun⟩, ?_⟩, ?_⟩⟩
  · exact nearestAll_iff.mpr fun f hf => (hall f hf).1
  · exact admissibleAll_iff.mpr fun f hf => (hall f hf).2
  · rw [tree, trees_eq_map]

theorem branchParser_sound (h : SoundNested ctx nested) {b : Pred × Command}
    (hc : branchParser ctx nested c = .ok (b, c')) :
    ∃ ts test body, c.Passes ts c' ∧ Branch ts (test, body) ∧ test.Admissible ctx.declared ∧
      body.Fits ctx.declared c'.current.kind ∧
      b = (test.tree ctx.declared, body.tree ctx.declared) := by
  obtain ⟨p, c₁, hp, hc⟩ := bind_eq_ok_iff.mp hc
  obtain ⟨s, c₂, h₂, hc⟩ := bind_eq_ok_iff.mp hc
  obtain ⟨a, c₃, ha, hc⟩ := bind_eq_ok_iff.mp hc
  obtain ⟨rfl, rfl⟩ := pure_eq_ok_iff.mp hc
  obtain ⟨ts, hts, test, htest, hadm, rfl⟩ := Pred.parser_sound ctx hp
  obtain ⟨us, body, hus, hbody, hfits, rfl⟩ := h ha
  exact ⟨_, test, body, hts.append ((keyword_eq_ok_iff.mp h₂).cons hus), .intro htest hbody, hadm,
    hfits, rfl⟩

/-- The branches after the first, from the command that the first one guards. -/
theorem branches_sound (h : SoundNested ctx nested) {xs : List (Pred × Command)}
    {first : CommandForm}
    (hsteps : Steps (on (.keyword .senaose)) (fun _ => branchParser ctx nested) c xs c')
    (hfirst : first.isOpen = true → ¬IsElse c.current.kind) :
    ∃ us others, c.Passes us c' ∧ Many (just (.keyword .senaose)) Branch us others ∧
      NearestBranches (others.map Prod.snd) ∧
      AdmissibleBranches ctx.declared (others.map Prod.snd) ∧
      ClosedUpTo (first :: (others.map Prod.snd).map Prod.snd) c'.current.kind ∧
      branchTrees ctx.declared (others.map Prod.snd) = xs := by
  induction hsteps generalizing first with
  | stop _ =>
    exact ⟨[], [], Cursor.passes_nil_iff.mpr rfl, .nil, trivial, trivial,
      closedUpTo_singleton.mpr hfirst, rfl⟩
  | @step c c₁ c' _ b xs hon hb _ ih =>
    have hk : c.current.kind = .keyword .senaose := on_keyword_eq_some_iff.mp hon
    have ht : c.Passes [c.current] c.advance := passes_current (by simp [hk])
    obtain ⟨ts, test, body, hts, hbranch, hadm, hfits, rfl⟩ := branchParser_sound h hb
    obtain ⟨us, others, hus, hmany, hnear, hadms, hclosed, rfl⟩ := ih hfits.closed
    refine ⟨_, ((), test, body) :: others, ht.cons (hts.append hus), .cons hk hbranch hmany,
      ⟨hfits.nearest, hnear⟩, ⟨⟨hadm, hfits.admissible⟩, hadms⟩, ?_, rfl⟩
    refine closedUpTo_cons_cons.mpr ⟨Bool.eq_false_iff.mpr fun ho => ?_, hclosed⟩
    exact hfirst ho (.inl hk)

theorem branches_steps (h : SoundNested ctx nested) {xs : List (Pred × Command)}
    (hc : many (on (.keyword .senaose)) (fun _ => branchParser ctx nested) c = .ok (xs, c')) :
    Steps (on (.keyword .senaose)) (fun _ => branchParser ctx nested) c xs c' := by
  refine .of_many_eq rfl (fun _ c b c' hb => ?_) hc
  obtain ⟨ts, test, body, hts, -⟩ := branchParser_sound h hb
  exact hts.ahead_length_le

theorem condParser_sound (h : SoundNested ctx nested) : SoundShape ctx (condParser ctx nested) := by
  intro c shape c' hc
  obtain ⟨s, c₁, h₁, hc⟩ := bind_eq_ok_iff.mp hc
  obtain ⟨b, c₂, hb, hc⟩ := bind_eq_ok_iff.mp hc
  obtain ⟨xs, c₃, hxs, hc⟩ := bind_eq_ok_iff.mp hc
  have hc := optional_eq_ok_iff.mp hc
  have h₁ := keyword_eq_ok_iff.mp h₁
  obtain ⟨ts, test, body, hts, hbranch, hadm, hfits, rfl⟩ := branchParser_sound h hb
  have hsteps := branches_steps h hxs
  have hnone : c₃.current.kind ≠ .keyword .senaose := fun hk =>
    absurd hsteps.stopped (by rw [hk]; simp [on, TokenKind.toClass])
  obtain ⟨us, others, hus, hmany, hnear, hadms, hclosed, rfl⟩ :=
    branches_sound h hsteps hfits.closed
  rcases hc with ⟨hk, last, c₄, hl, hc⟩ | ⟨hk, last, c₄, hl, hc⟩
  · obtain ⟨rfl, rfl⟩ := pure_eq_ok_iff.mp hc
    obtain ⟨vs, last, hvs, hlast, hlfits, rfl⟩ := h hl
    have hk : c₃.current.kind = .keyword .senao := TokenKind.toClass_eq_keyword_iff.mp hk
    have hsenao : c₃.Passes [keywordAt .senao c₃.current.span] c₃.advance :=
      passes_advance (by rw [keywordAt, ← hk]) rfl
    refine ⟨_, .cond test body (others.map Prod.snd) last,
      h₁.cons (hts.append (hus.append (hsenao.cons hvs))), .cond hbranch hmany hlast,
      fun s => ⟨⟨⟨⟨hfits.nearest, hnear, hlfits.nearest, ?_⟩, hlfits.closed⟩,
        hadm, hfits.admissible, hadms, hlfits.admissible⟩, rfl⟩⟩
    exact hclosed.forall_closed (.inr hk)
  · obtain ⟨rfl, rfl⟩ := pure_eq_ok_iff.mp hc
    obtain ⟨rfl, rfl⟩ := pure_eq_ok_iff.mp hl
    have hpass := hts.append hus
    have hgap : c'.lastSpan = Grammar.lastSpan (ts ++ us) :=
      hpass.lastSpan_eq (by simp [hbranch.ne_nil])
    refine ⟨_, .condOnly test body (others.map Prod.snd) (gapAfter (ts ++ us)), h₁.cons hpass,
      .condOnly hbranch hmany, fun s => ⟨⟨⟨⟨hfits.nearest, hnear, hclosed.1⟩, fun _ => ?_⟩,
        hadm, hfits.admissible, hadms⟩, ?_⟩⟩
    · rintro (he | he)
      · exact hnone he
      · exact hk (TokenKind.toClass_eq_keyword_iff.mpr he)
    · rw [tree, gapAfter, hgap]

theorem loopParser_sound (h : SoundNested ctx nested) : SoundShape ctx (loopParser ctx nested) := by
  intro c shape c' hc
  obtain ⟨s, c₁, h₁, hc⟩ := bind_eq_ok_iff.mp hc
  obtain ⟨p, c₂, hp, hc⟩ := bind_eq_ok_iff.mp hc
  obtain ⟨s₁, c₃, h₃, hc⟩ := bind_eq_ok_iff.mp hc
  obtain ⟨a, c₄, ha, hc⟩ := bind_eq_ok_iff.mp hc
  obtain ⟨rfl, rfl⟩ := pure_eq_ok_iff.mp hc
  obtain ⟨ts, hts, test, htest, hadm, rfl⟩ := Pred.parser_sound ctx hp
  obtain ⟨us, body, hus, hbody, hfits, rfl⟩ := h ha
  exact ⟨_, .loop test body, (keyword_eq_ok_iff.mp h₁).cons
    (hts.append ((keyword_eq_ok_iff.mp h₃).cons hus)), .loop htest hbody,
    fun s => ⟨⟨⟨hfits.nearest, hfits.closed⟩, hadm, hfits.admissible⟩, rfl⟩⟩

theorem countParser_sound (h : SoundNested ctx nested) :
    SoundShape ctx (countParser ctx nested) := by
  intro c shape c' hc
  obtain ⟨s, c₁, h₁, hc⟩ := bind_eq_ok_iff.mp hc
  obtain ⟨⟨x, s₁⟩, c₂, h₂, hc⟩ := bind_eq_ok_iff.mp hc
  obtain ⟨s₂, c₃, h₃, hc⟩ := bind_eq_ok_iff.mp hc
  obtain ⟨e, c₄, he, hc⟩ := bind_eq_ok_iff.mp hc
  obtain ⟨s₃, c₅, h₅, hc⟩ := bind_eq_ok_iff.mp hc
  obtain ⟨e', c₆, he', hc⟩ := bind_eq_ok_iff.mp hc
  obtain ⟨ts, hts, start, hstart, hsa, rfl⟩ := Expr.parser_sound ctx he
  obtain ⟨us, hus, stop, hstop, hta, rfl⟩ := Expr.parser_sound ctx he'
  have h₁ := keyword_eq_ok_iff.mp h₁
  have h₂ := identifier_eq_ok_iff.mp h₂
  have h₃ := keyword_eq_ok_iff.mp h₃
  have h₅ := keyword_eq_ok_iff.mp h₅
  rcases optional_eq_ok_iff.mp hc with ⟨hk, e'', c₇, he'', hc⟩ | ⟨-, e'', c₇, he'', hc⟩
  · obtain ⟨s₅, c₈, h₈, hc⟩ := bind_eq_ok_iff.mp hc
    obtain ⟨a, c₉, ha, hc⟩ := bind_eq_ok_iff.mp hc
    obtain ⟨rfl, rfl⟩ := pure_eq_ok_iff.mp hc
    obtain ⟨vs, hvs, step, hstep, hea, rfl⟩ := Expr.parser_sound ctx he''
    obtain ⟨ws, body, hws, hbody, hfits, rfl⟩ := h ha
    have hk : c₆.current.kind = .keyword .passo := TokenKind.toClass_eq_keyword_iff.mp hk
    have hpasso : c₆.Passes [keywordAt .passo c₆.current.span] c₆.advance :=
      passes_advance (by rw [keywordAt, ← hk]) rfl
    exact ⟨_, .count x start stop step body, h₁.cons (h₂.cons (h₃.cons (hts.append (h₅.cons
      (hus.append (hpasso.cons (hvs.append ((keyword_eq_ok_iff.mp h₈).cons hws)))))))),
      .count hstart hstop hstep hbody,
      fun s => ⟨⟨⟨hfits.nearest, hfits.closed⟩, hsa, hta, hea, hfits.admissible⟩, rfl⟩⟩
  · obtain ⟨s₅, c₈, h₈, hc⟩ := bind_eq_ok_iff.mp hc
    obtain ⟨a, c₉, ha, hc⟩ := bind_eq_ok_iff.mp hc
    obtain ⟨rfl, rfl⟩ := pure_eq_ok_iff.mp hc
    obtain ⟨rfl, rfl⟩ := pure_eq_ok_iff.mp he''
    obtain ⟨ws, body, hws, hbody, hfits, rfl⟩ := h ha
    have hgap : c₇.lastSpan = Grammar.lastSpan us := by
      obtain ⟨t, us, rfl, -⟩ := hstop.starts
      exact hus.lastSpan_eq (by simp)
    refine ⟨_, .countOnes x start stop (gapAfter us) body, h₁.cons (h₂.cons (h₃.cons (hts.append
      (h₅.cons (hus.append ((keyword_eq_ok_iff.mp h₈).cons hws)))))),
      .countOnes hstart hstop hbody,
      fun s => ⟨⟨⟨hfits.nearest, hfits.closed⟩, hsa, hta, hfits.admissible⟩, ?_⟩⟩
    rw [tree, gapAfter, hgap]

/-- After the tokens of a label, a case goes on with its value. -/
theorem caseParser_eq {c₁ : Cursor} {ts : List (Token Name)} {label : CaseLabel}
    (hl : CaseLabel.Derives ts label) (hts : c.Passes ts c₁) : caseParser nested c = (do
      let value ← literal label.negative label.magnitude label.span
      let _ ← symbol .colon
      let body ← nested
      return (value, body) : Parser (Int32 × Command)) c₁ := by
  rw [caseParser, current_bind, eat_bind]
  cases hl with
  | @positive m s =>
    have hlast : c₁.lastSpan = s := hts.lastSpan_eq (by simp)
    rw [if_neg (by simp [hts.current_eq, Token.toClass, TokenKind.toClass]), hts.current_eq,
      bind_eq_of_ok (integer_eq_ok_iff.mpr hts)]
    simp only [spanFrom_bind, hlast, Span.merge_self]
  | @negative m s s₁ =>
    obtain ⟨c₀, h₀, h₁⟩ := Cursor.passes_cons_iff.mp hts
    obtain ⟨hc, -, rfl⟩ := Cursor.passes_one_iff.mp h₀
    have hlast : c₁.lastSpan = s₁ := h₁.lastSpan_eq (by simp)
    rw [if_pos (by rw [hc]; rfl), hc, bind_eq_of_ok (integer_eq_ok_iff.mpr h₁)]
    simp only [spanFrom_bind, hlast]

/-- A case that is read starts with a label. -/
theorem exists_label {r : (Int32 × Command) × Cursor} (hc : caseParser nested c = .ok r) :
    ∃ ts label c₁, CaseLabel.Derives ts label ∧ c.Passes ts c₁ := by
  rw [caseParser, current_bind, eat_bind] at hc
  split at hc
  · rename_i hk
    have hk : c.current.kind = .symbol .minus := TokenKind.toClass_eq_symbol_iff.mp hk
    have hminus : c.Passes [symbolAt .minus c.current.span] c.advance :=
      passes_advance (by rw [symbolAt, ← hk]) rfl
    obtain ⟨⟨m, s⟩, c₁, h₁, -⟩ := bind_eq_ok_iff.mp hc
    exact ⟨_, _, c₁, .negative, hminus.cons (integer_eq_ok_iff.mp h₁)⟩
  · obtain ⟨⟨m, s⟩, c₁, h₁, -⟩ := bind_eq_ok_iff.mp hc
    exact ⟨_, _, c₁, .positive, integer_eq_ok_iff.mp h₁⟩

theorem caseParser_sound (h : Sound nested (Reads ctx.declared)) :
    Sound (caseParser nested) (ReadsCase ctx.declared) := by
  rintro c ⟨v, a⟩ c' hc
  obtain ⟨ts, label, c₁, hl, hts⟩ := exists_label hc
  rw [caseParser_eq hl hts] at hc
  obtain ⟨_, _, hv, hc⟩ := bind_eq_ok_iff.mp hc
  obtain ⟨s, c₂, hcolon, hc⟩ := bind_eq_ok_iff.mp hc
  obtain ⟨_, _, ha, hc⟩ := bind_eq_ok_iff.mp hc
  obtain ⟨⟨rfl, rfl⟩, rfl⟩ := (pure_eq_ok_iff.mp hc).imp_left Prod.mk.inj
  obtain ⟨hvalue, rfl⟩ := lift_eq_ok_iff.mp hv
  obtain ⟨hadm, rfl⟩ := literal_eq_ok_iff.mp hvalue
  obtain ⟨us, hus, f, hf, hfa, rfl⟩ := h ha
  exact ⟨_, hts.append ((symbol_eq_ok_iff.mp hcolon).cons hus), (label, f), .intro hl hf,
    ⟨hadm, hfa⟩, rfl⟩

theorem switchParser_sound (h : SoundNested ctx nested) :
    SoundShape ctx (switchParser ctx nested) := by
  intro c shape c' hc
  obtain ⟨s, c₁, h₁, hc⟩ := bind_eq_ok_iff.mp hc
  obtain ⟨e, c₂, he, hc⟩ := bind_eq_ok_iff.mp hc
  obtain ⟨xs, c₃, hxs, hc⟩ := bind_eq_ok_iff.mp hc
  obtain ⟨s₁, c₄, h₄, hc⟩ := bind_eq_ok_iff.mp hc
  obtain ⟨s₂, c₅, h₅, hc⟩ := bind_eq_ok_iff.mp hc
  obtain ⟨a, c₆, ha, hc⟩ := bind_eq_ok_iff.mp hc
  obtain ⟨rfl, rfl⟩ := pure_eq_ok_iff.mp hc
  obtain ⟨ts, hts, selector, hsel, hsa, rfl⟩ := Expr.parser_sound ctx he
  obtain ⟨us, hus, rest, hrest, rfl⟩ := (caseParser_sound h.sound).marked hxs
  obtain ⟨cases, hcases, hadm, rfl⟩ := many_denotes_iff.mp hrest
  obtain ⟨vs, default, hvs, hdefault, hfits, rfl⟩ := h ha
  refine ⟨_, .switch selector (cases.map Prod.snd) default, (keyword_eq_ok_iff.mp h₁).cons
    (hts.append (hus.append ((keywordAs_eq_ok_iff.mp h₄).cons
      ((symbol_eq_ok_iff.mp h₅).cons hvs)))), .switch hsel hcases hdefault,
    fun s => ⟨⟨⟨⟨?_, hfits.nearest⟩, hfits.closed⟩, hsa, ?_, hfits.admissible⟩, ?_⟩⟩
  · exact nearestCases_iff.mpr (List.forall_mem_map.mpr fun x hx => (hadm x hx).2.1)
  · exact admissibleCases_iff.mpr
      (List.forall_mem_map.mpr fun x hx => ⟨(hadm x hx).1, (hadm x hx).2.2⟩)
  · simp [tree, caseTrees_eq_map, Function.comp_def]

theorem shapeParser_sound (h : SoundNested ctx nested) :
    SoundShape ctx (shapeParser ctx nested) := by
  intro c shape c' hc
  rcases ht : c.current with ⟨kind, s⟩
  rw [shapeParser, current_bind, ht] at hc
  cases kind with
  | identifier x => exact assignParser_sound hc
  | symbol k =>
    cases k with
    | openBrace => exact blockParser_sound h hc
    | _ => exact absurd hc unexpected_ne_ok
  | keyword k =>
    have hk : c.Passes [keywordAt k s] c.advance := passes_advance ht rfl
    cases k with
    | skip =>
      obtain ⟨rfl, rfl⟩ := pure_eq_ok_iff.mp hc
      exact ⟨_, .skip, hk, .skip, fun s => ⟨⟨⟨trivial, nofun⟩, trivial⟩, rfl⟩⟩
    | se => exact condParser_sound h hc
    | enquanto => exact loopParser_sound h hc
    | para => exact countParser_sound h hc
    | escolha => exact switchParser_sound h hc
    | escreva =>
      simp only [advance_bind] at hc
      obtain ⟨e, c₁, he, hc⟩ := bind_eq_ok_iff.mp hc
      obtain ⟨rfl, rfl⟩ := pure_eq_ok_iff.mp hc
      obtain ⟨ts, hts, f, hf, ha, rfl⟩ := Expr.parser_sound ctx he
      exact ⟨_, .printInt f, hk.cons hts, .printInt hf, fun s => ⟨⟨⟨trivial, nofun⟩, ha⟩, rfl⟩⟩
    | exiba =>
      simp only [advance_bind] at hc
      obtain ⟨⟨x, s₁⟩, c₁, hx, hc⟩ := bind_eq_ok_iff.mp hc
      obtain ⟨rfl, rfl⟩ := pure_eq_ok_iff.mp hc
      exact ⟨_, .printText x, hk.cons (textLiteral_eq_ok_iff.mp hx), .printText,
        fun s => ⟨⟨⟨trivial, nofun⟩, trivial⟩, rfl⟩⟩
    | _ => exact absurd hc unexpected_ne_ok
  | _ => exact absurd hc unexpected_ne_ok

theorem wholeSpan_eq {ts : List (Token Name)} (hts : c.Passes ts c') (hne : ts ≠ []) :
    wholeSpan ts = c.current.span.merge c'.lastSpan := by
  obtain ⟨t, us, rfl⟩ := List.exists_cons_of_ne_nil hne
  rw [wholeSpan, hts.current_eq, hts.lastSpan_eq hne]
  rfl

theorem parserUpTo_sound (bound : List (Token Name)) : SoundNested ctx (parserUpTo ctx bound) := by
  induction bound with
  | nil => exact fun c a c' hc => absurd hc unexpected_ne_ok
  | cons t bound ih =>
    intro c a c' hc
    simp only [parserUpTo, current_bind] at hc
    obtain ⟨shape, c₁, hshape, hc⟩ := bind_eq_ok_iff.mp hc
    rw [spanFrom_bind] at hc
    obtain ⟨rfl, rfl⟩ := pure_eq_ok_iff.mp hc
    obtain ⟨ts, form, hts, hform, hfits⟩ := shapeParser_sound ih hshape
    refine ⟨ts, form (wholeSpan ts), hts, .intro hform, (hfits _).1, ?_⟩
    rw [(hfits _).2, wholeSpan_eq hts hform.ne_nil]

/-- What the command parser has read is a command that fits what follows, and the result its
tree. -/
theorem parser_sound (ctx : Context) : SoundNested ctx (parser ctx) :=
  fun c _ _ hc => parserUpTo_sound c.ahead hc

/-! ## Answers -/

/-- Nested commands of at most `n` tokens are read to their end or to their first offence. -/
def AnswersNested (ctx : Context) (nested : Parser Command) (n : Nat) : Prop :=
  ∀ ⦃c ts f c'⦄, c.Passes ts c' → ts.length ≤ n → Derives ts f → f.Attached c'.current.kind →
    ExprLevel.sum.Stops c'.current.kind →
      Reports (f.offence ctx) (nested c) (f.tree ctx.declared, c')

variable {n : Nat} {ts us vs ws : List (Token Name)} {s s₀ s₁ s₂ s₃ s₄ s₅ : Span}

theorem AnswersNested.answers (h : AnswersNested ctx nested n) :
    Answers nested (Within n (Denotes Derives Nearest id)) (offence ctx) (tree ctx.declared)
      (fun kind => ExprLevel.sum.Stops kind ∧ ¬IsElse kind) := by
  rintro c ts _ c' hts ⟨hn, f, hf, hnear, rfl⟩ ⟨hs, helse⟩
  exact h hts hn hf ⟨hnear, fun _ => helse⟩ hs

/-- An expression in front of a keyword. -/
theorem exprParser_reports {e : ExprForm} {k : Keyword} {c₁ : Cursor}
    (he : ExprForm.Derives .sum ts e) (hts : c.Passes ts c₁)
    (hk : c₁.Passes (keywordAt k s :: us) c') :
    Reports (e.offence ctx) (Expr.parser ctx c) (e.tree ctx.declared, c₁) := by
  refine Expr.parser_answers ctx hts he ?_
  rw [hk.current_eq]
  exact Expr.stops_keyword k

/-- A predicate in front of a keyword that is no connective. -/
theorem predParser_reports {p : PredForm} {k : Keyword} {c₁ : Cursor}
    (hp : PredForm.Derives .or ts p) (hts : c.Passes ts c₁)
    (hk : c₁.Passes (keywordAt k s :: us) c')
    (hne : k ∉ PredLevel.or.continuing.map LogicOp.keyword) :
    Reports (p.offence ctx) (Pred.parser ctx c) (p.tree ctx.declared, c₁) := by
  refine Pred.parser_answers ctx hts hp ?_
  rw [hk.current_eq]
  exact Pred.stops_keyword hne

theorem assignParser_reports {x : Name} {e : ExprForm} (he : ExprForm.Derives .sum ts e)
    (hts : c.Passes (identifierAt x s :: symbolAt .assign s₁ :: ts) c')
    (hs : ExprLevel.sum.Stops c'.current.kind) :
    Reports (e.offence ctx) (assignParser ctx c) (.assign x (e.tree ctx.declared), c') := by
  obtain ⟨c₁, h₁, hts⟩ := Cursor.passes_cons_iff.mp hts
  obtain ⟨c₂, h₂, hts⟩ := Cursor.passes_cons_iff.mp hts
  refine Reports.ok_bind (identifier_eq_ok_iff.mpr h₁) ?_
  refine Reports.ok_bind (symbol_eq_ok_iff.mpr h₂) ?_
  exact (Expr.parser_answers ctx hts he hs).bind_ok rfl

theorem blockParser_reports (h : AnswersNested ctx nested n) {body : List CommandForm}
    (hbody : SepBy (.symbol .semicolon) Derives ts body) (hn : ts.length ≤ n)
    (hts : c.Passes (symbolAt .openBrace s :: (ts ++ [symbolAt .closeBrace s₁])) c')
    (hnear : ∀ f ∈ body, f.Nearest) :
    Reports (offences ctx body) (blockParser nested c) (.block (trees ctx.declared body), c') := by
  obtain ⟨c₁, h₁, hts⟩ := Cursor.passes_cons_iff.mp hts
  obtain ⟨c₂, hts, h₂⟩ := Cursor.passes_append_iff.mp hts
  have hsemi : ExprLevel.sum.Stops (.symbol .semicolon) ∧ ¬IsElse (.symbol .semicolon) := by
    simp [ExprLevel.Stops, ExprLevel.continuing, IsElse]
  have hclose : (ExprLevel.sum.Stops c₂.current.kind ∧ ¬IsElse c₂.current.kind) ∧
      c₂.current.kind ≠ .symbol .semicolon := by
    simp [h₂.current_eq, ExprLevel.Stops, ExprLevel.continuing, IsElse]
  have hforms : SepBy (.symbol .semicolon) (Denotes Derives Nearest id) ts body :=
    sepBy_denotes_iff.mpr ⟨body, hbody, hnear, List.map_id _⟩
  rw [offences_eq_findSome?, trees_eq_map]
  refine Reports.ok_bind (symbol_eq_ok_iff.mpr h₁) ?_
  refine (Answers.sepBy hsemi h.answers hts (hforms.within hn) hclose).bind_ok ?_
  exact bind_eq_ok_iff.mpr ⟨_, _, symbolAs_eq_ok_iff.mpr h₂, rfl⟩

theorem branchParser_reports (h : AnswersNested ctx nested n) {b : PredForm × CommandForm}
    (hb : Branch ts b) (hn : ts.length ≤ n) (hts : c.Passes ts c')
    (hatt : b.2.Attached c'.current.kind) (hs : ExprLevel.sum.Stops c'.current.kind) :
    Reports ((b.1.offence ctx).or (b.2.offence ctx)) (branchParser ctx nested c)
      ((b.1.tree ctx.declared, b.2.tree ctx.declared), c') := by
  cases hb with
  | @intro s ts us test body htest hbody =>
    obtain ⟨c₁, hts, hrest⟩ := Cursor.passes_append_iff.mp hts
    obtain ⟨c₂, h₂, hus⟩ := Cursor.passes_cons_iff.mp hrest
    rw [List.length_append, List.length_cons] at hn
    refine (predParser_reports htest hts hrest (by decide)).bind ?_
    refine Reports.ok_bind (keyword_eq_ok_iff.mpr h₂) ?_
    exact (h hus (by omega) hbody hatt hs).bind_ok rfl

section
variable {others : List (Unit × (PredForm × CommandForm))}

/-- The command in front of the branches after the first fits what follows it. -/
theorem branches_start {first : CommandForm}
    (hmany : Many (just (.keyword .senaose)) Branch us others) (hus : c.Passes us c')
    (hclosed : ClosedUpTo (first :: (others.map Prod.snd).map Prod.snd) c'.current.kind)
    (hs : ExprLevel.sum.Stops c'.current.kind) :
    (first.isOpen = true → ¬IsElse c.current.kind) ∧ ExprLevel.sum.Stops c.current.kind := by
  cases hmany with
  | nil =>
    obtain rfl := Cursor.passes_nil_iff.mp hus
    exact ⟨closedUpTo_singleton.mp hclosed, hs⟩
  | cons hmark _ _ =>
    have hk : c.current.kind = .keyword .senaose := by rw [hus.current_eq]; exact hmark
    refine ⟨fun ho => absurd ho ?_, hk ▸ Expr.stops_keyword _⟩
    simp [(closedUpTo_cons_cons.mp hclosed).1]

theorem branches_report (h : AnswersNested ctx nested n)
    (hmany : Many (just (.keyword .senaose)) Branch us others) (hn : us.length ≤ n)
    (hus : c.Passes us c') (hnear : NearestBranches (others.map Prod.snd))
    (hclosed : ClosedUpTo ((others.map Prod.snd).map Prod.snd) c'.current.kind)
    (hnone : c'.current.kind ≠ .keyword .senaose) (hs : ExprLevel.sum.Stops c'.current.kind) :
    Reports (branchOffences ctx (others.map Prod.snd))
      (many (on (.keyword .senaose)) (fun _ => branchParser ctx nested) c)
      (branchTrees ctx.declared (others.map Prod.snd), c') := by
  refine Repeats.many ?_
    (by simpa [branchTrees_eq_map] using Nat.le_trans hmany.length_le hus.length_le)
  induction hmany generalizing c with
  | nil =>
    obtain rfl := Cursor.passes_nil_iff.mp hus
    refine .stop ?_
    rw [Option.eq_none_iff_forall_ne_some]
    exact fun u hu => hnone (on_keyword_eq_some_iff.mp hu)
  | @cons t b ts us x rest hmark hbranch hrest ih =>
    obtain ⟨c₁, ht, htail⟩ := Cursor.passes_cons_iff.mp hus
    obtain ⟨c₂, hts, hus₂⟩ := Cursor.passes_append_iff.mp htail
    obtain ⟨rfl, -, rfl⟩ := Cursor.passes_one_iff.mp ht
    rw [List.length_cons, List.length_append] at hn
    obtain ⟨hopen, hs₂⟩ := branches_start hrest hus₂ hclosed hs
    have hb := branchParser_reports h hbranch (by omega) hts ⟨hnear.1, hopen⟩ hs₂
    exact .step (on_keyword_eq_some_iff.mpr hmark) hb (ih (by omega) hus₂ hnear.2 hclosed.tail)

theorem condParser_reports (h : AnswersNested ctx nested n) {test : PredForm}
    {body last : CommandForm} (hbranch : Branch ts (test, body))
    (hmany : Many (just (.keyword .senaose)) Branch us others)
    (hlast : Derives vs last) (hn : ts.length + us.length + vs.length ≤ n)
    (hts : c.Passes (keywordAt .se s :: (ts ++ (us ++ keywordAt .senao s₁ :: vs))) c')
    (hatt : (CommandForm.cond test body (others.map Prod.snd) last s₀).Attached c'.current.kind)
    (hs : ExprLevel.sum.Stops c'.current.kind) :
    Reports ((CommandForm.cond test body (others.map Prod.snd) last s₀).offence ctx)
      (condParser ctx nested c) (.cond (test.tree ctx.declared) (body.tree ctx.declared)
        (branchTrees ctx.declared (others.map Prod.snd)) (last.tree ctx.declared), c') := by
  obtain ⟨⟨hbn, hon, hln, hclosed⟩, hopen⟩ := hatt
  obtain ⟨c₁, h₁, hrest⟩ := Cursor.passes_cons_iff.mp hts
  obtain ⟨c₂, hts, hrest⟩ := Cursor.passes_append_iff.mp hrest
  obtain ⟨c₃, hus, hrest⟩ := Cursor.passes_append_iff.mp hrest
  obtain ⟨c₄, h₄, hvs⟩ := Cursor.passes_cons_iff.mp hrest
  obtain ⟨hc₃, -, rfl⟩ := Cursor.passes_one_iff.mp h₄
  have hs₃ : ExprLevel.sum.Stops c₃.current.kind := by
    rw [hc₃]
    exact Expr.stops_keyword _
  have hall : ClosedUpTo (body :: (others.map Prod.snd).map Prod.snd) c₃.current.kind :=
    ⟨fun f hf => hclosed f (List.dropLast_subset _ hf), fun f hf ho => by
      rw [hclosed f (List.mem_of_mem_getLast? hf)] at ho
      cases ho⟩
  obtain ⟨hopen₂, hs₂⟩ := branches_start hmany hus hall hs₃
  have hb := branchParser_reports h hbranch (by omega) hts ⟨hbn, hopen₂⟩ hs₂
  have hxs := branches_report h hmany (by omega) hus hon hall.tail (by simp [hc₃]) hs₃
  rw [CommandForm.offence, ← Option.or_assoc]
  refine Reports.ok_bind (keyword_eq_ok_iff.mpr h₁) (hb.bind (hxs.bind ?_))
  rw [eat_bind, if_pos (by rw [hc₃]; rfl)]
  exact (h hvs (by omega) hlast ⟨hln, hopen⟩ hs).bind_ok rfl

theorem condParser_reports_open (h : AnswersNested ctx nested n) {test : PredForm}
    {body : CommandForm} {gap : Span} (hbranch : Branch ts (test, body))
    (hmany : Many (just (.keyword .senaose)) Branch us others)
    (hn : ts.length + us.length ≤ n) (hts : c.Passes (keywordAt .se s :: (ts ++ us)) c')
    (hatt : (CommandForm.condOnly test body (others.map Prod.snd) gap s₀).Attached c'.current.kind)
    (hs : ExprLevel.sum.Stops c'.current.kind) :
    Reports ((CommandForm.condOnly test body (others.map Prod.snd) gap s₀).offence ctx)
      (condParser ctx nested c) (.cond (test.tree ctx.declared) (body.tree ctx.declared)
        (branchTrees ctx.declared (others.map Prod.snd)) (.skip (gapAfter (ts ++ us))), c') := by
  obtain ⟨⟨hbn, hon, hclosed⟩, hopen⟩ := hatt
  have helse : ¬IsElse c'.current.kind := hopen rfl
  obtain ⟨c₁, h₁, hrest⟩ := Cursor.passes_cons_iff.mp hts
  obtain ⟨c₂, hts, hus⟩ := Cursor.passes_append_iff.mp hrest
  have hgap : c'.lastSpan = Grammar.lastSpan (ts ++ us) :=
    hrest.lastSpan_eq (by simp [hbranch.ne_nil])
  have hall : ClosedUpTo (body :: (others.map Prod.snd).map Prod.snd) c'.current.kind :=
    ⟨hclosed, fun _ _ _ => helse⟩
  obtain ⟨hopen₂, hs₂⟩ := branches_start hmany hus hall hs
  have hb := branchParser_reports h hbranch (by omega) hts ⟨hbn, hopen₂⟩ hs₂
  have hxs := branches_report h hmany (by omega) hus hon hall.tail (fun hk => helse (.inl hk)) hs
  have hsenao : c'.current.toClass ≠ .keyword .senao :=
    fun hk => helse (.inr (TokenKind.toClass_eq_keyword_iff.mp hk))
  rw [CommandForm.offence, ← Option.or_assoc]
  refine Reports.ok_bind (keyword_eq_ok_iff.mpr h₁) (hb.bind (hxs.bind_ok ?_))
  rw [eat_bind, if_neg hsenao, gapAfter, ← hgap]
  rfl

end

theorem loopParser_reports (h : AnswersNested ctx nested n) {test : PredForm}
    {body : CommandForm} (htest : PredForm.Derives .or ts test) (hbody : Derives us body)
    (hn : us.length ≤ n)
    (hts : c.Passes (keywordAt .enquanto s :: (ts ++ keywordAt .faca s₁ :: us)) c')
    (hatt : body.Attached c'.current.kind) (hs : ExprLevel.sum.Stops c'.current.kind) :
    Reports ((test.offence ctx).or (body.offence ctx)) (loopParser ctx nested c)
      (.loop (test.tree ctx.declared) (body.tree ctx.declared), c') := by
  obtain ⟨c₁, h₁, hrest⟩ := Cursor.passes_cons_iff.mp hts
  obtain ⟨c₂, hts, hrest⟩ := Cursor.passes_append_iff.mp hrest
  obtain ⟨c₃, h₃, hus⟩ := Cursor.passes_cons_iff.mp hrest
  refine Reports.ok_bind (keyword_eq_ok_iff.mpr h₁) ?_
  refine (predParser_reports htest hts hrest (by decide)).bind ?_
  refine Reports.ok_bind (keyword_eq_ok_iff.mpr h₃) ?_
  exact (h hus hn hbody hatt hs).bind_ok rfl

theorem countParser_reports (h : AnswersNested ctx nested n) {x : Name}
    {start stop step : ExprForm} {body : CommandForm} (hstart : ExprForm.Derives .sum ts start)
    (hstop : ExprForm.Derives .sum us stop) (hstep : ExprForm.Derives .sum vs step)
    (hbody : Derives ws body) (hn : ws.length ≤ n)
    (hts : c.Passes (keywordAt .para s :: identifierAt x s₁ :: keywordAt .de s₂ ::
      (ts ++ keywordAt .ate s₃ :: (us ++ keywordAt .passo s₄ ::
        (vs ++ keywordAt .faca s₅ :: ws)))) c')
    (hatt : body.Attached c'.current.kind) (hs : ExprLevel.sum.Stops c'.current.kind) :
    Reports ((CommandForm.count x start stop step body s₀).offence ctx) (countParser ctx nested c)
      (.count x (start.tree ctx.declared) (stop.tree ctx.declared) (step.tree ctx.declared)
        (body.tree ctx.declared), c') := by
  obtain ⟨c₁, h₁, hrest⟩ := Cursor.passes_cons_iff.mp hts
  obtain ⟨c₂, h₂, hrest⟩ := Cursor.passes_cons_iff.mp hrest
  obtain ⟨c₃, h₃, hrest⟩ := Cursor.passes_cons_iff.mp hrest
  obtain ⟨c₄, hts, hrest₄⟩ := Cursor.passes_append_iff.mp hrest
  obtain ⟨c₅, h₅, hrest⟩ := Cursor.passes_cons_iff.mp hrest₄
  obtain ⟨c₆, hus, hrest₆⟩ := Cursor.passes_append_iff.mp hrest
  obtain ⟨c₇, h₇, hrest⟩ := Cursor.passes_cons_iff.mp hrest₆
  obtain ⟨c₈, hvs, hrest₈⟩ := Cursor.passes_append_iff.mp hrest
  obtain ⟨c₉, h₉, hws⟩ := Cursor.passes_cons_iff.mp hrest₈
  obtain ⟨hc₆, -, rfl⟩ := Cursor.passes_one_iff.mp h₇
  refine Reports.ok_bind (keyword_eq_ok_iff.mpr h₁) ?_
  refine Reports.ok_bind (identifier_eq_ok_iff.mpr h₂) ?_
  refine Reports.ok_bind (keyword_eq_ok_iff.mpr h₃) ?_
  refine (exprParser_reports hstart hts hrest₄).bind ?_
  refine Reports.ok_bind (keyword_eq_ok_iff.mpr h₅) ?_
  refine (exprParser_reports hstop hus hrest₆).bind ?_
  rw [eat_bind, if_pos (by rw [hc₆]; rfl)]
  refine (exprParser_reports hstep hvs hrest₈).bind ?_
  refine Reports.ok_bind (keyword_eq_ok_iff.mpr h₉) ?_
  exact (h hws hn hbody hatt hs).bind_ok rfl

theorem countParser_reports_ones (h : AnswersNested ctx nested n) {x : Name}
    {start stop : ExprForm} {body : CommandForm} {gap : Span}
    (hstart : ExprForm.Derives .sum ts start) (hstop : ExprForm.Derives .sum us stop)
    (hbody : Derives ws body) (hn : ws.length ≤ n)
    (hts : c.Passes (keywordAt .para s :: identifierAt x s₁ :: keywordAt .de s₂ ::
      (ts ++ keywordAt .ate s₃ :: (us ++ keywordAt .faca s₄ :: ws))) c')
    (hatt : body.Attached c'.current.kind) (hs : ExprLevel.sum.Stops c'.current.kind) :
    Reports ((CommandForm.countOnes x start stop gap body s₀).offence ctx)
      (countParser ctx nested c) (.count x (start.tree ctx.declared) (stop.tree ctx.declared)
        (.int 1 (gapAfter us)) (body.tree ctx.declared), c') := by
  obtain ⟨c₁, h₁, hrest⟩ := Cursor.passes_cons_iff.mp hts
  obtain ⟨c₂, h₂, hrest⟩ := Cursor.passes_cons_iff.mp hrest
  obtain ⟨c₃, h₃, hrest⟩ := Cursor.passes_cons_iff.mp hrest
  obtain ⟨c₄, hts, hrest₄⟩ := Cursor.passes_append_iff.mp hrest
  obtain ⟨c₅, h₅, hrest⟩ := Cursor.passes_cons_iff.mp hrest₄
  obtain ⟨c₆, hus, hrest₆⟩ := Cursor.passes_append_iff.mp hrest
  obtain ⟨c₇, h₇, hws⟩ := Cursor.passes_cons_iff.mp hrest₆
  have hgap : c₆.lastSpan = Grammar.lastSpan us := by
    obtain ⟨t, us, rfl, -⟩ := hstop.starts
    exact hus.lastSpan_eq (by simp)
  have hpasso : c₆.current.toClass ≠ .keyword .passo := by
    simp [hrest₆.current_eq, Token.toClass, TokenKind.toClass]
  refine Reports.ok_bind (keyword_eq_ok_iff.mpr h₁) ?_
  refine Reports.ok_bind (identifier_eq_ok_iff.mpr h₂) ?_
  refine Reports.ok_bind (keyword_eq_ok_iff.mpr h₃) ?_
  refine (exprParser_reports hstart hts hrest₄).bind ?_
  refine Reports.ok_bind (keyword_eq_ok_iff.mpr h₅) ?_
  refine (exprParser_reports hstop hus hrest₆).bind ?_
  rw [eat_bind, if_neg hpasso, gapAfter, ← hgap]
  refine Reports.ok_bind (map_eq_ok_iff.mpr ⟨_, rfl, rfl⟩) ?_
  refine Reports.ok_bind (keyword_eq_ok_iff.mpr h₇) ?_
  exact (h hws hn hbody hatt hs).bind_ok rfl

theorem caseParser_answers {stop : TokenKind Name → Prop}
    (h : Answers nested (Within n (Denotes Derives Nearest id)) (offence ctx) (tree ctx.declared)
      stop) :
    Answers (caseParser nested) (Within n (Denotes Case (·.2.Nearest) id))
      (fun x => x.1.offence.or (x.2.offence ctx)) (fun x => (x.1.value, x.2.tree ctx.declared))
      stop := by
  rintro c ts _ c' hts ⟨hn, ⟨label, f⟩, ⟨hl, hf⟩, hnear, rfl⟩ hs
  obtain ⟨c₁, hlabel, hrest⟩ := Cursor.passes_append_iff.mp hts
  obtain ⟨c₂, hcolon, hus⟩ := Cursor.passes_cons_iff.mp hrest
  rw [List.length_append, List.length_cons] at hn
  rw [caseParser_eq hl hlabel]
  refine (literal_reports label).bind ?_
  refine Reports.ok_bind (symbol_eq_ok_iff.mpr hcolon) ?_
  exact (h hus ⟨by omega, f, hf, hnear, rfl⟩ hs).bind_ok rfl

theorem switchParser_reports (h : AnswersNested ctx nested n) {selector : ExprForm}
    {cases : List (Unit × (CaseLabel × CommandForm))} {default : CommandForm}
    (hsel : ExprForm.Derives .sum ts selector)
    (hcases : Many (just (.keyword .caso)) Case us cases) (hdefault : Derives vs default)
    (hn : us.length + vs.length ≤ n)
    (hts : c.Passes (keywordAt .escolha s :: (ts ++ (us ++ keywordAt .outro s₁ ::
      symbolAt .colon s₂ :: vs))) c')
    (hatt : (CommandForm.switch selector (cases.map Prod.snd) default s₀).Attached c'.current.kind)
    (hs : ExprLevel.sum.Stops c'.current.kind) :
    Reports ((CommandForm.switch selector (cases.map Prod.snd) default s₀).offence ctx)
      (switchParser ctx nested c) (.switch (selector.tree ctx.declared)
        (caseTrees ctx.declared (cases.map Prod.snd)) (default.tree ctx.declared), c') := by
  obtain ⟨⟨hcn, hdn⟩, hopen⟩ := hatt
  obtain ⟨c₁, h₁, hrest⟩ := Cursor.passes_cons_iff.mp hts
  obtain ⟨c₂, hts, hrest₂⟩ := Cursor.passes_append_iff.mp hrest
  obtain ⟨c₃, hus, hrest₃⟩ := Cursor.passes_append_iff.mp hrest₂
  obtain ⟨c₄, h₄, hrest⟩ := Cursor.passes_cons_iff.mp hrest₃
  obtain ⟨c₅, h₅, hvs⟩ := Cursor.passes_cons_iff.mp hrest
  -- The selector ends where the first case begins, or the default.
  have hs₂ : ExprLevel.sum.Stops c₂.current.kind := by
    rcases hcases.kind_or_eq hus with ⟨_, hk⟩ | rfl
    · exact hk ▸ Expr.stops_keyword _
    · rw [hrest₃.current_eq]
      exact Expr.stops_keyword _
  have hforms : Many (just (.keyword .caso)) (Denotes Case (·.2.Nearest) id) us cases :=
    many_denotes_iff.mpr ⟨cases, hcases,
      fun x hx => nearestCases_iff.mp hcn _ (List.mem_map_of_mem hx), List.map_id _⟩
  have hcaso : ExprLevel.sum.Stops (.keyword .caso) ∧ ¬IsElse (.keyword .caso) :=
    ⟨Expr.stops_keyword _, by simp [IsElse]⟩
  have houtro : (ExprLevel.sum.Stops c₃.current.kind ∧ ¬IsElse c₃.current.kind) ∧
      c₃.current.kind ≠ .keyword .caso := by
    rw [hrest₃.current_eq]
    exact ⟨⟨Expr.stops_keyword _, by simp [IsElse]⟩, by simp⟩
  have hxs := Answers.marked hcaso (caseParser_answers h.answers) hus
    (hforms.within (n := n) (by omega)) houtro
  rw [CommandForm.offence, caseOffences_eq_findSome?, List.findSome?_map, caseTrees_eq_map,
    List.map_map]
  refine Reports.ok_bind (keyword_eq_ok_iff.mpr h₁) ?_
  refine (Expr.parser_answers ctx hts hsel hs₂).bind ?_
  refine hxs.bind ?_
  refine Reports.ok_bind (keywordAs_eq_ok_iff.mpr h₄) ?_
  refine Reports.ok_bind (symbol_eq_ok_iff.mpr h₅) ?_
  exact (h hvs (by omega) hdefault ⟨hdn, hopen⟩ hs).bind_ok rfl

theorem shapeParser_reports (h : AnswersNested ctx nested n) {form : Span → CommandForm}
    (hform : Shape ts form) (hn : ts.length ≤ n + 1) (hts : c.Passes ts c')
    (hatt : (form s₀).Attached c'.current.kind) (hs : ExprLevel.sum.Stops c'.current.kind) :
    Reports ((form s₀).offence ctx) (shapeParser ctx nested c)
      (fun s => (form s).tree ctx.declared, c') := by
  rw [shapeParser, current_bind]
  cases hform with
  | assign he =>
    rw [hts.current_eq]
    exact assignParser_reports he hts hs
  | skip =>
    obtain ⟨hc, -, rfl⟩ := Cursor.passes_one_iff.mp hts
    rw [hc]
    rfl
  | cond hbranch hmany hlast =>
    rw [hts.current_eq]
    simp only [List.length_cons, List.length_append] at hn
    exact condParser_reports h hbranch hmany hlast (by omega) hts hatt hs
  | condOnly hbranch hmany =>
    rw [hts.current_eq]
    simp only [List.length_cons, List.length_append] at hn
    exact condParser_reports_open h hbranch hmany (by omega) hts hatt hs
  | loop htest hbody =>
    rw [hts.current_eq]
    simp only [List.length_cons, List.length_append] at hn
    exact loopParser_reports h htest hbody (by omega) hts ⟨hatt.nearest, hatt.closed⟩ hs
  | count hstart hstop hstep hbody =>
    rw [hts.current_eq]
    simp only [List.length_cons, List.length_append] at hn
    exact countParser_reports h hstart hstop hstep hbody (by omega) hts
      ⟨hatt.nearest, hatt.closed⟩ hs
  | countOnes hstart hstop hbody =>
    rw [hts.current_eq]
    simp only [List.length_cons, List.length_append] at hn
    exact countParser_reports_ones h hstart hstop hbody (by omega) hts
      ⟨hatt.nearest, hatt.closed⟩ hs
  | switch hsel hcases hdefault =>
    rw [hts.current_eq]
    simp only [List.length_cons, List.length_append] at hn
    exact switchParser_reports h hsel hcases hdefault (by omega) hts hatt hs
  | @printInt s ts e he =>
    obtain ⟨c₁, h₁, hts⟩ := Cursor.passes_cons_iff.mp hts
    obtain ⟨hc, -, rfl⟩ := Cursor.passes_one_iff.mp h₁
    simp only [hc, advance_bind]
    exact (Expr.parser_answers ctx hts he hs).bind_ok rfl
  | printText =>
    obtain ⟨c₁, h₁, htext⟩ := Cursor.passes_cons_iff.mp hts
    obtain ⟨hc, -, rfl⟩ := Cursor.passes_one_iff.mp h₁
    simp only [hc, advance_bind]
    exact bind_eq_ok_iff.mpr ⟨_, _, textLiteral_eq_ok_iff.mpr htext, rfl⟩
  | block hbody =>
    rw [hts.current_eq]
    simp only [List.length_cons, List.length_append] at hn
    exact blockParser_reports h hbody (by omega) hts (nearestAll_iff.mp hatt.nearest)

theorem parserUpTo_answers (bound : List (Token Name)) :
    AnswersNested ctx (parserUpTo ctx bound) bound.length := by
  induction bound with
  | nil =>
    intro c ts f c' _ hn hf _ _
    exact absurd (List.eq_nil_of_length_eq_zero (Nat.le_zero.mp hn)) hf.ne_nil
  | cons t bound ih =>
    rintro c ts _ c' hts hn ⟨hform⟩ hatt hs
    rw [parserUpTo, current_bind]
    refine (shapeParser_reports ih hform hn hts hatt hs).bind_ok ?_
    rw [spanFrom_bind, wholeSpan_eq hts hform.ne_nil]
    rfl

/-- A command is read to its end or to its first offence, if it is attached to what follows and the
token behind it does not go on with an expression. -/
theorem parser_reports (ctx : Context) {f : CommandForm} (hts : c.Passes ts c') (hf : Derives ts f)
    (hatt : f.Attached c'.current.kind) (hs : ExprLevel.sum.Stops c'.current.kind) :
    Reports (f.offence ctx) (parser ctx c) (f.tree ctx.declared, c') :=
  parserUpTo_answers c.ahead hts hts.length_le hf hatt hs

end Command

end Enquanto

import Enquanto.Program.Parser
import Enquanto.Proofs.NearestElse

/-!
# The program parser and the grammar

`Program.parse` accepts exactly the token lists that are programs and satisfy the rules, and gives
their trees; of the other programs it reports the first offence.

* `Program.instructions_sound` and `Program.instructions_report` follow the declarations from one
  instruction to the next;
* `Program.parse_reports`: the result for a program is its tree, or a report of its first offence;
* `Program.parse_eq_ok_iff`: the result is the tree of the form in which every `senaose` and `senao`
  belongs to the nearest open conditional;
* `Program.parse_isOk_iff`: there is a result for every derivation that satisfies the rules.
-/

namespace Enquanto

open Grammar Enquanto.Parser

namespace Program

variable {ctx : Context} {c c' : Cursor} {ts us : List (Token Name)}

/-! ## Headers -/

theorem identifier_sound : Sound (Prod.fst <$> identifier) Identifier := by
  intro c x c' hc
  obtain ⟨⟨x, s⟩, hx, rfl⟩ := map_eq_ok_iff.mp hc
  exact ⟨_, identifier_eq_ok_iff.mp hx, .intro⟩

theorem identifier_answers :
    Answers (Prod.fst <$> identifier) Identifier (fun _ => none) id (fun _ => True) := by
  rintro c _ _ c' hts ⟨⟩ -
  exact map_eq_ok_iff.mpr ⟨_, identifier_eq_ok_iff.mpr hts, rfl⟩

theorem headerParser_eq_ok_iff {x : Name} {params : List Name} {s : Span} :
    headerParser c = .ok ((x, params, s), c') ↔ ∃ ts s₀ s₁ s₂ s₃ s₄,
      c.Passes (keywordAt .definition s₀ :: identifierAt x s₁ :: symbolAt .openParen s₂ ::
        (ts ++ [symbolAt .closeParen s₃, symbolAt .equal s₄])) c' ∧
      Listed Identifier ts params ∧ s = s₀.merge s₄ := by
  constructor
  · intro hc
    obtain ⟨s₀, c₁, h₁, hc⟩ := bind_eq_ok_iff.mp hc
    obtain ⟨⟨x', s₁⟩, c₂, h₂, hc⟩ := bind_eq_ok_iff.mp hc
    obtain ⟨s₂, c₃, h₃, hc⟩ := bind_eq_ok_iff.mp hc
    rw [check_bind, bind_ite] at hc
    obtain ⟨params', c₄, h₄, hc⟩ := bind_eq_ok_iff.mp hc
    obtain ⟨s₃, c₅, h₅, hc⟩ := bind_eq_ok_iff.mp hc
    obtain ⟨s₄, c₆, h₆, hc⟩ := bind_eq_ok_iff.mp hc
    rw [spanFrom_bind] at hc
    have h₆ := symbol_eq_ok_iff.mp h₆
    obtain ⟨ts, hts, hl⟩ := Sound.listed identifier_sound h₄
    obtain ⟨heq, rfl⟩ := pure_eq_ok_iff.mp hc
    cases heq
    refine ⟨ts, s₀, s₁, s₂, s₃, s₄, ?_, hl, by rw [h₆.lastSpan_eq (by simp)]; rfl⟩
    exact (keyword_eq_ok_iff.mp h₁).cons ((identifier_eq_ok_iff.mp h₂).cons
      ((symbol_eq_ok_iff.mp h₃).cons (hts.append ((symbol_eq_ok_iff.mp h₅).cons h₆))))
  · rintro ⟨ts, s₀, s₁, s₂, s₃, s₄, hts, hl, rfl⟩
    obtain ⟨c₁, h₁, hrest⟩ := Cursor.passes_cons_iff.mp hts
    obtain ⟨c₂, h₂, hrest⟩ := Cursor.passes_cons_iff.mp hrest
    obtain ⟨c₃, h₃, hrest⟩ := Cursor.passes_cons_iff.mp hrest
    obtain ⟨c₄, hparams, hrest₄⟩ := Cursor.passes_append_iff.mp hrest
    obtain ⟨c₅, h₅, h₆⟩ := Cursor.passes_cons_iff.mp hrest₄
    have h₄ := Answers.listed trivial trivial ?_ ?_ identifier_answers hparams hl
      (by rw [hrest₄.current_eq])
    · rw [List.findSome?_eq_none_iff.mpr (by simp), List.map_id] at h₄
      refine bind_eq_ok_iff.mpr ⟨_, _, keyword_eq_ok_iff.mpr h₁, ?_⟩
      refine bind_eq_ok_iff.mpr ⟨_, _, identifier_eq_ok_iff.mpr h₂, ?_⟩
      refine bind_eq_ok_iff.mpr ⟨_, _, symbol_eq_ok_iff.mpr h₃, ?_⟩
      rw [check_bind, bind_ite]
      refine bind_eq_ok_iff.mpr ⟨_, _, h₄, ?_⟩
      refine bind_eq_ok_iff.mpr ⟨_, _, symbol_eq_ok_iff.mpr h₅, ?_⟩
      refine bind_eq_ok_iff.mpr ⟨_, _, symbol_eq_ok_iff.mpr h₆, ?_⟩
      rw [spanFrom_bind, h₆.lastSpan_eq (by simp)]
      rfl
    · rintro t us a ⟨⟩
      simp
    · rintro a ⟨⟩

/-! ## Instructions -/

theorem instructionParser_sound {i : Instruction} {ctx' : Context}
    (hc : instructionParser ctx c = .ok ((i, ctx'), c')) : ∃ ts form, c.Passes ts c' ∧
      InstructionForm.Derives ts form ∧ form.Admissible ctx.declared ∧ form.Nearest ∧
      form.tree ctx.declared = i ∧ ctx' = form.after ctx := by
  rw [instructionParser, check_bind] at hc
  split at hc
  · obtain ⟨⟨x, params, s⟩, c₁, h₁, hc⟩ := bind_eq_ok_iff.mp hc
    obtain ⟨e, c₂, he, hc⟩ := bind_eq_ok_iff.mp hc
    obtain ⟨heq, rfl⟩ := pure_eq_ok_iff.mp hc
    cases heq
    obtain ⟨ts, s₀, s₁, s₂, s₃, s₄, hts, hl, rfl⟩ := headerParser_eq_ok_iff.mp h₁
    obtain ⟨us, hus, f, hf, ha, rfl⟩ := Expr.parser_sound _ he
    refine ⟨_, .declare x params f (s₀.merge s₄), hts.append hus, ?_, ha, trivial, rfl, rfl⟩
    simp only [List.cons_append, List.append_assoc, List.nil_append]
    exact .declare hl hf
  · obtain ⟨a, c₁, ha, hc⟩ := bind_eq_ok_iff.mp hc
    obtain ⟨heq, rfl⟩ := pure_eq_ok_iff.mp hc
    cases heq
    obtain ⟨ts, f, hts, hf, hfits, rfl⟩ := Command.parser_sound ctx ha
    exact ⟨ts, .command f, hts, .command hf, hfits.admissible, hfits.nearest, rfl, rfl⟩

/-- What may follow an instruction. -/
def Ends (kind : TokenKind Name) : Prop := kind = .symbol .semicolon ∨ kind = .endOfFile

theorem stops_of_ends {kind : TokenKind Name} (h : Ends kind) : ExprLevel.sum.Stops kind := by
  rcases h with rfl | rfl <;> simp [ExprLevel.Stops, ExprLevel.continuing]

theorem instructionParser_reports {form : InstructionForm} (hd : InstructionForm.Derives ts form)
    (hts : c.Passes ts c') (hnear : form.Nearest) (hend : Ends c'.current.kind) :
    Reports (form.offence ctx) (instructionParser ctx c)
      ((form.tree ctx.declared, form.after ctx), c') := by
  have hstops := stops_of_ends hend
  rw [instructionParser, check_bind]
  cases hd with
  | @command ts f hf =>
    have hk : c.current.toClass ≠ .keyword .definition := by
      cases hf with
      | intro hshape => cases hshape <;> simp [hts.current_eq, Token.toClass, TokenKind.toClass]
    have helse : ¬IsElse c'.current.kind := by
      rcases hend with h | h <;> simp [h, IsElse]
    rw [if_neg (by simpa using hk)]
    exact (Command.parser_reports ctx hts hf ⟨hnear, fun _ => helse⟩ hstops).bind_ok rfl
  | @declare x s s₁ s₂ s₃ s₄ ts us params body hl hbody =>
    rw [if_pos (by rw [hts.current_eq]; rfl)]
    have hsplit : keywordAt .definition s :: identifierAt x s₁ :: symbolAt .openParen s₂ ::
        (ts ++ symbolAt .closeParen s₃ :: symbolAt .equal s₄ :: us) =
        (keywordAt .definition s :: identifierAt x s₁ :: symbolAt .openParen s₂ ::
          (ts ++ [symbolAt .closeParen s₃, symbolAt .equal s₄])) ++ us := by simp
    rw [hsplit] at hts
    obtain ⟨c₁, hheader, hus⟩ := Cursor.passes_append_iff.mp hts
    have h₁ := headerParser_eq_ok_iff.mpr ⟨ts, s, s₁, s₂, s₃, s₄, hheader, hl, rfl⟩
    refine Reports.ok_bind h₁ ?_
    exact (Expr.parser_answers _ hus hbody hstops).bind_ok rfl

theorem InstructionForm.Derives.ne_nil {form : InstructionForm}
    (h : InstructionForm.Derives ts form) : ts ≠ [] := by
  cases h with
  | command h => exact h.ne_nil
  | declare _ _ => simp

theorem instructions_sound (bound : List (Token Name)) {program : Program}
    (hc : instructionsUpTo ctx bound c = .ok (program, c')) : ∃ ts form, c.Passes ts c' ∧
      ProgramForm.Derives ts form ∧ form.Admissible ctx.declared ∧ form.Nearest ∧
      form.tree ctx.declared = program := by
  induction bound generalizing ctx c program with
  | nil => exact absurd hc unexpected_ne_ok
  | cons _ bound ih =>
    obtain ⟨⟨i, ctx'⟩, c₁, h₁, hc⟩ := bind_eq_ok_iff.mp hc
    obtain ⟨ts, form, hts, hd, hadm, hnear, rfl, rfl⟩ := instructionParser_sound h₁
    simp only [eat_bind] at hc
    split at hc
    · rename_i hk
      obtain ⟨rest, c₂, hrest, hc⟩ := bind_eq_ok_iff.mp hc
      obtain ⟨rfl, rfl⟩ := pure_eq_ok_iff.mp hc
      obtain ⟨us, forms, hus, hds, hadms, hnears, rfl⟩ := ih hrest
      have hk : c₁.current.kind = .symbol .semicolon := TokenKind.toClass_eq_symbol_iff.mp hk
      have ht : c₁.Passes [c₁.current] c₁.advance := passes_current (by simp [hk])
      exact ⟨_, form :: forms, hts.append (ht.cons hus),
        sepBy_cons_iff.mpr (.inr ⟨_, _, _, rfl, hd, hk, hds⟩), ⟨hadm, hadms⟩,
        List.forall_mem_cons.mpr ⟨hnear, hnears⟩, rfl⟩
    · obtain ⟨rfl, rfl⟩ := pure_eq_ok_iff.mp hc
      exact ⟨ts, [form], hts, sepBy_cons_iff.mpr (.inl ⟨rfl, hd⟩), ⟨hadm, trivial⟩,
        by simpa [ProgramForm.Nearest] using hnear, rfl⟩

theorem instructions_report (bound : List (Token Name)) {form : ProgramForm}
    (hd : ProgramForm.Derives ts form) (hn : ts.length ≤ bound.length) (hts : c.Passes ts c')
    (hnear : form.Nearest) (hend : c'.current.kind = .endOfFile) :
    Reports (form.offence ctx) (instructionsUpTo ctx bound c) (form.tree ctx.declared, c') := by
  induction form generalizing ctx c ts bound with
  | nil => cases hd
  | cons i forms ih =>
    obtain ⟨hni, hnis⟩ := List.forall_mem_cons.mp hnear
    rcases sepBy_cons_iff.mp hd with ⟨rfl, hdi⟩ | ⟨us, t, vs, rfl, hdi, ht, hds⟩
    · have hne := InstructionForm.Derives.ne_nil hdi
      cases bound with
      | nil => exact absurd (List.eq_nil_of_length_eq_zero (Nat.le_zero.mp hn)) hne
      | cons _ bound =>
        refine (instructionParser_reports hdi hts hni (.inr hend)).bind ?_
        simp only [eat_bind]
        rw [if_neg (by simp [Token.toClass, hend, TokenKind.toClass])]
        rfl
    · cases bound with
      | nil => simp at hn
      | cons _ bound =>
        obtain ⟨c₁, hus, hrest⟩ := Cursor.passes_append_iff.mp hts
        obtain ⟨c₂, h₂, hvs⟩ := Cursor.passes_cons_iff.mp hrest
        obtain ⟨rfl, -, rfl⟩ := Cursor.passes_one_iff.mp h₂
        simp only [List.length_append, List.length_cons] at hn
        have hk : c₁.current.toClass = .symbol .semicolon := TokenKind.toClass_eq_symbol_iff.mpr ht
        refine (instructionParser_reports hdi hus hni (.inl ht)).bind ?_
        simp only [eat_bind, hk, if_true]
        exact (ih bound hds (by omega) hvs hnis).bind_ok rfl

/-! ## Whole programs -/

/-- The tokens from the start of a list to an end of file are those that are read. -/
theorem eq_readable {tokens : List (Token Name)} (hts : (Cursor.ofTokens tokens).Passes ts c')
    (hend : c'.current.kind = .endOfFile) : ts = readable tokens := by
  obtain ⟨ha, -, hne⟩ := hts
  have hs : c'.ahead.takeWhile (!·.isEndOfFile) = [] := by
    cases hc : c'.ahead with
    | nil => rfl
    | cons t rest =>
      simp only [Cursor.current, hc] at hend
      simp [Token.isEndOfFile, Token.toClass, hend, TokenKind.toClass]
  have ht : tokens = ts ++ c'.ahead := ha
  rw [readable, ht, List.takeWhile_append_of_pos (by simpa using hne), hs, List.append_nil]

theorem passes_readable (tokens : List (Token Name)) :
    ∃ c', (Cursor.ofTokens tokens).Passes (readable tokens) c' ∧ c'.current.kind = .endOfFile := by
  refine ⟨⟨(readable tokens).reverse, tokens.dropWhile (!·.isEndOfFile)⟩, ⟨?_, ?_, ?_⟩, ?_⟩
  · exact List.takeWhile_append_dropWhile.symm
  · exact (List.append_nil _).symm
  · intro t ht
    simpa using List.all_eq_true.mp List.all_takeWhile t ht
  · cases hd : tokens.dropWhile (!·.isEndOfFile) with
    | nil => exact Cursor.current_kind_eq_endOfFile rfl
    | cons t rest =>
      have hhead := List.head?_dropWhile_not (fun t : Token Name => !t.isEndOfFile) tokens
      rw [hd] at hhead
      simp only [List.head?_cons, Bool.not_eq_false', Token.isEndOfFile, beq_iff_eq] at hhead
      exact TokenKind.toClass_eq_endOfFile_iff.mp hhead

theorem isAtEnd_ofTokens_iff {tokens : List (Token Name)} :
    (Cursor.ofTokens tokens).isAtEnd = true ↔ readable tokens = [] := by
  cases tokens with
  | nil =>
    simp [Cursor.isAtEnd, Cursor.current, Cursor.ofTokens, readable, Cursor.isEndOfFile_ending]
  | cons t tokens =>
    cases h : t.isEndOfFile <;>
      simp [Cursor.isAtEnd, Cursor.current, Cursor.ofTokens, readable, h]

/-- What `parse` does: it runs the parser and drops the cursor. -/
theorem parse_eq_ok_iff_exists {names : Names} {tokens : List (Token Name)} {program : Program} :
    parse names tokens = .ok program ↔
      ∃ c', parser names (.ofTokens tokens) = .ok (program, c') := by
  rw [parse, StateT.run', map_eq_pure_bind]
  rcases parser names (.ofTokens tokens) with e | ⟨result, c'⟩
  · simp [bind, Except.bind]
  · simp [bind, Except.bind, pure, Except.pure]

theorem parse_eq_ok_nil {names : Names} {tokens : List (Token Name)} (h : readable tokens = []) :
    parse names tokens = .ok [] := by
  refine parse_eq_ok_iff_exists.mpr ⟨.ofTokens tokens, ?_⟩
  simp [parser, isAtEnd_ofTokens_iff.mpr h, pure_eq_ok_iff]

/-- The parser reads instructions, unless there is nothing to read. -/
theorem parser_eq {names : Names} {tokens : List (Token Name)} (h : readable tokens ≠ []) :
    parser names (.ofTokens tokens) = (do
      let program ← instructionsUpTo ⟨names, []⟩ tokens
      let _ ← expectAs .endOfFile "`;` or end of file"
      return program : Parser Program) (.ofTokens tokens) := by
  have hend : (Cursor.ofTokens tokens).isAtEnd = false :=
    Bool.eq_false_iff.mpr fun he => h (isAtEnd_ofTokens_iff.mp he)
  simp only [parser, get_bind, hend, Bool.false_eq_true, if_false]
  rfl

theorem ProgramForm.Derives.ne_nil {form : ProgramForm} (h : ProgramForm.Derives ts form) :
    ts ≠ [] := by
  rintro rfl
  cases form with
  | nil => exact SepBy.ne_nil h rfl
  | cons i forms =>
    rcases sepBy_cons_iff.mp h with ⟨-, hi⟩ | ⟨us, t, vs, hnil, -⟩
    · exact InstructionForm.Derives.ne_nil hi rfl
    · simp at hnil

/-- The result for a program is its tree, or a report of its first offence. -/
theorem parse_reports (names : Names) {tokens : List (Token Name)} {form : ProgramForm}
    (hd : ProgramForm.Derives (readable tokens) form) (hnear : form.Nearest) :
    Reports (form.offence ⟨names, []⟩) (parse names tokens) (form.tree []) := by
  obtain ⟨c', hts, hend⟩ := passes_readable tokens
  have hclass : c'.current.toClass = .endOfFile := TokenKind.toClass_eq_endOfFile_iff.mpr hend
  have heof : expectAs .endOfFile "`;` or end of file" c' = .ok (c'.current.span, c'.advance) := by
    rw [expectAs, current_bind, if_pos hclass]
    rfl
  have hparser : Reports (form.offence ⟨names, []⟩) (parser names (.ofTokens tokens))
      (form.tree [], c'.advance) := by
    rw [parser_eq (ProgramForm.Derives.ne_nil hd)]
    refine (instructions_report tokens hd hts.length_le hts hnear hend).bind_ok ?_
    exact bind_eq_ok_iff.mpr ⟨_, _, heof, rfl⟩
  exact hparser.map Prod.fst

/-- A derivation of a program has one with the same first offence in which every `senaose` and
`senao` belongs to the nearest open conditional. -/
theorem exists_nearest {form : ProgramForm} (hd : ProgramForm.Derives ts form) :
    ∃ form', ProgramForm.Derives ts form' ∧ ProgramForm.Nearest form' ∧
      ∀ ctx, ProgramForm.offence ctx form' = form.offence ctx := by
  induction form generalizing ts with
  | nil => cases hd
  | cons i forms ih =>
    have hfirst : ∀ us, InstructionForm.Derives us i → ∃ i', InstructionForm.Derives us i' ∧
        i'.Nearest ∧ ∀ ctx, i'.offence ctx = i.offence ctx ∧ i'.after ctx = i.after ctx := by
      rintro us hd
      cases hd with
      | command hf =>
        obtain ⟨f', hf', hnear, ho⟩ := CommandForm.exists_nearest hf
        exact ⟨.command f', .command hf', hnear, fun ctx => ⟨ho ctx, rfl⟩⟩
      | declare hl hbody => exact ⟨_, .declare hl hbody, trivial, fun _ => ⟨rfl, rfl⟩⟩
    rcases sepBy_cons_iff.mp hd with ⟨rfl, hdi⟩ | ⟨us, t, vs, rfl, hdi, ht, hds⟩
    · obtain ⟨i', hd', hnear', ho⟩ := hfirst _ hdi
      refine ⟨[i'], sepBy_cons_iff.mpr (.inl ⟨rfl, hd'⟩),
        by simpa [ProgramForm.Nearest] using hnear', fun ctx => ?_⟩
      rw [ProgramForm.offence, ProgramForm.offence, (ho ctx).1]
      rfl
    · obtain ⟨i', hd', hnear', ho⟩ := hfirst _ hdi
      obtain ⟨forms', hds', hnears', hos⟩ := ih hds
      refine ⟨i' :: forms', sepBy_cons_iff.mpr (.inr ⟨us, t, vs, rfl, hd', ht, hds'⟩),
        List.forall_mem_cons.mpr ⟨hnear', hnears'⟩, fun ctx => ?_⟩
      rw [ProgramForm.offence, ProgramForm.offence, (ho ctx).1, (ho ctx).2, hos]

/-- The parser gives a program exactly if the tokens that are read are none, or have a derivation
that satisfies the rules with every `senaose` and `senao` at the nearest open conditional; then it
gives the tree of that derivation. -/
theorem parse_eq_ok_iff {names : Names} {tokens : List (Token Name)} {program : Program} :
    parse names tokens = .ok program ↔ (readable tokens = [] ∧ program = []) ∨
      ∃ form, ProgramForm.Derives (readable tokens) form ∧ form.Admissible [] ∧ form.Nearest ∧
        program = form.tree [] := by
  constructor
  · intro h
    by_cases hnil : readable tokens = []
    · exact .inl ⟨hnil, Except.ok.inj (h.symm.trans (parse_eq_ok_nil hnil))⟩
    obtain ⟨c', hc⟩ := parse_eq_ok_iff_exists.mp h
    rw [parser_eq hnil] at hc
    obtain ⟨program', c₁, h₁, hc⟩ := bind_eq_ok_iff.mp hc
    obtain ⟨s, c₂, h₂, hc⟩ := bind_eq_ok_iff.mp hc
    obtain ⟨rfl, rfl⟩ := pure_eq_ok_iff.mp hc
    have hend : c₁.current.kind = .endOfFile := by
      by_cases hk : c₁.current.toClass = .endOfFile
      · exact TokenKind.toClass_eq_endOfFile_iff.mp hk
      · simp only [expectAs, current_bind, hk, if_false] at h₂
        exact absurd h₂ unexpected_ne_ok
    obtain ⟨ts, form, hts, hd, hadm, hnear, rfl⟩ := instructions_sound tokens h₁
    obtain rfl := eq_readable hts hend
    exact .inr ⟨form, hd, hadm, hnear, rfl⟩
  · rintro (⟨hnil, rfl⟩ | ⟨form, hd, hadm, hnear, rfl⟩)
    · exact parse_eq_ok_nil hnil
    · have h := parse_reports names hd hnear
      rwa [(ProgramForm.offence_eq_none_iff form).mpr hadm] at h

/-- There is a program exactly if the tokens that are read are none, or have any derivation that
satisfies the rules. -/
theorem exists_parse_eq_ok_iff (names : Names) (tokens : List (Token Name)) :
    (∃ program, parse names tokens = .ok program) ↔ readable tokens = [] ∨
      ∃ form, ProgramForm.Derives (readable tokens) form ∧ form.Admissible [] := by
  simp only [parse_eq_ok_iff]
  constructor
  · rintro ⟨program, ⟨hnil, -⟩ | ⟨form, hd, hadm, -⟩⟩
    · exact .inl hnil
    · exact .inr ⟨form, hd, hadm⟩
  · rintro (hnil | ⟨form, hd, hadm⟩)
    · exact ⟨[], .inl ⟨hnil, rfl⟩⟩
    · obtain ⟨form', hd', hnear, ho⟩ := exists_nearest hd
      have hnone : ProgramForm.offence ⟨names, []⟩ form' = none :=
        (ho _).trans ((ProgramForm.offence_eq_none_iff form).mpr hadm)
      exact ⟨_, .inr ⟨form', hd', (ProgramForm.offence_eq_none_iff form').mp hnone, hnear, rfl⟩⟩

end Program

end Enquanto

import Enquanto.Proofs.ProgramParsing

/-!
# Refused programs

A token list that derives from the grammar is refused only if it breaks a rule. The error names the
first offence, whichever derivation is taken: not even the choice of the conditional to which a
`senao` belongs changes the order in which literals and calls are read.

The exception are predicates in parentheses. An offence in one of them is reported if it is in the
expression that the predicate starts with, and is masked if it is not.

* `Program.parse_error_shows`: the error for a program with an offence;
* `Program.parse_error_masked`: a call of a function that is not declared, reported as an unexpected
  `>`.
-/

namespace Enquanto

open Grammar Enquanto.Parser

namespace Program

/-- A program that is refused has an offence. The error is that of the first one, unless it is
masked; then the error is an unexpected token. -/
theorem parse_error_shows {names : Names} {tokens : List (Token Name)} {form : ProgramForm}
    {e : ParseError} (hd : ProgramForm.Derives (readable tokens) form)
    (he : parse names tokens = .error e) :
    ∃ o, form.offence ⟨names, []⟩ = some o ∧
      (o.masked = false → e = o.error ∧ e.cause.BreaksRule) ∧
      (o.masked = true → ∃ expected found, e.cause = .unexpected expected found) := by
  obtain ⟨form', hd', hnear, ho⟩ := exists_nearest hd
  have hreports := parse_reports names hd' hnear
  rw [ho, he] at hreports
  cases hoff : form.offence ⟨names, []⟩ with
  | none =>
    rw [hoff] at hreports
    cases hreports
  | some o =>
    rw [hoff] at hreports
    obtain ⟨e', he', hshows⟩ := hreports
    cases he'
    refine ⟨o, rfl, fun hm => ?_, fun hm => ?_⟩
    · have heq : e = o.error := by simpa [Offence.Shows, hm] using hshows
      exact ⟨heq, heq ▸ o.breaksRule⟩
    · simpa [Offence.Shows, hm] using hshows

end Program

/-! ## Offences in parentheses -/

/-- A conjunction on its own is a predicate. -/
theorem PredForm.Derives.of_and {ts : List (Token Name)} {p : PredForm} (h : Derives .and ts p) :
    Derives .or ts p := by
  have hxor : Derives .xor (ts ++ []) (chain p []) := .xor h .nil
  have hor : Derives .or (ts ++ [] ++ []) (chain (chain p []) []) := .or hxor .nil
  rwa [List.append_nil, List.append_nil] at hor

namespace Program

/-- The tokens of `se (test) entao skip`. -/
def guarded (test : List (Token Name)) : List (Token Name) :=
  keywordAt .se ⟨0, 2⟩ ::
    (symbolAt .openParen ⟨3, 4⟩ :: (test ++ [symbolAt .closeParen ⟨20, 21⟩]) ++
      [keywordAt .entao ⟨22, 27⟩, keywordAt .skip ⟨28, 32⟩])

theorem exists_derives_guarded {test : List (Token Name)} {p : PredForm}
    (h : PredForm.Derives .and test p) : ∃ form, ProgramForm.Derives (guarded test) form ∧
      ∀ ctx, form.offence ctx = (PredForm.paren p).offence ctx := by
  have hparen : PredForm.Derives .and (symbolAt .openParen ⟨3, 4⟩ ::
      (test ++ [symbolAt .closeParen ⟨20, 21⟩]) ++ []) (.paren p) :=
    .and (.plain (.paren h.of_and)) .nil
  rw [List.append_nil] at hparen
  have hbranch : CommandForm.Branch _ (.paren p, _) :=
    .intro (s := ⟨22, 27⟩) hparen.of_and (.intro (.skip (s := ⟨28, 32⟩)))
  have hcond : CommandForm.Derives (guarded test) _ :=
    (CommandForm.Shape.condOnly (s := ⟨0, 2⟩) hbranch .nil).derives (by rw [List.append_nil]; rfl)
  refine ⟨_, sepBy_cons_iff.mpr (.inl ⟨rfl, .command hcond⟩), fun ctx => ?_⟩
  simp [ProgramForm.offence, InstructionForm.offence, CommandForm.offence,
    CommandForm.branchOffences]

/-- An operand compared with a literal is an atom. -/
theorem derives_rel (op : RelOp) {ts : List (Token Name)} {e : ExprForm} {m : UInt32}
    (s s₁ : Span) (h : ExprForm.Derives .operand ts e) : PredForm.Derives .atom
      (ts ++ [symbolAt op.symbol s, integerAt m s₁]) (.rel op e (.int m s₁)) :=
  .rel h.of_operand (.of_operand .int)

/-- A call with one literal is an operand. -/
theorem derives_call (x : Name) (m : UInt32) (s s₁ s₂ s₃ : Span) : ExprForm.Derives .operand
    [identifierAt x s, symbolAt .openParen s₁, integerAt m s₂, symbolAt .closeParen s₃]
    (.call x s [.int m s₂] (s.merge s₃)) :=
  have harg : Listed (ExprForm.Derives .sum) [integerAt m s₂] [.int m s₂] :=
    .some (sepBy_cons_iff.mpr (.inl ⟨rfl, .of_operand .int⟩))
  ExprForm.Derives.call harg

/-- The tokens of `g(1) > 2 e x > 1`. -/
def leadingTest : List (Token Name) :=
  [identifierAt ⟨1⟩ ⟨4, 5⟩, symbolAt .openParen ⟨5, 6⟩, integerAt 1 ⟨6, 7⟩,
    symbolAt .closeParen ⟨7, 8⟩, symbolAt .greater ⟨9, 10⟩, integerAt 2 ⟨11, 12⟩,
    keywordAt .e ⟨13, 14⟩, identifierAt ⟨2⟩ ⟨15, 16⟩, symbolAt .greater ⟨17, 18⟩,
    integerAt 1 ⟨19, 20⟩]

/-- An offence in the expression that a predicate in parentheses starts with is reported. -/
theorem parse_error_shows_leading : ∃ (tokens : List (Token Name)) (names : Names)
    (form : ProgramForm) (o : Offence),
    lex "se (g(1) > 2 e x > 1) entao skip" .initial = (tokens, names) ∧
    ProgramForm.Derives (readable tokens) form ∧ form.offence ⟨names, []⟩ = some o ∧
    o.masked = false ∧ parse names tokens = .error o.error ∧
    o.error = ⟨.undefinedFunction "g", ⟨4, 5⟩⟩ := by
  have htest : PredForm.Derives .and leadingTest _ :=
    .and (.plain (derives_rel .gt _ _ (derives_call _ _ _ _ _ _)))
      (.one ⟨rfl, rfl⟩ (.plain (derives_rel .gt _ _ .var)))
  obtain ⟨form, hd, hoffence⟩ := exists_derives_guarded htest
  have hread : readable (guarded leadingTest ++ [⟨.endOfFile, ⟨32, 32⟩⟩]) =
      guarded leadingTest := by decide +kernel
  rw [← hread] at hd
  have hparse : parse ⟨#["", "g", "x"]⟩ (guarded leadingTest ++ [⟨.endOfFile, ⟨32, 32⟩⟩]) =
      .error ⟨.undefinedFunction "g", ⟨4, 5⟩⟩ :=
    rfl
  obtain ⟨o, ho, hshown, -⟩ := parse_error_shows hd hparse
  have hm : o.masked = false := by
    rw [hoffence] at ho
    cases ho
    rfl
  obtain ⟨heq, -⟩ := hshown hm
  exact ⟨_, _, form, o, by decide +kernel, hd, ho, hm, heq ▸ hparse, heq.symm⟩

/-- The tokens of `x > 1 e g(1) > 2`. -/
def maskedTest : List (Token Name) :=
  [identifierAt ⟨1⟩ ⟨4, 5⟩, symbolAt .greater ⟨6, 7⟩, integerAt 1 ⟨8, 9⟩, keywordAt .e ⟨10, 11⟩,
    identifierAt ⟨2⟩ ⟨12, 13⟩, symbolAt .openParen ⟨13, 14⟩, integerAt 1 ⟨14, 15⟩,
    symbolAt .closeParen ⟨15, 16⟩, symbolAt .greater ⟨17, 18⟩, integerAt 2 ⟨19, 20⟩]

/-- An offence further on is masked: in place of the call of `g`, which is not declared, the first
`>` is reported. -/
theorem parse_error_masked : ∃ (tokens : List (Token Name)) (names : Names) (form : ProgramForm)
    (o : Offence),
    lex "se (x > 1 e g(1) > 2) entao skip" .initial = (tokens, names) ∧
    ProgramForm.Derives (readable tokens) form ∧ form.offence ⟨names, []⟩ = some o ∧
    o.error = ⟨.undefinedFunction "g", ⟨12, 13⟩⟩ ∧
    parse names tokens = .error ⟨.unexpected "`)`" (.symbol .greater), ⟨6, 7⟩⟩ := by
  have htest : PredForm.Derives .and maskedTest _ :=
    .and (.plain (derives_rel .gt _ _ .var))
      (.one ⟨rfl, rfl⟩ (.plain (derives_rel .gt _ _ (derives_call _ _ _ _ _ _))))
  obtain ⟨form, hd, ho⟩ := exists_derives_guarded htest
  have hread : readable (guarded maskedTest ++ [⟨.endOfFile, ⟨32, 32⟩⟩]) =
      guarded maskedTest := by decide +kernel
  rw [← hread] at hd
  exact ⟨_, ⟨#["", "x", "g"]⟩, form, _, by decide +kernel, hd, by rw [ho]; rfl, rfl, rfl⟩

end Program

end Enquanto

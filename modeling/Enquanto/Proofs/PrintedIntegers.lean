import Enquanto.Proofs.Adequacy
import Enquanto.Proofs.SignedLiterals
import Enquanto.Proofs.SourceSpans

/-!
# Printed integers

What `escreva` prints of an integer can be written wherever an integer can be read. Read as input it
is the integer; as an operand it is an expression with that value; behind `caso` it is the label for
that value.

* `Module.parse_of_kinds`: a source without names is read and run command by command;
* `Decimal.printing` and `Decimal.choosing`: sources that print integers and choose by them;
* `Decimal.text_reads_back`: the text of an integer is read back wherever it stands.
-/

namespace Enquanto

open Grammar Lexer Lexical Enquanto.Parser
open Run (Ends)
open TokenKind (bare)

/-! ## Sources without names -/

theorem Lexer.kinds_blank (rest : List Char) : kinds (' ' :: rest) = kinds rest :=
  (IsGap.blank (.inl rfl) .nil).kinds_append rest

/-- A spelled token with a blank behind it is read back. -/
theorem Lexer.kinds_spaced (kind : TokenKind String) (word : String) (hkind : kind.Spellable)
    (h : word = kind.spelling ++ " ") (rest : List Char) :
    kinds (word.toList ++ rest) = kind :: kinds rest := by
  have hdelimits : Delimits (' ' :: rest) := (IsGap.blank (.inl rfl) .nil).delimits (by simp) rest
  have hsplit : word.toList ++ rest = kind.spelling.toList ++ ' ' :: rest := by
    rw [h, String.toList_append, List.append_assoc]
    rfl
  rw [hsplit, hkind.kinds_append hdelimits, kinds_blank]

/-- The tokens of a source without names that are read are the tokens of its text. -/
theorem readable_of_kinds {source : String} {ks : List (TokenKind Empty)}
    (h : kinds source.toList = ks.map bare ++ [.endOfFile]) (names : Names) :
    (readable (lex source names).1).map Token.kind = ks.map bare ∧
      (lex source names).2 = names := by
  have hend : lex "" names = ([⟨.endOfFile, .point 0⟩], names) := by
    rw [lex, tokens, String.toList_empty, lexemes]
    rfl
  rw [← kinds_nil, ← String.toList_empty] at h
  obtain ⟨hkinds, hnames⟩ := lex_of_kinds h names
  rw [hend] at hkinds hnames
  rw [lex_eq_readable, List.map_append] at hkinds
  exact ⟨List.append_cancel_right hkinds, hnames⟩

/-- Commands with semicolons between them are a program. -/
theorem Program.parse_of_commands {names : Names} {tokens : List (Token Name)}
    {commands : List Command}
    (h : SepBy (.symbol .semicolon) (CommandForm.Reads []) (readable tokens) commands) :
    Program.parse names tokens = .ok (commands.map .command) := by
  suffices hform : ∀ {ts : List (Token Name)},
      SepBy (.symbol .semicolon) (CommandForm.Reads []) ts commands →
        ∃ form, ProgramForm.Derives ts form ∧ form.Admissible [] ∧ form.Nearest ∧
          commands.map .command = form.tree [] from
    Program.parse_eq_ok_iff.mpr (.inr (hform h))
  clear h
  intro ts h
  induction commands generalizing ts with
  | nil => exact absurd rfl h.ne_nil
  | cons command commands ih =>
    rcases sepBy_cons_iff.mp h with ⟨rfl, f, hf, ⟨hnear, hadm⟩, rfl⟩ |
      ⟨us, t, vs, rfl, ⟨f, hf, ⟨hnear, hadm⟩, rfl⟩, ht, hrest⟩
    · exact ⟨[.command f], sepBy_cons_iff.mpr (.inl ⟨rfl, .command hf⟩), ⟨hadm, trivial⟩,
        List.forall_mem_singleton.mpr hnear, rfl⟩
    · obtain ⟨form, hform, hadms, hnears, htree⟩ := ih hrest
      exact ⟨.command f :: form, sepBy_cons_iff.mpr (.inr ⟨us, t, vs, rfl, .command hf, ht, hform⟩),
        ⟨hadm, hadms⟩, List.forall_mem_cons.mpr ⟨hnear, hnears⟩, congrArg _ htree⟩

theorem Program.commands_map_command (commands : List Command) :
    Program.commands (commands.map .command) = commands := by
  induction commands with
  | nil => rfl
  | cons command commands ih => exact congrArg (command :: ·) ih

/-- A source without names, of which all tokens are read as commands, is run command by command. -/
theorem Module.parse_of_kinds {source : String} {ks : List (TokenKind Empty)} {f : State → State}
    (h : kinds source.toList = ks.map bare ++ [.endOfFile])
    (hread : ∀ ts : List (Token Name), ts.map Token.kind = ks.map bare → ∃ commands,
      (ts = [] ∧ commands = [] ∨
        SepBy (.symbol .semicolon) (CommandForm.Reads []) ts commands) ∧
      ∀ w s, Executes w .root (.sequence commands) s (.ok ()) (f s)) (names : Names) :
    ∃ m, Module.parse source names = (.ok m, names) ∧ ∀ maxDepth s,
      Ends (Machine.run ⟨names, m, maxDepth⟩) s (.ok ()) (f s) := by
  obtain ⟨hkinds, hnames⟩ := readable_of_kinds h names
  obtain ⟨commands, hcommands, hexecutes⟩ := hread _ hkinds
  have hparse : Program.parse names (lex source names).1 = .ok (commands.map .command) := by
    rcases hcommands with ⟨hnil, rfl⟩ | hcommands
    · exact Program.parse_eq_ok_nil hnil
    · exact Program.parse_of_commands hcommands
  refine ⟨.ofProgram (commands.map .command), ?_, fun maxDepth s => ?_⟩
  · simp only [Module.parse, hnames, hparse]
    rfl
  · refine (Machine.serves_ofProgram hparse maxDepth).run_ends_iff.mpr ?_
    show Executes _ .root (.sequence (Program.commands (commands.map .command))) s (.ok ()) (f s)
    rw [Program.commands_map_command]
    exact hexecutes _ s

/-! ## Commands that print -/

/-- The command prints an integer, whatever the state, and does nothing else. -/
def Command.Prints (command : Command) (v : Int32) : Prop :=
  ∀ w scope s, Executes w scope (.command command) s (.ok ()) (s.print (Decimal.text v))

/-- Commands that print integers print their lines. -/
theorem Executes.of_prints {commands : List Command} {values : List Int32}
    (h : List.Forall₂ Command.Prints commands values) (w : Setting) (scope : ScopeId) (s : State) :
    Executes w scope (.sequence commands) s (.ok ())
      { s with output := s.output ++ Decimal.printed values } := by
  induction h generalizing s with
  | nil =>
    have hsame : s.output ++ Decimal.printed [] = s.output := String.append_empty
    rw [hsame]
    exact .sequence_nil
  | @cons command v commands values hv _ ih =>
    have hline : s.output ++ Decimal.printed (v :: values) =
        (s.print (Decimal.text v)).output ++ Decimal.printed values := by
      rw [Decimal.printed_cons, State.print, Output.withLine]
      simp only [String.append_assoc]
    rw [hline]
    exact .sequence_cons (hv w scope s) (ih (s.print (Decimal.text v)))

/-- A choice runs what its cases have for the value of its selector. -/
theorem Executes.switch_lookup {w : Setting} {scope : ScopeId} {selector : Expr}
    {cases : List (Int32 × Command)} {default : Command} {span : Span} {s s₁ s₂ : State}
    {value : Int32} {r : Except Fault Unit} (hv : Evaluates w 0 scope selector s (.ok value) s₁)
    (h : Executes w scope (.command ((cases.lookup value).getD default)) s₁ r s₂) :
    Executes w scope (.command (.switch selector cases default span)) s r s₂ := by
  cases hlookup : cases.lookup value with
  | none =>
    rw [hlookup] at h
    have hother := List.lookup_eq_none_iff.mp hlookup
    exact .switch_default hv (fun label hlabel => (bne_iff_ne.mp (hother label hlabel)).symm) h
  | some command =>
    rw [hlookup] at h
    obtain ⟨before, after, hcases, hbefore⟩ := List.lookup_eq_some_iff.mp hlookup
    exact .switch_case hv hcases
      (fun label hlabel => (bne_iff_ne.mp (hbefore label hlabel)).symm) h

/-- Cases print what the integers behind their labels are. -/
theorem Command.prints_lookup {cases : List (Int32 × Command)} {values : List (Int32 × Int32)}
    (h : List.Forall₂ (fun c d => c.1 = d.1 ∧ Command.Prints c.2 d.2) cases values)
    {command : Command} {last : Int32} (hlast : command.Prints last) (v : Int32) :
    Command.Prints ((cases.lookup v).getD command) ((values.lookup v).getD last) := by
  induction h with
  | nil => exact hlast
  | @cons c d cases values hcd _ ih =>
    obtain ⟨label, command⟩ := c
    obtain ⟨label', value⟩ := d
    obtain ⟨rfl, hprints⟩ := hcd
    cases hv : v == label with
    | true =>
      simp only [List.lookup_cons, hv, Option.getD_some]
      exact hprints
    | false =>
      simp only [List.lookup_cons, hv]
      exact ih

namespace Decimal

/-! ## Reading commands -/

/-- The tokens of a command that prints an integer. -/
def printTokens (v : Int32) : List (TokenKind Empty) := .keyword .escreva :: tokens v

/-- The tokens of a case that prints an integer, from its label on. -/
def caseTokens (label v : Int32) : List (TokenKind Empty) :=
  tokens label ++ .symbol .colon :: printTokens v

/-- The tokens of an integer are an expression that has it for value. -/
theorem reads_tokens {declared : List Signature} {ts : List (Token Name)} {v : Int32}
    (h : ts.map Token.kind = (tokens v).map bare) :
    ∃ e, ExprForm.Reads declared .sum ts e ∧ e.Constant v := by
  obtain ⟨us, c', hpasses, hus, hend⟩ := Cursor.exists_passes_of_kinds (c := ⟨[], ts⟩)
    (h.trans (List.append_nil _).symm) (endOfFile_notMem_tokens v)
  have hsigns : Cursor.Passes ⟨[], ts⟩ (([] : List Span).map (symbolAt .minus) ++ us) c' := hpasses
  -- With no room for nested expressions, what is read is an expression all the same.
  obtain ⟨e, he, hconstant⟩ : ∃ e, Expr.signed ⟨.initial, declared⟩
      (Expr.parserUpTo ⟨.initial, declared⟩ []) ⟨[], ts⟩ = .ok (e, c') ∧ e.Constant v :=
    Expr.signed_text hsigns hus
  obtain ⟨vs, hvs, f, hf, hadm, rfl⟩ := Expr.signed_sound (Expr.parserUpTo_sound []) he
  obtain rfl : ts = vs := by
    simpa [List.map_eq_nil_iff.mp hend] using hvs.1
  exact ⟨_, ⟨f, hf.of_signed, hadm, rfl⟩, hconstant⟩

theorem reads_print {ts : List (Token Name)} {v : Int32}
    (h : ts.map Token.kind = (printTokens v).map bare) :
    ∃ command, CommandForm.Reads [] ts command ∧ command.Prints v := by
  obtain ⟨⟨kind, s⟩, us, rfl, rfl, hus⟩ := List.map_eq_cons_iff.mp h
  obtain ⟨e, ⟨f, hf, hadm, rfl⟩, hconstant⟩ := reads_tokens hus
  exact ⟨_, ⟨_, .intro (.printInt hf), ⟨trivial, hadm⟩, rfl⟩,
    fun w scope s => .printInt (hconstant.evaluates w 0 scope s)⟩

theorem reads_case {ts : List (Token Name)} {label v : Int32}
    (h : ts.map Token.kind = (caseTokens label v).map bare) :
    ∃ command, CommandForm.ReadsCase [] ts (label, command) ∧ command.Prints v := by
  rw [caseTokens, List.map_append] at h
  obtain ⟨us, vs, rfl, hus, hvs⟩ := List.map_eq_append_iff.mp h
  obtain ⟨⟨kind, s⟩, ws, rfl, rfl, hws⟩ := List.map_eq_cons_iff.mp hvs
  obtain ⟨l, hl, hadm, hvalue⟩ := exists_label hus
  obtain ⟨command, ⟨f, hf, ⟨hnear, hadms⟩, rfl⟩, hprints⟩ := reads_print hws
  exact ⟨_, ⟨(l, f), .intro hl hf, ⟨hadm, hnear, hadms⟩, Prod.ext hvalue rfl⟩, hprints⟩

theorem reads_cases {cases : List (Int32 × Int32)} {ts : List (Token Name)}
    (h : ts.map Token.kind =
      (cases.flatMap fun c => .keyword .caso :: caseTokens c.1 c.2).map bare) :
    ∃ commands : List (Int32 × Command),
      Many (just (.keyword .caso)) (CommandForm.ReadsCase []) ts (commands.map ((), ·)) ∧
      List.Forall₂ (fun c d => c.1 = d.1 ∧ Command.Prints c.2 d.2) commands cases := by
  induction cases generalizing ts with
  | nil =>
    obtain rfl := List.map_eq_nil_iff.mp h
    exact ⟨[], .nil, .nil⟩
  | cons c cases ih =>
    rw [List.flatMap_cons, List.map_append] at h
    obtain ⟨us, vs, rfl, hus, hvs⟩ := List.map_eq_append_iff.mp h
    obtain ⟨⟨kind, s⟩, ws, rfl, rfl, hws⟩ := List.map_eq_cons_iff.mp hus
    obtain ⟨command, hread, hprints⟩ := reads_case hws
    obtain ⟨commands, hmany, hall⟩ := ih hvs
    exact ⟨(c.1, command) :: commands, .cons rfl hread hmany, .cons ⟨rfl, hprints⟩ hall⟩

/-! ## Sources -/

/-- A source that prints integers, each written as its text. -/
def printing (values : List Int32) : String :=
  "; ".intercalate (values.map fun v => "escreva " ++ text v)

/-- Cases that print integers, each behind its label. -/
def caseTexts (cases : List (Int32 × Int32)) : String :=
  String.join (cases.map fun c => "caso " ++ text c.1 ++ ": escreva " ++ text c.2 ++ " ")

/-- A source that prints the integer of the first case with a given value, or else the last one. The
value, the labels of the cases and the integers are written as their texts. -/
def choosing (v : Int32) (cases : List (Int32 × Int32)) (last : Int32) : String :=
  "escolha " ++ text v ++ " " ++ caseTexts cases ++ "outro: escreva " ++ text last

example : choosing (-1) [(-1, 5)] 0 = "escolha -1 caso -1: escreva 5 outro: escreva 0" := by decide

/-- The tokens of `printing`. -/
def printingTokens (values : List Int32) : List (TokenKind Empty) :=
  [.symbol .semicolon].intercalate (values.map printTokens)

theorem printingTokens_singleton (v : Int32) : printingTokens [v] = printTokens v :=
  List.intercalate_singleton

theorem printingTokens_cons_cons (v w : Int32) (values : List Int32) :
    printingTokens (v :: w :: values) =
      printTokens v ++ [.symbol .semicolon] ++ printingTokens (w :: values) :=
  List.intercalate_cons_cons

/-- The tokens of `choosing`. -/
def choosingTokens (v : Int32) (cases : List (Int32 × Int32)) (last : Int32) :
    List (TokenKind Empty) :=
  .keyword .escolha :: (tokens v ++
    ((cases.flatMap fun c => .keyword .caso :: caseTokens c.1 c.2) ++
      .keyword .outro :: .symbol .colon :: printTokens last))

/-! The tokens of the sources. -/

theorem kinds_print (v : Int32) {rest : List Char} (h : ∀ c ∈ rest.head?, ¬ IsDigit c) :
    kinds ("escreva ".toList ++ ((text v).toList ++ rest)) =
      (printTokens v).map bare ++ kinds rest := by
  rw [kinds_spaced (.keyword .escreva) "escreva " trivial rfl, kinds_text v h]
  rfl

theorem kinds_case (label v : Int32) (rest : List Char) :
    kinds (("caso " ++ text label ++ ": escreva " ++ text v ++ " ").toList ++ rest) =
      (.keyword .caso :: caseTokens label v : List (TokenKind Empty)).map bare ++ kinds rest := by
  have hblank : ∀ c ∈ (" ".toList ++ rest).head?, ¬ IsDigit c := by simp [IsDigit]
  have hcolon : ∀ c ∈ (": ".toList ++ ("escreva ".toList ++ ((text v).toList ++
      (" ".toList ++ rest)))).head?, ¬ IsDigit c := by simp [IsDigit]
  have hsplit : ("caso " ++ text label ++ ": escreva " ++ text v ++ " ").toList ++ rest =
      "caso ".toList ++ ((text label).toList ++ (": ".toList ++ ("escreva ".toList ++
        ((text v).toList ++ (" ".toList ++ rest))))) := by
    simp
  rw [hsplit, kinds_spaced (.keyword .caso) "caso " trivial rfl, kinds_text label hcolon,
    kinds_spaced (.symbol .colon) ": " trivial rfl, kinds_print v hblank]
  simp [caseTokens, bare, kinds_blank]

theorem kinds_caseTexts (cases : List (Int32 × Int32)) (rest : List Char) :
    kinds ((caseTexts cases).toList ++ rest) =
      (cases.flatMap fun c => .keyword .caso :: caseTokens c.1 c.2).map bare ++ kinds rest := by
  induction cases with
  | nil => rfl
  | cons c cases ih =>
    have hcons : caseTexts (c :: cases) =
        "caso " ++ text c.1 ++ ": escreva " ++ text c.2 ++ " " ++ caseTexts cases :=
      String.join_cons
    rw [hcons, String.toList_append, List.append_assoc, kinds_case, ih, List.flatMap_cons,
      List.map_append, List.append_assoc]

/-- The tokens of the last command of a choice. -/
theorem kinds_outro (last : Int32) :
    kinds ("outro: escreva " ++ text last).toList =
      (.keyword .outro :: .symbol .colon :: printTokens last : List (TokenKind Empty)).map bare ++
        [.endOfFile] := by
  have hcolon : ∀ c ∈ (": ".toList ++ ("escreva ".toList ++ ((text last).toList ++ []))).head?,
      ¬ (IsLetter c ∨ IsDigit c) := by
    simp [IsDigit, IsLetter]
  have hsplit : ("outro: escreva " ++ text last).toList = Keyword.outro.spelling.toList ++
      (": ".toList ++ ("escreva ".toList ++ ((text last).toList ++ []))) := by
    simp [Keyword.spelling]
  rw [hsplit, Lexer.kinds_keyword .outro hcolon, kinds_spaced (.symbol .colon) ": " trivial rfl,
    kinds_print last (by simp), kinds_nil]
  rfl

theorem kinds_choosing (v : Int32) (cases : List (Int32 × Int32)) (last : Int32) :
    kinds (choosing v cases last).toList =
      (choosingTokens v cases last).map bare ++ [.endOfFile] := by
  have hblank : ∀ c ∈ (' ' :: ((caseTexts cases).toList ++
      ("outro: escreva " ++ text last).toList)).head?, ¬ IsDigit c := by
    simp [IsDigit]
  have hsplit : (choosing v cases last).toList = "escolha ".toList ++ ((text v).toList ++
      ' ' :: ((caseTexts cases).toList ++ ("outro: escreva " ++ text last).toList)) := by
    simp [choosing]
  rw [hsplit, kinds_spaced (.keyword .escolha) "escolha " trivial rfl, kinds_text v hblank,
    kinds_blank, kinds_caseTexts, kinds_outro]
  simp [choosingTokens, bare]

theorem kinds_printing (values : List Int32) :
    kinds (printing values).toList = (printingTokens values).map bare ++ [.endOfFile] := by
  match values with
  | [] => exact kinds_nil
  | [v] =>
    have hsplit : (printing [v]).toList = "escreva ".toList ++ ((text v).toList ++ []) := by
      simp [printing]
    rw [hsplit, kinds_print v (by simp), kinds_nil, printingTokens_singleton]
  | v :: w :: values =>
    have hdelimiter : ∀ c ∈ ("; ".toList ++ (printing (w :: values)).toList).head?,
        ¬ IsDigit c := by
      simp [IsDigit]
    have hsplit : (printing (v :: w :: values)).toList = "escreva ".toList ++
        ((text v).toList ++ ("; ".toList ++ (printing (w :: values)).toList)) := by
      simp [printing]
    rw [hsplit, kinds_print v hdelimiter, kinds_spaced (.symbol .semicolon) "; " trivial rfl,
      kinds_printing (w :: values), printingTokens_cons_cons]
    simp [bare]

/-! Reading and running the sources. -/

theorem reads_printing {values : List Int32} (hne : values ≠ []) {ts : List (Token Name)}
    (h : ts.map Token.kind = (printingTokens values).map bare) : ∃ commands,
      SepBy (.symbol .semicolon) (CommandForm.Reads []) ts commands ∧
        List.Forall₂ Command.Prints commands values := by
  match values with
  | [v] =>
    rw [printingTokens_singleton] at h
    obtain ⟨command, hread, hprints⟩ := reads_print h
    exact ⟨[command], sepBy_cons_iff.mpr (.inl ⟨rfl, hread⟩), .cons hprints .nil⟩
  | v :: w :: values =>
    rw [printingTokens_cons_cons, List.append_assoc, List.map_append, List.singleton_append,
      List.map_cons] at h
    obtain ⟨us, vs, rfl, hus, hvs⟩ := List.map_eq_append_iff.mp h
    obtain ⟨t, ws, rfl, ht, hws⟩ := List.map_eq_cons_iff.mp hvs
    obtain ⟨command, hread, hprints⟩ := reads_print hus
    obtain ⟨commands, hreads, hall⟩ := reads_printing (List.cons_ne_nil w values) hws
    exact ⟨command :: commands,
      sepBy_cons_iff.mpr (.inr ⟨us, t, ws, rfl, hread, ht, hreads⟩), .cons hprints hall⟩

theorem parse_printing (values : List Int32) (names : Names) :
    ∃ m, Module.parse (printing values) names = (.ok m, names) ∧ ∀ maxDepth s,
      Ends (Machine.run ⟨names, m, maxDepth⟩) s (.ok ())
        { s with output := s.output ++ printed values } := by
  refine Module.parse_of_kinds (kinds_printing values) (fun ts hts => ?_) names
  by_cases hnil : values = []
  · subst hnil
    exact ⟨[], .inl ⟨List.map_eq_nil_iff.mp hts, rfl⟩, fun w => Executes.of_prints .nil w .root⟩
  · obtain ⟨commands, hread, hall⟩ := reads_printing hnil hts
    exact ⟨commands, .inr hread, fun w => Executes.of_prints hall w .root⟩

theorem reads_choosing {v : Int32} {cases : List (Int32 × Int32)} {last : Int32}
    {ts : List (Token Name)}
    (h : ts.map Token.kind = (choosingTokens v cases last).map bare) :
    ∃ command, CommandForm.Reads [] ts command ∧
      command.Prints ((cases.lookup v).getD last) := by
  simp only [choosingTokens, List.map_cons, List.map_append] at h
  obtain ⟨⟨kind, s⟩, us, rfl, rfl, hus⟩ := List.map_eq_cons_iff.mp h
  obtain ⟨vs, after, rfl, hvs, hafter⟩ := List.map_eq_append_iff.mp hus
  obtain ⟨ws, outro, rfl, hws, houtro⟩ := List.map_eq_append_iff.mp hafter
  obtain ⟨⟨kind, s₁⟩, colon, rfl, rfl, hcolon⟩ := List.map_eq_cons_iff.mp houtro
  obtain ⟨⟨kind, s₂⟩, xs, rfl, rfl, hxs⟩ := List.map_eq_cons_iff.mp hcolon
  obtain ⟨selector, ⟨e, he, hadm, rfl⟩, hconstant⟩ := reads_tokens hvs
  obtain ⟨commands, hcases, hall⟩ := reads_cases hws
  obtain ⟨command, ⟨f, hf, ⟨hnear, hadms⟩, rfl⟩, hprints⟩ := reads_print hxs
  obtain ⟨forms, hforms, hrules, htrees⟩ := many_denotes_iff.mp hcases
  have hcommands : CommandForm.caseTrees [] (forms.map Prod.snd) = commands := by
    have hsnd := congrArg (List.map Prod.snd) htrees
    rw [List.map_map, List.map_map] at hsnd
    rw [CommandForm.caseTrees_eq_map, List.map_map]
    exact hsnd.trans (List.map_id commands)
  refine ⟨_, ⟨_, .intro (.switch he hforms hf), ⟨⟨?_, hnear⟩, hadm, ?_, hadms⟩, rfl⟩,
    fun w scope s => ?_⟩
  · exact CommandForm.nearestCases_iff.mpr
      (List.forall_mem_map.mpr fun x hx => (hrules x hx).2.1)
  · exact CommandForm.admissibleCases_iff.mpr
      (List.forall_mem_map.mpr fun x hx => ⟨(hrules x hx).1, (hrules x hx).2.2⟩)
  · rw [CommandForm.tree, hcommands]
    exact .switch_lookup (hconstant.evaluates w 0 scope s)
      (Command.prints_lookup hall hprints v w scope s)

theorem parse_choosing (v : Int32) (cases : List (Int32 × Int32)) (last : Int32) (names : Names) :
    ∃ m, Module.parse (choosing v cases last) names = (.ok m, names) ∧ ∀ maxDepth s,
      Ends (Machine.run ⟨names, m, maxDepth⟩) s (.ok ())
        { s with output := s.output ++ printed [(cases.lookup v).getD last] } := by
  refine Module.parse_of_kinds (kinds_choosing v cases last) (fun ts hts => ?_) names
  obtain ⟨command, hread, hprints⟩ := reads_choosing hts
  exact ⟨[command], .inr (sepBy_cons_iff.mpr (.inl ⟨rfl, hread⟩)),
    fun w => Executes.of_prints (.cons hprints .nil) w .root⟩

/-! ## Reading back -/

/-- In front of the text of an integer, the cursor passes its tokens. -/
theorem exists_passes {c : Cursor} {v : Int32} {rest : String} {names : Names}
    (hrest : ∀ d ∈ rest.toList.head?, ¬ IsDigit d)
    (h : c.ahead.map Token.kind = (lex (text v ++ rest) names).1.map Token.kind) :
    ∃ ts c', c.Passes ts c' ∧ ts.map Token.kind = (tokens v).map bare ∧
      c'.ahead.map Token.kind = (lex rest names).1.map Token.kind := by
  rw [lex_text v hrest] at h
  exact Cursor.exists_passes_of_kinds h (endOfFile_notMem_tokens v)

/-- The text of an integer is read back wherever it stands. The lines that are printed for integers
are an input that gives the integers in order and then ends, and a source that prints integers from
their texts prints those lines. Where `k` signs, the text and no further digit are ahead, an operand
is read to the end of the text, with any parser of nested expressions; wherever it is evaluated it
has the value of the integer with the signs applied, and changes nothing. Where the text is ahead,
the label of a case is read as the integer, and a choice by a text runs the first case with the
label for the same integer. -/
theorem text_reads_back :
    (∀ (values : List Int32) (n : Nat),
      (Input.ofString (printed values)).readInts (values.length + n) =
        values.map .ok ++ List.replicate n (.error .exhausted)) ∧
    (∀ (values : List Int32) (names : Names), ∃ m,
      Module.parse (printing values) names = (.ok m, names) ∧ ∀ maxDepth s,
        Ends (Machine.run ⟨names, m, maxDepth⟩) s (.ok ())
          { s with output := s.output ++ printed values }) ∧
    (∀ (v : Int32) (rest : String) (names : Names) (k : Nat) (c : Cursor),
      (∀ d ∈ rest.toList.head?, ¬ IsDigit d) →
      c.ahead.map Token.kind = List.replicate k (.symbol .minus) ++
        (lex (text v ++ rest) names).1.map Token.kind →
      ∃ c', c'.ahead.map Token.kind = (lex rest names).1.map Token.kind ∧
        ∀ ctx nested, ∃ e, Expr.signed ctx nested c = .ok (e, c') ∧
          ∀ (m : Machine) (scope : ScopeId) (id : ExprId), m.module.arena.HoldsExpr scope e id →
            ∀ depth s, Ends (fun fuel => m.evalExpr fuel depth id) s (.ok (Neg.neg^[k] v)) s) ∧
    (∀ (v : Int32) (rest : String) (names : Names) (c : Cursor),
      (∀ d ∈ rest.toList.head?, ¬ IsDigit d) →
      c.ahead.map Token.kind = (lex (text v ++ rest) names).1.map Token.kind →
      ∃ c', c'.ahead.map Token.kind = (lex rest names).1.map Token.kind ∧
        ∀ nested, Command.caseParser nested c = (do
          let _ ← symbol .colon
          let body ← nested
          return (v, body) : Parser (Int32 × Command)) c') ∧
    ∀ (v : Int32) (cases : List (Int32 × Int32)) (last : Int32) (names : Names), ∃ m,
      Module.parse (choosing v cases last) names = (.ok m, names) ∧ ∀ maxDepth s,
        Ends (Machine.run ⟨names, m, maxDepth⟩) s (.ok ())
          { s with output := s.output ++ printed [(cases.lookup v).getD last] } := by
  refine ⟨readInts_printed, parse_printing, fun v rest names k c hrest h => ?operand,
    fun v rest names c hrest h => ?label, parse_choosing⟩
  case operand =>
    obtain ⟨us, c₁, hus, hsigns, hahead⟩ :=
      Cursor.exists_passes_of_kinds h (by simp [List.mem_replicate])
    obtain ⟨ts, c', hts, hkinds, hafter⟩ := exists_passes hrest hahead
    obtain ⟨signs, rfl, rfl⟩ := Grammar.exists_spans hsigns
    refine ⟨c', hafter, fun ctx nested => ?_⟩
    obtain ⟨e, he, hconstant⟩ := Expr.signed_text (hus.append hts) hkinds
    exact ⟨e, he, fun m scope id hid => hconstant.ends hid⟩
  case label =>
    obtain ⟨ts, c', hts, hkinds, hafter⟩ := exists_passes hrest h
    obtain ⟨label, hlabel, hadm, hvalue⟩ := exists_label hkinds
    refine ⟨c', hafter, fun nested => ?_⟩
    have hliteral : literal label.negative label.magnitude label.span = .ok v :=
      literal_eq_ok_iff.mpr ⟨hadm, hvalue.symm⟩
    rw [Command.caseParser_eq hlabel hts, hliteral]
    rfl

/-- The tokens of `--2147483648 * 2`. -/
def leastOperand : List (Token Name) :=
  [symbolAt .minus ⟨0, 1⟩, symbolAt .minus ⟨1, 2⟩, integerAt 2147483648 ⟨2, 12⟩,
    symbolAt .star ⟨13, 14⟩, integerAt 2 ⟨15, 16⟩, ⟨.endOfFile, .point 16⟩]

/-- The tokens of `-2147483648: skip`. -/
def leastCase : List (Token Name) :=
  [symbolAt .minus ⟨0, 1⟩, integerAt 2147483648 ⟨1, 11⟩, symbolAt .colon ⟨11, 12⟩,
    keywordAt .skip ⟨13, 17⟩, ⟨.endOfFile, .point 17⟩]

/-- The least value has no counterpart, so its sign is part of it, and one more sign changes
nothing. -/
theorem text_reads_back_least :
    (Input.ofString "-2147483648\n").readInts 2 = [.ok .minValue, .error .exhausted] ∧
    (∃ (e : Expr) (c' : Cursor) (m : Machine) (id : ExprId),
      Expr.signed ⟨.initial, []⟩ (Expr.parserUpTo ⟨.initial, []⟩ []) (.ofTokens leastOperand) =
        .ok (e, c') ∧
      c'.current = symbolAt .star ⟨13, 14⟩ ∧ m.module.arena.HoldsExpr .root e id ∧
      ∀ s, Ends (fun fuel => m.evalExpr fuel 0 id) s (.ok .minValue) s) ∧
    ∃ c' : Cursor, c'.ahead.map Token.kind = [.symbol .colon, .keyword .skip, .endOfFile] ∧
      ∀ nested, Command.caseParser nested (.ofTokens leastCase) = (do
        let _ ← symbol .colon
        let body ← nested
        return (.minValue, body) : Parser (Int32 × Command)) c' := by
  obtain ⟨hinput, -, hoperand, hlabel, -⟩ := text_reads_back
  refine ⟨hinput [.minValue] 1, ?operand, ?label⟩
  case operand =>
    obtain ⟨c', -, hread⟩ := hoperand .minValue " * 2" .initial 1 (.ofTokens leastOperand)
      (by simp [IsDigit]) (by decide +kernel)
    obtain ⟨e, he, hends⟩ := hread ⟨.initial, []⟩ (Expr.parserUpTo ⟨.initial, []⟩ [])
    have hvalue : Expr.signed ⟨.initial, []⟩ (Expr.parserUpTo ⟨.initial, []⟩ [])
        (.ofTokens leastOperand) = .ok (.neg (.int .minValue ⟨1, 12⟩) ⟨0, 12⟩,
          ⟨(leastOperand.take 3).reverse, leastOperand.drop 3⟩) := rfl
    cases hvalue.symm.trans he
    have hholds : (Module.ofProgram [.command (.printInt (.neg (.int .minValue ⟨1, 12⟩) ⟨0, 12⟩)
        ⟨0, 12⟩)]).arena.HoldsExpr .root (.neg (.int .minValue ⟨1, 12⟩) ⟨0, 12⟩) ⟨1⟩ :=
      ⟨⟨0⟩, rfl, by decide, rfl⟩
    exact ⟨_, _, ⟨.initial, _, 0⟩, ⟨1⟩, he, rfl, hholds, hends _ _ _ hholds 0⟩
  case label =>
    obtain ⟨c', hafter, hread⟩ := hlabel .minValue ": skip" .initial (.ofTokens leastCase)
      (by simp [IsDigit]) (by decide +kernel)
    exact ⟨c', hafter.trans (by decide +kernel), hread⟩

end Decimal

end Enquanto

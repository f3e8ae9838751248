import Enquanto.Proofs.NameHistory
import Enquanto.Proofs.ProgramInsertion
import Enquanto.Proofs.Spelling
import Mathlib

/-!
# Declarations that are not used

A declaration that is put among the instructions of a source makes no difference to its runs, as
long as no call behind it is meant for its function. All later functions and their frames get other
numbers, names are interned in another order, and everything behind it is at another place; but the
output, the input that is left, the root frame and the reason to stop are the same.

* `Translation.ofSpelling` and `Token.Spell`: the same strings, at any place;
* `InsertsUnused`: a source and the same one with a declaration that is not used;
* `InsertsUnused.exists_omits`: the program without the declaration;
* `Machine.run_omits`: a program without one of its functions runs alike;
* `Module.parse_inserted`: so does a source without a declaration that is not used.
-/

namespace Enquanto

open Grammar Lexer Run

/-! ## The tokens of a spelling -/

/-- Names stand for the same string in both tables, functions for themselves, and anything may lie
anywhere. -/
def Translation.ofSpelling (names names' : Names) : Translation :=
  ⟨names.SameString names', Eq, fun _ _ => True⟩

theorem Translation.reads_ofSpelling (names names' : Names) : (ofSpelling names names').Reads where
  name_iff hx hy := hx.eq_iff hy
  function _ := rfl
  nowhere := trivial
  merge _ _ := trivial
  point _ := trivial

section
variable {names names' : Names} {spelling : List (TokenKind String)} {ts ts' : List (Token Name)}

/-- The tokens are those of the spelling, with the names of its strings. -/
def Token.Spell (names : Names) : List (TokenKind String) → List (Token Name) → Prop :=
  List.Forall₂ fun kind t => kind.Named names t.kind

/-- Tokens with the same spelling. -/
theorem Token.Spell.translates (h : Spell names spelling ts) (h' : Spell names' spelling ts') :
    List.Forall₂ (Token.Translates (.ofSpelling names names')) ts ts' :=
  (forall₂_comp h.flip h').imp fun _ _ ⟨_, ht, ht'⟩ =>
    ⟨ht.translates (fun hx => hx) ht', trivial⟩

/-- The tokens of a source that are read. -/
theorem Lexer.spell_readable {source : String}
    (h : kinds source.toList = spelling ++ [.endOfFile]) (names : Names) :
    Token.Spell (lex source names).2 spelling (readable (lex source names).1) := by
  have hnamed : Token.Spell (lex source names).2 (kinds source.toList) (lex source names).1 :=
    map_kind_tokens source ▸ List.forall₂_map_left_iff.mpr
      ((Token.internAll_named (tokens source) (.refl _)).imp fun _ _ ht => ht.kind)
  rw [h, lex_eq_readable] at hnamed
  obtain ⟨ts, rest, hsplit, hts, hrest⟩ := forall₂_append_inv hnamed
  obtain ⟨rfl, -⟩ := List.append_inj' hsplit hrest.length_eq
  exact hts

theorem TokenKind.Named.keyword_iff {kind : TokenKind String} {kind' : TokenKind Name} {k : Keyword}
    (h : kind.Named names kind') : kind = .keyword k ↔ kind' = .keyword k := by
  cases h <;> simp

theorem TokenKind.Named.symbol_iff {kind : TokenKind String} {kind' : TokenKind Name} {s : Symbol}
    (h : kind.Named names kind') : kind = .symbol s ↔ kind' = .symbol s := by
  cases h <;> simp

theorem TokenKind.Named.exists_name {g : String} {kind : TokenKind Name}
    (h : (TokenKind.identifier g).Named names kind) :
    ∃ x, names.Holds g x ∧ kind = .identifier x := by
  cases h with
  | identifier hx => exact ⟨_, hx, rfl⟩

theorem Token.Spell.symbol_mem_iff (h : Spell names spelling ts) {s : Symbol} :
    .symbol s ∈ spelling ↔ .symbol s ∈ ts.map Token.kind := by
  induction h with
  | nil => simp
  | cons hk _ ih =>
    rw [List.mem_cons, List.map_cons, List.mem_cons, ih, eq_comm, hk.symbol_iff, eq_comm]

/-- The tokens of a declaration among others, and the name of its function. -/
theorem Token.Spell.exists_declaration {g : String} {lead rest trail : List (TokenKind String)}
    (h : Spell names (lead ++ (.keyword .definition :: .identifier g :: rest ++ trail)) ts) :
    ∃ x leadTokens d t inner trailTokens, ts = leadTokens ++ (d :: t :: inner ++ trailTokens) ∧
      names.Holds g x ∧ d.kind = .keyword .definition ∧ t.kind = .identifier x ∧
      Spell names lead leadTokens ∧ Spell names rest inner ∧ Spell names trail trailTokens := by
  obtain ⟨leadTokens, more, rfl, hlead, hmore⟩ := forall₂_append_inv h
  obtain ⟨declaration, trailTokens, rfl, hdeclaration, htrail⟩ := forall₂_append_inv hmore
  cases hdeclaration with
  | cons hd hrest =>
    cases hrest with
    | cons ht hinner =>
      obtain ⟨x, hx, ht⟩ := ht.exists_name
      exact ⟨x, leadTokens, _, _, _, trailTokens, rfl, hx, hd.keyword_iff.mp rfl, ht, hlead, hinner,
        htrail⟩

/-- What is behind a separator starts with one. -/
theorem Token.Spell.head_eq {s : Symbol} {after : List (List (TokenKind String))}
    (h : Spell names (after.flatMap (.symbol s :: ·)) ts) : ∀ t ∈ ts.head?, t.kind = .symbol s := by
  cases after with
  | nil =>
    cases h
    exact fun _ ht => nomatch ht
  | cons next after =>
    cases h with
    | cons hk _ =>
      rintro _ ⟨⟩
      exact hk.symbol_iff.mp rfl

/-- A name is declared first among the tokens if it is in the spelling. -/
theorem Grammar.DeclaredFirst.spell {g : String} {x : Name} (h : DeclaredFirst g spelling)
    (hx : names.Holds g x) (hts : Token.Spell names spelling ts) :
    DeclaredFirst x (ts.map Token.kind) := by
  intro before after heq
  have hkinds : List.Forall₂ (TokenKind.Named names) spelling (ts.map Token.kind) :=
    List.forall₂_map_right_iff.mpr hts
  rw [heq] at hkinds
  obtain ⟨front, back, rfl, hfront, hback⟩ := forall₂_append_inv hkinds.flip
  have hcall : ∃ rest, back = .identifier g :: .symbol .openParen :: rest := by
    cases hback with
    | cons hname hback =>
      cases hback with
      | cons hparen hrest =>
        cases hparen
        cases hname with
        | identifier hname => exact ⟨_, by rw [← hx.text_eq, hname.text_eq]⟩
  obtain ⟨rest, rfl⟩ := hcall
  obtain ⟨start, stop, hinfix⟩ := h front rest rfl
  have hdeclared : List.Forall₂ (TokenKind.Named names) (front ++ [.identifier g])
      (before ++ [.identifier x]) :=
    List.rel_append hfront.flip (.cons (.identifier hx) .nil)
  rw [← hinfix, List.append_assoc] at hdeclared
  obtain ⟨start', rest', hsplit, -, hrest⟩ := forall₂_append_inv hdeclared
  cases hrest with
  | cons hdef hrest =>
    cases hrest with
    | @cons _ _ _ stop' hname _ =>
      cases hdef
      cases hname with
      | @identifier _ y hy =>
        obtain rfl : y = x := congrArg Prod.fst (hy.symm.trans hx)
        exact ⟨start', stop', by rw [hsplit, List.append_assoc]; rfl⟩

end

/-! ## Without the declaration -/

/-- The tokens of the second source are those of the first one with the declaration of a function
put between two of its instructions, or at either end; behind it, this function is not called before
its name is declared again. Comments, blanks and line feeds do not matter. -/
inductive InsertsUnused (source source' : String) : Prop
  | intro {before after : List (List (TokenKind String))} {g : String}
      {rest : List (TokenKind String)} :
    kinds source.toList = [.symbol .semicolon].intercalate (before ++ after) ++ [.endOfFile] →
    kinds source'.toList = [.symbol .semicolon].intercalate
      (before ++ (.keyword .definition :: .identifier g :: rest) :: after) ++ [.endOfFile] →
    .symbol .semicolon ∉ rest →
    DeclaredFirst g ([.symbol .semicolon].intercalate after) →
    InsertsUnused source source'

/-- The strings of names are the same, and so is the order of functions, but for the one with number
`n`. -/
def Translation.ofOmission (n : Nat) (names names' : Names) : Translation :=
  (ofFunctions (FunctionId.Renumbered n)).comp (ofSpelling names names')

theorem Translation.injective_ofOmission (n : Nat) (names names' : Names) :
    (ofOmission n names names').Injective where
  name_iff := by
    rintro x x' y y' ⟨_, rfl, hx⟩ ⟨_, rfl, hy⟩
    exact hx.eq_iff hy
  function_iff := by
    rintro f f' g g' ⟨_, hf, rfl⟩ ⟨_, hg, rfl⟩
    exact hf.eq_iff hg

/-- If the source with the declaration is a program, the other one is this program without it. -/
theorem InsertsUnused.exists_omits {source source' : String} (h : InsertsUnused source source')
    {names' : Names} {p : Program}
    (hp : Program.parse (lex source' names').2 (lex source' names').1 = .ok p) (names : Names) :
    ∃ n q, Program.parse (lex source names).2 (lex source names).1 = .ok q ∧
      p.Omits (.ofOmission n (lex source' names').2 (lex source names).2) n q := by
  obtain @⟨before, after, g, rest, hsource, hsource', hrest, hfirst⟩ := h
  rw [intercalate_append] at hsource
  rw [intercalate_append_cons] at hsource'
  have hspell := Lexer.spell_readable hsource names
  have hspell' := Lexer.spell_readable hsource' names'
  obtain ⟨x, lead, d, t, inner, trail, htokens, hx, hd, ht, hlead, hinner, htrail⟩ :=
    hspell'.exists_declaration
  have hbehind : DeclaredFirst x (trail.tail.map Token.kind) := by
    refine hfirst.spell hx ?_
    rw [← tail_flatMap_cons, ← List.drop_one, ← List.drop_one]
    exact List.forall₂_drop 1 htrail
  -- The tokens that are left, and an end of file.
  let left := without lead trail
  have hsubset : left ⊆ readable (lex source' names').1 := by
    intro t ht
    have hmem := without_subset lead trail ht
    rw [htokens]
    simp only [List.mem_append] at hmem ⊢
    exact hmem.imp_right .inr
  obtain ⟨n, q, hq, homits⟩ := Program.parse_omits hp htokens hd ht
    (mt hinner.symbol_mem_iff.mpr hrest) htrail.head_eq hbehind
    (readable_of_subset hsubset .nowhere)
  have hleft : Token.Spell (lex source' names').2 _ left := forall₂_without hlead htrail
  have htranslates : List.Forall₂
      (Token.Translates (.ofSpelling (lex source' names').2 (lex source names).2))
      (left ++ [⟨.endOfFile, .nowhere⟩])
      (readable (lex source names).1 ++
        [⟨.endOfFile, .point (min source.utf8ByteSize Span.maxOffset)⟩]) :=
    List.rel_append (hleft.translates hspell) (.cons ⟨.endOfFile, trivial⟩ .nil)
  rw [← lex_eq_readable] at htranslates
  obtain ⟨q', hq', hprograms⟩ := Program.exists_parse_translates (Translation.reads_ofSpelling _ _)
    (fun hx => hx.text_eq) htranslates hq
  exact ⟨n, q', hq', homits.comp hprograms⟩

/-! ## The same runs -/

/-- States with the same output, the same input left and the same root frame, once names are
resolved. -/
structure State.SameRoot (names names' : Names) (s t : State) : Prop where
  root : (s.env.resolve names).head? = (t.env.resolve names').head?
  output : s.output = t.output
  input : s.input = t.input

namespace Machine

variable {m m' : Machine} {names names' : Names} {p q : Program} {n maxDepth : Nat}

/-- A program without one of its functions stops for the same reason, if it stops, in a state with
the same root frame. -/
theorem run_omits (hm : m.Serves ⟨names, p, maxDepth⟩) (hm' : m'.Serves ⟨names', q, maxDepth⟩)
    (h : p.Omits (.ofOmission n names names') n q) (fuel : Nat) (input : Input) :
    Outcomes (.ofSpelling names names') (State.SameRoot names names')
      (m.run fuel (start m.module input)) (m'.run fuel (start m'.module input)) := by
  have htext : ∀ {x x'}, (Translation.ofOmission n names names').name x x' →
      names.text x = names'.text x' := by
    rintro x x' ⟨_, rfl, hx⟩
    exact hx.text_eq
  have hfunction : ∀ {f f'}, (Translation.ofOmission n names names').function f f' →
      f.Renumbered n f' := by
    rintro f f' ⟨_, hf, rfl⟩
    exact hf
  have hw : Setting.Translates (.ofOmission n names names') ⟨names, p, maxDepth⟩
      ⟨names', q, maxDepth⟩ :=
    ⟨htext, rfl, fun hf => h.declaration (hfunction hf)⟩
  have hrun := run_start_similar (Translation.injective_ofOmission n names names') hm hm' hw
    h.commands (fun hf => h.lt_iff (hfunction hf)) fuel input
  refine hrun.imp (fun _ => trivial) fun s t hst => ⟨?_, hst.output, hst.input⟩
  rw [List.head?_eq_getElem?, List.head?_eq_getElem?]
  exact hst.env.getElem?_resolve_eq htext .root

end Machine

/-- A declaration that is not used has no effect: where the source with it is a module, so is the
one without it, and from every input, with every limit to the open calls and every amount of fuel,
both stop for the same reason or at the same value, with the same output, the same input left and
the same root frame. -/
theorem Module.parse_inserted {source source' : String} (h : InsertsUnused source source')
    {names' table' : Names} {m' : Module} (hm' : Module.parse source' names' = (.ok m', table'))
    (names : Names) : ∃ m table, Module.parse source names = (.ok m, table) ∧
      ∀ (maxDepth fuel : Nat) (input : Input),
        Outcomes (.ofSpelling table' table) (State.SameRoot table' table)
          (Machine.run ⟨table', m', maxDepth⟩ fuel (Machine.start m' input))
          (Machine.run ⟨table, m, maxDepth⟩ fuel (Machine.start m input)) := by
  obtain ⟨p, rfl, hp⟩ := exists_program_of_parse hm'
  obtain rfl : (lex source' names').2 = table' := congrArg Prod.snd hm'
  obtain ⟨n, q, hq, homits⟩ := h.exists_omits hp names
  refine ⟨.ofProgram q, (lex source names).2, ?_, fun maxDepth fuel input => ?_⟩
  · show ((Program.parse (lex source names).2 (lex source names).1).map ofProgram, _) = _
    rw [hq]
    rfl
  · exact Machine.run_omits (Machine.serves_ofProgram hp maxDepth)
      (Machine.serves_ofProgram hq maxDepth) homits fuel input

/-- A function that never ends, which is put before another one of its name. -/
theorem Module.parse_inserted_redeclared : ∃ (m m' : Module) (table table' : Names),
    InsertsUnused "x := 1; def g(a) = a + x; escreva g(2)"
      "x := 1; def g(b) = g(b); def g(a) = a + x; escreva g(2)" ∧
    Module.parse "x := 1; def g(b) = g(b); def g(a) = a + x; escreva g(2)" .initial =
      (.ok m', table') ∧
    Module.parse "x := 1; def g(a) = a + x; escreva g(2)" .initial = (.ok m, table) ∧
    (∀ (maxDepth fuel : Nat) (input : Input),
      Outcomes (.ofSpelling table' table) (State.SameRoot table' table)
        (Machine.run ⟨table', m', maxDepth⟩ fuel (Machine.start m' input))
        (Machine.run ⟨table, m, maxDepth⟩ fuel (Machine.start m input))) ∧
    ∃ s, Machine.run ⟨table', m', 10⟩ 20 (Machine.start m' ⟨[], []⟩) = .ok () s ∧
      s.output = "3\n" := by
  have hinserts : InsertsUnused "x := 1; def g(a) = a + x; escreva g(2)"
      "x := 1; def g(b) = g(b); def g(a) = a + x; escreva g(2)" :=
    @InsertsUnused.intro _ _ [[.identifier "x", .symbol .assign, .integer 1]]
      [[.keyword .definition, .identifier "g", .symbol .openParen, .identifier "a",
          .symbol .closeParen, .symbol .equal, .identifier "a", .symbol .plus, .identifier "x"],
        [.keyword .escreva, .identifier "g", .symbol .openParen, .integer 2, .symbol .closeParen]]
      "g" [.symbol .openParen, .identifier "b", .symbol .closeParen, .symbol .equal,
        .identifier "g", .symbol .openParen, .identifier "b", .symbol .closeParen]
      (by decide +kernel) (by decide +kernel) (by decide) (DeclaredFirst.definition _ _)
  have hparse : Module.parse "x := 1; def g(b) = g(b); def g(a) = a + x; escreva g(2)" .initial =
      (.ok (.ofProgram [.command (.assign ⟨1⟩ (.int 1 ⟨5, 6⟩) ⟨0, 6⟩),
        .declare ⟨⟨2⟩, [⟨3⟩], .call ⟨0⟩ [.var ⟨3⟩ ⟨21, 22⟩] ⟨19, 23⟩, ⟨8, 18⟩⟩,
        .declare ⟨⟨2⟩, [⟨4⟩], .arith .add (.var ⟨4⟩ ⟨36, 37⟩) (.var ⟨1⟩ ⟨40, 41⟩) ⟨36, 41⟩,
          ⟨25, 35⟩⟩,
        .command (.printInt (.call ⟨1⟩ [.int 2 ⟨53, 54⟩] ⟨51, 55⟩) ⟨43, 55⟩)]),
        ⟨#["", "x", "g", "b", "a"]⟩) := by
    decide +kernel
  obtain ⟨m, table, hm, hrun⟩ := parse_inserted hinserts hparse .initial
  refine ⟨m, _, table, _, hinserts, hparse, hm, hrun, ?_⟩
  exact ⟨⟨⟨#[⟨.root, [(⟨1⟩, 1)]⟩, ⟨.root, []⟩, ⟨.root, [(⟨4⟩, 2)]⟩]⟩, ⟨[], []⟩, "3\n"⟩, by cbv, rfl⟩

end Enquanto

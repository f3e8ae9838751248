import Enquanto.Proofs.CallTargets
import Enquanto.Proofs.ErrorSpans
import Enquanto.Proofs.Faults
import Enquanto.Proofs.Nodes
import Enquanto.Proofs.Tokenisation

/-!
# Spans in a source

Offsets have 32 bits. Where they reach to the end of a source, every span that comes from reading it
lies within it, between characters. The spans of nodes start and end with tokens, contain the spans
of their parts, and those do not overlap.

* `Span.Within`: a span lies within a source, with both ends between characters;
* `Span.Within.isSome_charsBefore`: the start of such a span has a line and a column of its own;
* `Lexer.exists_tokens_eq`, `Grammar.runs_lex`: the tokens of a source, and those that are read,
  come one behind the other;
* `Arena.Spanned`: what the spans of nodes have to do with a source and its tokens;
* `Module.parse_spans`: all spans of a module, of an error, and of a fault.
-/

namespace Enquanto

open Grammar Lexer Lexical

namespace Span

/-- The span lies within the source, and its ends are between characters. -/
structure Within (span : Span) (source : String) : Prop where
  start_le_stop : span.start ≤ span.stop
  stop_le : span.stop ≤ source.utf8ByteSize
  start_valid : String.Pos.Raw.IsValid source ⟨span.start⟩
  stop_valid : String.Pos.Raw.IsValid source ⟨span.stop⟩

variable {source : String} {span : Span}

/-- The offset after a part of a source is between characters. -/
theorem isValid_byteLength {before after : List Char} (h : source.toList = before ++ after) :
    String.Pos.Raw.IsValid source ⟨byteLength before⟩ := by
  refine String.Pos.Raw.isValid_iff_exists_append.mpr
    ⟨String.ofList before, String.ofList after, ?_, ?_⟩
  · rw [← String.ofList_append, ← h, String.ofList_toList]
  · rw [← String.toList_ofList (l := before), byteLength_toList]
    simp [String.rawEndPos]

theorem Cuts.within {before inside after : List Char}
    (h : span.Cuts source.toList before inside after) : span.Within source := by
  have hstart : source.toList = before ++ (inside ++ after) := by rw [h.split, List.append_assoc]
  refine ⟨h.start_le_stop, byteLength_toList source ▸ h.stop_le, ?_, ?_⟩
  · rw [h.start]
    exact isValid_byteLength hstart
  · rw [h.stop]
    exact isValid_byteLength h.split

/-- Spans within a source stay within it when they are merged. -/
theorem closed_within (source : String) : Closed (·.Within source) where
  nowhere := ⟨Nat.le_refl _, Nat.zero_le _, String.Pos.Raw.isValid_zero,
    String.Pos.Raw.isValid_zero⟩
  merge := by
    intro s t hs ht
    have hstart : String.Pos.Raw.IsValid source ⟨(s.merge t).start⟩ := by
      rcases Nat.le_total s.start t.start with hle | hle
      · rw [merge_start, Nat.min_eq_left hle]
        exact hs.start_valid
      · rw [merge_start, Nat.min_eq_right hle]
        exact ht.start_valid
    have hstop : String.Pos.Raw.IsValid source ⟨(s.merge t).stop⟩ := by
      rcases Nat.le_total s.stop t.stop with hle | hle
      · rw [merge_stop, Nat.max_eq_right hle]
        exact ht.stop_valid
      · rw [merge_stop, Nat.max_eq_left hle]
        exact hs.stop_valid
    refine ⟨?_, hstop.le_utf8ByteSize, hstart, hstop⟩
    have hle := hs.start_le_stop
    rw [merge_start, merge_stop]
    omega

theorem charsBefore_byteLength (count : Nat) (before after : List Char) :
    charsBefore count (byteLength before) (before ++ after) = some (count + before.length) := by
  induction before generalizing count with
  | nil => simp [charsBefore]
  | cons c before ih =>
    have hpos := c.utf8Size_pos
    obtain ⟨n, hn⟩ : ∃ n, byteLength (c :: before) = n + 1 :=
      Nat.exists_eq_add_one.mpr (by rw [byteLength_cons]; omega)
    have hrest : n + 1 - c.utf8Size = byteLength before := by
      rw [byteLength_cons] at hn
      omega
    have hle : c.utf8Size ≤ n + 1 := by
      rw [byteLength_cons] at hn
      omega
    rw [hn, List.cons_append, charsBefore, if_pos hle, hrest, ih, List.length_cons]
    congr 1
    omega

/-- A span within a source does not start inside a character. -/
theorem Within.isSome_charsBefore (h : span.Within source) :
    (charsBefore 0 span.start source.toList).isSome := by
  obtain ⟨before, after, hsource, hstart⟩ :=
    String.Pos.Raw.isValid_iff_exists_append.mp h.start_valid
  have hlen : span.start = byteLength before.toList := by
    rw [byteLength_toList]
    exact congrArg String.Pos.Raw.byteIdx hstart
  rw [hlen, hsource, String.toList_append, charsBefore_byteLength]
  rfl

end Span

/-! ## Tokens -/

theorem Grammar.runs_of_pairwise {ts : List (Token Name)} {a b : Nat} (hab : a ≤ b)
    (hbounds : ∀ t ∈ ts, a ≤ t.span.start ∧ t.span.Filled ∧ t.span.stop ≤ b)
    (h : ts.Pairwise fun t u => t.span.stop ≤ u.span.start) : Runs a b ts := by
  induction h generalizing a with
  | nil => exact hab
  | @cons t ts hlater _ ih =>
    obtain ⟨⟨ha, ht, hb⟩, hrest⟩ := List.forall_mem_cons.mp hbounds
    exact ⟨ha, ht, ih hb fun u hu => ⟨hlater u hu, (hrest u hu).2⟩⟩

theorem Token.isEndOfFile_iff {t : Token Name} : t.isEndOfFile = true ↔ t.kind = .endOfFile := by
  simp [isEndOfFile, toClass, TokenKind.toClass_eq_endOfFile_iff]

theorem Grammar.isEndOfFile_of_mem_readable {t : Token Name} {ts : List (Token Name)}
    (h : t ∈ readable ts) : t.isEndOfFile = false := by
  simpa using List.mem_takeWhile_imp h

theorem TokenKind.spelled_eq_endOfFile_iff {names : Names} {kind : TokenKind Name} :
    kind.spelled names = .endOfFile ↔ kind = .endOfFile := by
  cases kind <;> simp [spelled]

/-- The tokens of a source have filled spans, one behind the other, up to the end of file at its
length, or at the last offset. -/
theorem Lexer.exists_tokens_eq (source : String) : ∃ others,
    tokens source = others ++ [⟨.endOfFile, .point (min source.utf8ByteSize Span.maxOffset)⟩] ∧
    (∀ t ∈ others, t.kind ≠ .endOfFile ∧ t.span.Filled ∧
      t.span.stop ≤ min source.utf8ByteSize Span.maxOffset) ∧
    others.Pairwise fun t u => t.span.stop ≤ u.span.start := by
  have htokens := lexemes_isTokenisation source
  obtain ⟨others, heq, hothers⟩ := htokens.ending
  have hmem (t : Token String) (ht : t ∈ others) : t ∈ lexemes 0 source.toList :=
    heq ▸ List.mem_append_left _ ht
  have hspan (t : Token String) (ht : t ∈ others) : t.fit.span =
      ⟨min t.span.start Span.maxOffset, min t.span.stop Span.maxOffset⟩ :=
    Span.ofRange_eq (htokens.stop_le t (hmem t ht)).1
  have hordered := htokens.ordered
  rw [heq] at hordered
  refine ⟨others.map Token.fit, ?_, List.forall_mem_map.mpr fun t ht => ?_, ?_⟩
  · rw [tokens, heq, List.map_append]
    simp [Token.fit, Span.point, Span.ofRange_eq]
  · have hstop := (htokens.stop_le t (hmem t ht)).2
    refine ⟨(hothers t ht).1, Span.filled_ofRange (hothers t ht).2, ?_⟩
    rw [hspan t ht]
    exact Nat.le_min.mpr ⟨Nat.le_trans (Nat.min_le_left ..) hstop, Nat.min_le_right ..⟩
  · refine List.pairwise_map.mpr ((List.pairwise_append.mp hordered).1.imp_of_mem ?_)
    intro t u ht hu hle
    rw [hspan t ht, hspan u hu]
    simp only
    omega

section
variable {source : String} {names : Names}

theorem spelled_lex (source : String) (names : Names) :
    (lex source names).1.map (Token.spelled (lex source names).2) = tokens source :=
  Token.spelled_internAll (tokens source) names

theorem spelled_mem_lexemes (hsize : source.utf8ByteSize ≤ Span.maxOffset) {t : Token Name}
    (h : t ∈ (lex source names).1) :
    t.spelled (lex source names).2 ∈ lexemes 0 source.toList := by
  rw [← tokens_eq hsize, ← spelled_lex source names]
  exact List.mem_map_of_mem h

/-- The tokens of a source have their spans within it. -/
theorem within_of_mem_lex (hsize : source.utf8ByteSize ≤ Span.maxOffset) {t : Token Name}
    (h : t ∈ (lex source names).1) : t.span.Within source := by
  obtain ⟨before, inside, after, hcuts⟩ :=
    (lexemes_isTokenisation source).exists_cuts _ (spelled_mem_lexemes hsize h)
  exact hcuts.within

/-- The tokens that are read are not empty. -/
theorem Grammar.start_lt_stop_of_mem_readable (hsize : source.utf8ByteSize ≤ Span.maxOffset)
    {t : Token Name} (h : t ∈ readable (lex source names).1) : t.span.start < t.span.stop := by
  obtain ⟨others, heq, hothers⟩ := (lexemes_isTokenisation source).ending
  have hmem := spelled_mem_lexemes hsize (List.takeWhile_subset _ h)
  rw [heq] at hmem
  rcases List.mem_append.mp hmem with hmem | hmem
  · exact (hothers _ hmem).2
  · have hend := TokenKind.spelled_eq_endOfFile_iff.mp
      (congrArg Token.kind (List.mem_singleton.mp hmem))
    rw [← Token.isEndOfFile_iff, isEndOfFile_of_mem_readable h] at hend
    cases hend

/-- All tokens of a source are read, up to the end of file at its length. -/
theorem Grammar.lex_eq_readable (source : String) (names : Names) :
    (lex source names).1 = readable (lex source names).1 ++
      [⟨.endOfFile, .point (min source.utf8ByteSize Span.maxOffset)⟩] := by
  obtain ⟨others, heq, hothers, -⟩ := exists_tokens_eq source
  rw [← spelled_lex source names] at heq
  obtain ⟨ts, rest, hsplit, rfl, hrest⟩ := List.map_eq_append_iff.mp heq
  obtain ⟨⟨kind, span⟩, rfl, hlast⟩ := List.map_eq_singleton_iff.mp hrest
  obtain rfl : kind = .endOfFile :=
    TokenKind.spelled_eq_endOfFile_iff.mp (congrArg Token.kind hlast)
  obtain rfl : span = .point _ := congrArg Token.span hlast
  rw [hsplit, readable, List.takeWhile_append_of_pos fun t ht => ?_]
  · simp [Token.isEndOfFile, Token.toClass, TokenKind.toClass]
  · have hkind := (hothers _ (List.mem_map_of_mem ht)).1
    rw [Token.spelled_kind, ne_eq, TokenKind.spelled_eq_endOfFile_iff] at hkind
    simpa using mt Token.isEndOfFile_iff.mp hkind

/-- The tokens that are read come one behind the other. -/
theorem Grammar.runs_lex (source : String) (names : Names) :
    Runs 0 (min source.utf8ByteSize Span.maxOffset) (readable (lex source names).1) := by
  obtain ⟨others, heq, hothers, hordered⟩ := exists_tokens_eq source
  rw [← spelled_lex source names, lex_eq_readable source names, List.map_append] at heq
  obtain ⟨rfl, -⟩ := List.append_inj' heq rfl
  refine runs_of_pairwise (Nat.zero_le _) (fun t ht => ?_) (List.pairwise_map.mp hordered)
  exact ⟨Nat.zero_le _, (hothers _ (List.mem_map_of_mem ht)).2⟩

end

/-! ## Nodes, errors and faults -/

/-- The spans of all nodes lie within the source, between characters, and start and end with tokens.
They contain the spans of the parts of the nodes, which do not overlap. -/
structure Arena.Spanned (a : Arena) (source : String) (tokens : List (Token Name)) : Prop where
  within : ∀ n span, a.span? n = some span → span.Within source
  endsOn : ∀ n span, a.span? n = some span → span.EndsOn tokens
  parts : ∀ n span, a.span? n = some span → ∃ (parts : List Node) (spans : List Span),
    a.parts? n = some parts ∧ parts.map a.span? = spans.map some ∧
    (∀ s ∈ spans, span.start ≤ s.start ∧ s.stop ≤ span.stop) ∧
    spans.Pairwise fun s t => s.stop ≤ t.start

theorem Span.EndsOn.within {span : Span} {source : String} {ts : List (Token Name)}
    (h : span.EndsOn ts) (hts : ∀ t ∈ ts, t.span.Within source) (hle : span.start ≤ span.stop) :
    span.Within source := by
  obtain ⟨⟨t, ht, hstart⟩, u, hu, hstop⟩ := h
  obtain ⟨start, stop⟩ := span
  refine ⟨hle, ?_, ?_, ?_⟩
  · rw [hstop]
    exact (hts u hu).stop_le
  · rcases hstart with hstart | hstart
    · rw [hstart]
      exact (hts t ht).start_valid
    · rw [hstart]
      exact (hts t ht).stop_valid
  · rw [hstop]
    exact (hts u hu).stop_valid

/-- In an arena that was laid out from what was read, spans are as they should be. -/
theorem Arena.Laid.spanned {a : Arena} {f : Flattening} {source : String}
    {ts tokens : List (Token Name)} {C : Expr → Prop} (h : Laid {} a f) (hf : f.ReadFrom ts C)
    (hts : ts ⊆ tokens) (htokens : ∀ t ∈ tokens, t.span.Within source) :
    a.Spanned source tokens := by
  have hnode (n : Node) (span : Span) (hn : a.span? n = some span) :
      span.EndsOn tokens ∧ ∃ (parts : List Node) (spans : List Span), a.parts? n = some parts ∧
        parts.map a.span? = spans.map some ∧ Span.InOrder span.start span.stop spans := by
    obtain ⟨scope, t, hholds, hlies⟩ := h.exists_liesAmong hf hn
    obtain ⟨hspan, parts, hparts, hchildren⟩ := hholds.node
    cases hn.symm.trans hspan
    exact ⟨hlies.endsOn.mono hts, parts, t.parts, hparts, Holds.map_span? hchildren, hlies.inOrder⟩
  refine ⟨fun n span hn => ?_, fun n span hn => (hnode n span hn).1, fun n span hn => ?_⟩
  · obtain ⟨hends, _, _, -, -, hin⟩ := hnode n span hn
    exact hends.within htokens hin.le
  · obtain ⟨-, parts, spans, hparts, hspans, hin⟩ := hnode n span hn
    exact ⟨parts, spans, hparts, hspans, hin.inside, hin.pairwise⟩

/-- The span of a fault is the span of a node. -/
theorem Fault.RaisedIn.exists_node {a : Arena} {maxDepth : Nat} {f : Fault}
    (h : f.RaisedIn a maxDepth) : ∃ n span, f.span = some span ∧ a.span? n = some span := by
  cases h with
  | @division id _ _ _ hn | @read id _ _ hn | @limit id _ _ _ hn =>
    exact ⟨.expr id, _, rfl, by simp [Arena.span?, hn]⟩

/-- A failure of reading a source, or of running it or one of its commands, from any state. -/
inductive Failure.Of (source : String) (names : Names) : Failure → Prop
  | parse {e : ParseError} {names' : Names} : Module.parse source names = (.error e, names') →
      Failure.Of source names (.parse e)
  | run {m : Module} {names' : Names} {maxDepth fuel : Nat} {s s' : State} {halt : Halt} :
    Module.parse source names = (.ok m, names') →
    Machine.run ⟨names', m, maxDepth⟩ fuel s = .error halt s' →
      Failure.Of source names (.halt halt)
  | exec {m : Module} {names' : Names} {maxDepth fuel : Nat} {id : CommandId} {s s' : State}
      {halt : Halt} :
    Module.parse source names = (.ok m, names') → id.index < m.arena.commands.size →
    Machine.exec ⟨names', m, maxDepth⟩ fuel id s = .error halt s' →
      Failure.Of source names (.halt halt)

namespace Module

variable {source : String} {names names' : Names}

theorem spanned_of_parse (hsize : source.utf8ByteSize ≤ Span.maxOffset) {m : Module}
    (h : Module.parse source names = (.ok m, names')) :
    m.arena.Spanned source (lex source names).1 := by
  obtain ⟨program, rfl, hp⟩ := exists_program_of_parse h
  have hread := Program.parse_readFrom hp (runs_lex source names)
  exact (ofProgram_represents program).arena.spanned hread (List.takeWhile_subset _)
    fun t => within_of_mem_lex hsize

theorem within_of_parse_error (hsize : source.utf8ByteSize ≤ Span.maxOffset) {e : ParseError}
    (h : Module.parse source names = (.error e, names')) : e.span.Within source := by
  have hp : Program.parse (lex source names).2 (lex source names).1 = .error e := by
    have hfst := congrArg Prod.fst h
    simp only [Module.parse] at hfst
    cases hp : Program.parse (lex source names).2 (lex source names).1 with
    | error e' =>
      rw [hp] at hfst
      cases hfst
      rfl
    | ok program =>
      rw [hp] at hfst
      cases hfst
  have hclosed := Span.closed_within source
  exact Program.span_of_parse_error hclosed (fun t => within_of_mem_lex hsize) hp

/-- A fault on the machine of a source has its place within the source. -/
theorem within_of_runsSafely (hsize : source.utf8ByteSize ≤ Span.maxOffset) {m : Module}
    {maxDepth : Nat} {run : Run Unit} {s s' : State} {halt : Halt}
    (h : Module.parse source names = (.ok m, names'))
    (hsafe : Machine.RunsSafely ⟨names', m, maxDepth⟩ run) (hrun : run s = .error halt s') :
    halt = .outOfFuel ∨ ∃ span, (Failure.halt halt).span = some span ∧ span.Within source := by
  refine (hsafe s halt s' hrun).imp_right ?_
  rintro ⟨f, rfl, hraised, -⟩
  obtain ⟨n, span, hspan, hn⟩ := hraised.exists_node
  exact ⟨span, hspan, (spanned_of_parse hsize h).within n span hn⟩

end Module

theorem Failure.Of.within {source : String} {names : Names} {failure : Failure}
    (hsize : source.utf8ByteSize ≤ Span.maxOffset) (h : Failure.Of source names failure) :
    failure = .halt .outOfFuel ∨ ∃ span, failure.span = some span ∧ span.Within source := by
  cases h with
  | @parse e _ hp => exact .inr ⟨e.span, rfl, Module.within_of_parse_error hsize hp⟩
  | @run m _ maxDepth fuel _ _ _ hp hrun =>
    obtain ⟨program, -, hserves⟩ := Machine.serves_of_parse hp
    have hsafe := (hserves maxDepth).runsSafely_run fuel
    exact (Module.within_of_runsSafely hsize hp hsafe hrun).imp_left (congrArg Failure.halt)
  | @exec m _ maxDepth fuel id _ _ _ hp hid hexec =>
    obtain ⟨program, -, hserves⟩ := Machine.serves_of_parse hp
    have hsafe := (hserves maxDepth).runsSafely_exec hid fuel
    exact (Module.within_of_runsSafely hsize hp hsafe hexec).imp_left (congrArg Failure.halt)

/-- Every span that comes from a source that does not pass the last offset lies within it, between
characters: those of nodes, of which more is said, and those of errors and faults, which are
therefore shown with the line and column at which they start. -/
theorem Module.parse_spans (source : String) (names : Names)
    (hsize : source.utf8ByteSize ≤ Span.maxOffset) :
    (∀ m names', Module.parse source names = (.ok m, names') →
      m.arena.Spanned source (lex source names).1) ∧
    ∀ failure, Failure.Of source names failure → failure = .halt .outOfFuel ∨
      ∃ span, failure.span = some span ∧ span.Within source ∧
        (Span.charsBefore 0 span.start source.toList).isSome := by
  refine ⟨fun m names' h => spanned_of_parse hsize h,
    fun failure h => (h.within hsize).imp_right ?_⟩
  rintro ⟨span, hspan, hwithin⟩
  exact ⟨span, hspan, hwithin, hwithin.isSome_charsBefore⟩

/-- A source with a character of two bytes, and a division by zero behind it. -/
def accented : String := "exiba \"é\"; escreva 1 / 0"

/-- The program of `accented`. -/
def accentedProgram : Program :=
  [.command (.printText ⟨1⟩ ⟨0, 10⟩), .command (.printInt
    (.arith .div (.int 1 ⟨20, 21⟩) (.int 0 ⟨24, 25⟩) ⟨20, 25⟩) ⟨12, 25⟩)]

/-- The fault of the division is at the twentieth character, which is not the twentieth byte. -/
theorem Module.parse_spans_accented : ∃ (m : Module) (names' : Names),
    Module.parse accented .initial = (.ok m, names') ∧
    m.arena.Spanned accented (lex accented .initial).1 ∧
    ∀ s : State, ∃ f span, Machine.exec ⟨names', m, 10⟩ 3 ⟨1⟩ s = .error (.fault f) s ∧
      f.span = some span ∧ span.Within accented ∧ span.lineColumn accented = (1, 20) := by
  have h : Module.parse accented .initial =
      (.ok (.ofProgram accentedProgram), ⟨#["", "é"]⟩) := by
    decide +kernel
  obtain ⟨hspanned, hfailure⟩ := Module.parse_spans accented .initial (by decide +kernel)
  refine ⟨_, _, h, hspanned _ _ h, fun s => ?_⟩
  have hexec : Machine.exec ⟨⟨#["", "é"]⟩, .ofProgram accentedProgram, 10⟩ 3 ⟨1⟩ s =
      .error (.fault ⟨.divisionByZero, some ⟨20, 25⟩⟩) s := rfl
  obtain hfuel | ⟨span, hspan, hwithin, -⟩ := hfailure _ (.exec h (by decide) hexec)
  · cases hfuel
  · cases hspan
    exact ⟨_, _, hexec, rfl, hwithin, by decide +kernel⟩

end Enquanto

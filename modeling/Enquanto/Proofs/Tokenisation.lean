import Enquanto.Proofs.LexicalRules
import Mathlib.Data.List.Chain

/-!
# Tokenisation

The lexer cuts the whole source, from left to right, into the tokens that the lexical rules give.
Nothing is lost: between tokens there is only layout, and the end of file comes at the end.

* `Span.Cuts`: a span covers a part of a source, and both its ends are between characters;
* `IsTokenisation`: what a token list has to do with its source;
* `Scanned`: how the lexer goes through a source, lexeme by lexeme, and `lexemes_scanned`;
* `lexemes_isTokenisation`: the lexer gives the tokenisation of its source, whatever its length;
* `Lexer.tokens_eq`: the spans fit if the last offset is not passed;
* `lex_isTokenisation`: with the names in the table, for sources with offsets of 32 bits.
-/

namespace Enquanto

open Lexer

/-! ## Bytes -/

namespace Lexer

@[simp] theorem byteLength_nil : byteLength [] = 0 := rfl

@[simp] theorem byteLength_cons (c : Char) (cs : List Char) :
    byteLength (c :: cs) = c.utf8Size + byteLength cs := rfl

@[simp] theorem byteLength_append (cs ds : List Char) :
    byteLength (cs ++ ds) = byteLength cs + byteLength ds := by
  induction cs with
  | nil => simp
  | cons c cs ih => simp [ih, Nat.add_assoc]

theorem byteLength_eq_zero_iff {cs : List Char} : byteLength cs = 0 ↔ cs = [] := by
  cases cs with
  | nil => simp
  | cons c cs =>
    have hpos := c.utf8Size_pos
    simp only [byteLength_cons, reduceCtorEq, iff_false]
    omega

theorem byteLength_toList (source : String) : byteLength source.toList = source.utf8ByteSize := by
  have h (cs : List Char) : byteLength cs = (String.ofList cs).utf8ByteSize := by
    induction cs with
    | nil => simp
    | cons c cs ih =>
      rw [← List.singleton_append, String.ofList_append, String.utf8ByteSize_append, ← ih]
      simp
  rw [h, String.ofList_toList]

/-- There is one place in a source with a given offset. -/
theorem eq_of_byteLength_eq {before before' rest rest' : List Char}
    (h : before ++ rest = before' ++ rest') (hlen : byteLength before = byteLength before') :
    before = before' := by
  rcases List.append_eq_append_iff.mp h with ⟨more, rfl, -⟩ | ⟨more, rfl, -⟩
  · have hmore : byteLength more = 0 := by
      rw [byteLength_append] at hlen
      omega
    rw [byteLength_eq_zero_iff.mp hmore, List.append_nil]
  · have hmore : byteLength more = 0 := by
      rw [byteLength_append] at hlen
      omega
    rw [byteLength_eq_zero_iff.mp hmore, List.append_nil]

end Lexer

/-- The span covers the part `inside` of a source. -/
structure Span.Cuts (span : Span) (source before inside after : List Char) : Prop where
  split : source = before ++ inside ++ after
  start : span.start = byteLength before
  stop : span.stop = byteLength (before ++ inside)

namespace Span.Cuts

variable {span : Span} {source before inside after : List Char}

theorem start_le_stop (h : span.Cuts source before inside after) : span.start ≤ span.stop := by
  rw [h.start, h.stop, byteLength_append]
  exact Nat.le_add_right ..

theorem stop_le (h : span.Cuts source before inside after) : span.stop ≤ byteLength source := by
  rw [h.stop, h.split, byteLength_append (before ++ inside)]
  exact Nat.le_add_right ..

end Span.Cuts

namespace Lexical

/-- The tokens of a source. -/
structure IsTokenisation (source : String) (tokens : List (Token String)) : Prop where
  /-- The last token is the end of file, at the length of the source. The others cover text. -/
  ending : ∃ others, tokens = others ++ [⟨.endOfFile, .point source.utf8ByteSize⟩] ∧
    ∀ t ∈ others, t.kind ≠ .endOfFile ∧ t.span.start < t.span.stop
  /-- Tokens come in order and do not overlap. -/
  ordered : tokens.Pairwise fun t u => t.span.stop ≤ u.span.start
  /-- From the start of the source to the first token, and from each token to the next one, there
  is layout only. -/
  layout : (Span.nowhere :: tokens.map Token.span).IsChain fun s t =>
    ∃ before gap after, Span.Cuts ⟨s.stop, t.start⟩ source.toList before gap after ∧
      Layout gap after
  /-- Each token is the one that the rules give at its place. -/
  lexeme : ∀ t ∈ tokens, t.kind ≠ .endOfFile → ∃ before lexeme after,
    t.span.Cuts source.toList before lexeme after ∧ Lexed lexeme after t.kind
  /-- No faulty text is taken for something else. -/
  fault : ∀ t ∈ tokens, ∀ before lexeme after, source.toList = before ++ lexeme ++ after →
    t.span.start = byteLength before → Faulty lexeme after →
    t.kind = .invalid ∧ t.span.Cuts source.toList before lexeme after

theorem Faulty.ne_nil {lexeme rest : List Char} (h : Faulty lexeme rest) : lexeme ≠ [] := by
  cases h with
  | tooLarge hlongest _ => exact hlongest.1.ne_nil
  | unclosed _ => simp
  | stray _ => simp

theorem Lexed.ne_endOfFile {lexeme rest : List Char} {kind : TokenKind String}
    (h : Lexed lexeme rest kind) : kind ≠ .endOfFile := by
  cases h with
  | fault _ => simp
  | @rule rule _ _ hmakes =>
    rintro rfl
    cases rule <;> exact hmakes

/-! ## The way through a source -/

/-- The lexer, behind the text `before`, goes through the rest of a source. -/
inductive Scanned : List Char → List Char → List (Token String) → Prop where
  | finish {before gap} (layout : Layout gap []) :
      Scanned before gap [⟨.endOfFile, .point (byteLength (before ++ gap))⟩]
  | token {before gap c cs rest kind tokens} (layout : Layout gap (c :: cs ++ rest))
      (scan_eq : scan c (cs ++ rest) = (some kind, cs.length))
      (others : Scanned (before ++ gap ++ c :: cs) rest tokens) :
      Scanned before (gap ++ (c :: cs ++ rest))
        (⟨kind, ⟨byteLength (before ++ gap), byteLength (before ++ gap ++ c :: cs)⟩⟩ :: tokens)

theorem Scanned.skip {before piece rest : List Char} {tokens : List (Token String)}
    (h : Scanned (before ++ piece) rest tokens)
    (hpiece : ∀ gap after, rest = gap ++ after → Layout gap after → Layout (piece ++ gap) after) :
    Scanned before (piece ++ rest) tokens := by
  cases h with
  | finish hgap =>
    rw [List.append_assoc]
    exact .finish (hpiece rest [] (by simp) hgap)
  | token hgap hscan hothers =>
    rw [← List.append_assoc piece, List.append_assoc before]
    rw [List.append_assoc before] at hothers
    exact .token (hpiece _ _ rfl hgap) hscan hothers

/-- A lexeme is part of the source. -/
theorem scan_le (c : Char) (rest : List Char) : (scan c rest).2 ≤ rest.length := by
  unfold scan
  split
  · simp
  split
  · exact run_le ..
  split
  · exact run_le ..
  split
  · exact run_le ..
  split
  · obtain ⟨body, after, rfl, hrun, -⟩ := exists_run (· != '"') rest
    simp only [hrun, List.drop_left]
    cases after <;> simp
  · split
    · rename_i hs
      exact (symbol?_spelling hs).2
    · simp

theorem lexemes_scanned (before cs : List Char) :
    Scanned before cs (lexemes (byteLength before) cs) := by
  generalize hstart : byteLength before = start
  fun_induction lexemes start cs generalizing before with
  | case1 start =>
    have h : Scanned before [] _ := .finish .nil
    rwa [List.append_nil, hstart] at h
  | case2 start c rest n stop hscan ih =>
    have hstop : byteLength (before ++ c :: rest.take n) = stop := by
      rw [byteLength_append, hstart]
    have h := (ih (before ++ c :: rest.take n) hstop).skip fun gap after hrest hgap =>
      scan_layout hscan hrest hgap
    rwa [List.cons_append, List.take_append_drop] at h
  | case3 start c rest n stop kind hscan ih =>
    have hstop : byteLength (before ++ c :: rest.take n) = stop := by
      rw [byteLength_append, hstart]
    have hn : (rest.take n).length = n := by
      have h := scan_le c rest
      rw [hscan] at h
      rw [List.length_take, Nat.min_eq_left h]
    have h : Scanned before ([] ++ (c :: rest.take n ++ rest.drop n)) _ :=
      .token .nil (by rw [List.take_append_drop, hscan, hn])
        (by simpa using ih (before ++ c :: rest.take n) hstop)
    simpa [hstart, hstop] using h

namespace Scanned

variable {before rest : List Char} {tokens : List (Token String)}

/-- Where a token of a scanned source comes from. -/
theorem mem (h : Scanned before rest tokens) : ∀ t ∈ tokens,
    t = ⟨.endOfFile, .point (byteLength (before ++ rest))⟩ ∨
    ∃ before' c cs after, t.span.Cuts (before ++ rest) before' (c :: cs) after ∧
      scan c (cs ++ after) = (some t.kind, cs.length) := by
  induction h with
  | finish hgap => simp
  | @token before gap c cs rest kind tokens hgap hscan hothers ih =>
    have hsource : before ++ gap ++ c :: cs ++ rest = before ++ (gap ++ (c :: cs ++ rest)) := by
      simp
    rw [hsource] at ih
    refine List.forall_mem_cons.mpr ⟨.inr ⟨before ++ gap, c, cs, rest, ?_, hscan⟩, ih⟩
    exact ⟨hsource.symm, rfl, rfl⟩

theorem le_start (h : Scanned before rest tokens) :
    ∀ t ∈ tokens, byteLength before ≤ t.span.start := by
  induction h with
  | finish hgap => simp [Span.point]
  | token hgap hscan hothers ih =>
    refine List.forall_mem_cons.mpr ⟨by simp, fun t ht => ?_⟩
    have h := ih t ht
    simp only [byteLength_append] at h
    omega

theorem ordered (h : Scanned before rest tokens) :
    tokens.Pairwise fun t u => t.span.stop ≤ u.span.start := by
  induction h with
  | finish hgap => simp
  | token hgap hscan hothers ih => exact .cons hothers.le_start ih

theorem ending (h : Scanned before rest tokens) : ∃ others,
    tokens = others ++ [⟨.endOfFile, .point (byteLength (before ++ rest))⟩] ∧
      ∀ t ∈ others, t.kind ≠ .endOfFile ∧ t.span.start < t.span.stop := by
  induction h with
  | finish hgap => exact ⟨[], by simp⟩
  | @token before gap c cs rest kind tokens hgap hscan hothers ih =>
    have hsource : before ++ gap ++ c :: cs ++ rest = before ++ (gap ++ (c :: cs ++ rest)) := by
      simp
    obtain ⟨others, rfl, hall⟩ := ih
    refine ⟨_ :: others, by rw [hsource]; rfl, List.forall_mem_cons.mpr ⟨⟨?_, ?_⟩, hall⟩⟩
    · rintro rfl
      exact (scan_lexed hscan).ne_endOfFile rfl
    · have hpos := c.utf8Size_pos
      simp only [byteLength_append, byteLength_cons]
      omega

theorem layout (h : Scanned before rest tokens) (span : Span)
    (hspan : span.stop = byteLength before) :
    (span :: tokens.map Token.span).IsChain fun s t =>
      ∃ before' gap after, Span.Cuts ⟨s.stop, t.start⟩ (before ++ rest) before' gap after ∧
        Layout gap after := by
  induction h generalizing span with
  | @finish before gap hgap =>
    refine .cons_cons ⟨before, gap, [], ⟨by simp, hspan, rfl⟩, hgap⟩ (.singleton _)
  | @token before gap c cs rest kind tokens hgap hscan hothers ih =>
    have hsource : before ++ gap ++ c :: cs ++ rest = before ++ (gap ++ (c :: cs ++ rest)) := by
      simp
    rw [hsource] at ih
    exact .cons_cons ⟨before, gap, c :: cs ++ rest, ⟨by simp, hspan, rfl⟩, hgap⟩ (ih _ rfl)

end Scanned

/-- The lexer gives the tokenisation of its source. -/
theorem lexemes_isTokenisation (source : String) :
    IsTokenisation source (lexemes 0 source.toList) := by
  have h : Scanned [] source.toList (lexemes 0 source.toList) := lexemes_scanned [] source.toList
  have hmem := h.mem
  rw [List.nil_append] at hmem
  refine
    { ending := byteLength_toList source ▸ h.ending
      ordered := h.ordered
      layout := h.layout .nowhere rfl
      lexeme := fun t ht hkind => ?_
      fault := fun t ht before lexeme after hsource hstart hfaulty => ?_ }
  · rcases hmem t ht with rfl | ⟨before, c, cs, after, hcuts, hscan⟩
    · exact absurd rfl hkind
    · refine ⟨before, c :: cs, after, hcuts, ?_⟩
      simpa using scan_lexed hscan
  · obtain ⟨c, cs, rfl⟩ := List.exists_cons_of_ne_nil hfaulty.ne_nil
    rcases hmem t ht with rfl | ⟨before', c', cs', after', hcuts, hscan⟩
    · have hpos := c.utf8Size_pos
      have hlen := congrArg byteLength hsource
      simp only [byteLength_append, byteLength_cons, Span.point] at hstart hlen
      omega
    · have hsame : before ++ (c :: cs ++ after) = before' ++ (c' :: cs' ++ after') := by
        simpa using hsource.symm.trans hcuts.split
      obtain rfl : before = before' := eq_of_byteLength_eq hsame (hstart ▸ hcuts.start)
      obtain ⟨rfl, hrest⟩ := List.cons.inj (List.append_cancel_left hsame)
      have hscan' := hfaulty.scan_eq
      change cs ++ after = cs' ++ after' at hrest
      rw [hrest, hscan] at hscan'
      obtain ⟨hkind, hlen⟩ := Prod.mk.inj hscan'
      obtain ⟨rfl, rfl⟩ := List.append_inj hrest hlen.symm
      exact ⟨Option.some.inj hkind, hcuts⟩

/-- Every token covers a part of its source, the end of file an empty one. -/
theorem IsTokenisation.exists_cuts {source : String} {tokens : List (Token String)}
    (h : IsTokenisation source tokens) : ∀ t ∈ tokens, ∃ before inside after,
      t.span.Cuts source.toList before inside after := by
  intro t ht
  by_cases hkind : t.kind = .endOfFile
  · obtain ⟨others, rfl, hothers⟩ := h.ending
    rcases List.mem_append.mp ht with ht | ht
    · exact absurd hkind (hothers t ht).1
    · obtain rfl := List.mem_singleton.mp ht
      have hlen := (byteLength_toList source).symm
      exact ⟨source.toList, [], [], by simp, hlen, by simpa [Span.point] using hlen⟩
  · obtain ⟨before, lexeme, after, hcuts, -⟩ := h.lexeme t ht hkind
    exact ⟨before, lexeme, after, hcuts⟩

theorem IsTokenisation.stop_le {source : String} {tokens : List (Token String)}
    (h : IsTokenisation source tokens) :
    ∀ t ∈ tokens, t.span.start ≤ t.span.stop ∧ t.span.stop ≤ source.utf8ByteSize := by
  intro t ht
  obtain ⟨before, inside, after, hcuts⟩ := h.exists_cuts t ht
  exact ⟨hcuts.start_le_stop, byteLength_toList source ▸ hcuts.stop_le⟩

end Lexical

/-- The spans of a source that does not pass the last offset are as the lexemes stand in it. -/
theorem Lexer.tokens_eq {source : String} (h : source.utf8ByteSize ≤ Span.maxOffset) :
    tokens source = lexemes 0 source.toList := by
  have hfit : ∀ t ∈ lexemes 0 source.toList, t.fit = t := by
    intro t ht
    obtain ⟨hle, hstop⟩ := (Lexical.lexemes_isTokenisation source).stop_le t ht
    rw [Token.fit, Span.ofRange_of_le hle (Nat.le_trans hstop h)]
  rw [tokens, List.map_congr_left hfit, List.map_id']

/-! ## Names -/

/-- The table `names'` has the strings of `names`, at their places. -/
structure Names.Extends (names names' : Names) : Prop where
  size_le : names.size ≤ names'.size
  text_eq : ∀ name : Name, name.index < names.size → names'.text name = names.text name

namespace Names.Extends

theorem refl (names : Names) : names.Extends names :=
  ⟨Nat.le_refl _, fun _ _ => rfl⟩

theorem trans {names names' names'' : Names} (h : names.Extends names')
    (h' : names'.Extends names'') : names.Extends names'' :=
  ⟨h.size_le.trans h'.size_le, fun name hname =>
    (h'.text_eq name (hname.trans_le h.size_le)).trans (h.text_eq name hname)⟩

theorem intern (string : String) (names : Names) : names.Extends (Names.intern string names).2 := by
  refine ⟨?_, text_intern_of_lt string names⟩
  unfold Names.intern
  split <;> simp [size]

end Names.Extends

/-- An interned string is read back from every later table. -/
theorem Names.Extends.text_intern {string : String} {names names' : Names}
    (h : (Names.intern string names).2.Extends names') :
    names'.text (Names.intern string names).1 = string := by
  have hlt : (Names.intern string names).1.index < (Names.intern string names).2.size := by
    unfold Names.intern
    split
    · rename_i index hindex
      exact (Array.findIdx?_eq_some_iff_getElem.mp hindex).1
    · simp [Names.size]
  rw [h.text_eq _ hlt, Names.text_intern]

/-- Replaces the name in a token by its string. -/
def TokenKind.spelled (names : Names) : TokenKind Name → TokenKind String
  | .integer magnitude => .integer magnitude
  | .text content => .text (names.text content)
  | .identifier name => .identifier (names.text name)
  | .keyword k => .keyword k
  | .symbol s => .symbol s
  | .invalid => .invalid
  | .endOfFile => .endOfFile

def Token.spelled (names : Names) (token : Token Name) : Token String :=
  ⟨token.kind.spelled names, token.span⟩

@[simp] theorem Token.spelled_kind (names : Names) (token : Token Name) :
    (token.spelled names).kind = token.kind.spelled names := rfl

namespace TokenKind

theorem extends_intern (kind : TokenKind String) (names : Names) :
    names.Extends (kind.intern.run names).2 := by
  cases kind with
  | text content => exact Names.Extends.intern content names
  | identifier name => exact Names.Extends.intern name names
  | _ => exact Names.Extends.refl names

theorem spelled_intern (kind : TokenKind String) {names names' : Names}
    (h : (kind.intern.run names).2.Extends names') :
    (kind.intern.run names).1.spelled names' = kind := by
  cases kind with
  | text content => exact congrArg TokenKind.text (Names.Extends.text_intern h)
  | identifier name => exact congrArg TokenKind.identifier (Names.Extends.text_intern h)
  | _ => rfl

end TokenKind

namespace Token

/-- Interning tokens one by one. -/
theorem internAll_cons (token : Token String) (tokens : List (Token String)) (names : Names) :
    internAll (token :: tokens) names =
      (⟨(token.kind.intern.run names).1, token.span⟩ ::
        (internAll tokens (token.kind.intern.run names).2).1,
        (internAll tokens (token.kind.intern.run names).2).2) := by
  rw [internAll, List.mapM_cons]
  rfl

theorem extends_internAll (tokens : List (Token String)) (names : Names) :
    names.Extends (internAll tokens names).2 := by
  induction tokens generalizing names with
  | nil => exact .refl names
  | cons token tokens ih =>
    rw [internAll_cons]
    exact (token.kind.extends_intern names).trans (ih _)

/-- Interned tokens are read back from their table. -/
theorem spelled_internAll (tokens : List (Token String)) (names : Names) :
    (internAll tokens names).1.map (spelled (internAll tokens names).2) = tokens := by
  induction tokens generalizing names with
  | nil => rfl
  | cons token tokens ih =>
    rw [internAll_cons, List.map_cons, ih, spelled,
      token.kind.spelled_intern (extends_internAll tokens _)]

end Token

/-- The lexer gives the tokenisation of its source, with the spellings in the name table. -/
theorem lex_isTokenisation (source : String) (names : Names)
    (h : source.utf8ByteSize ≤ Span.maxOffset) : Lexical.IsTokenisation source
      ((lex source names).1.map (Token.spelled (lex source names).2)) := by
  rw [lex, Token.spelled_internAll, Lexer.tokens_eq h]
  exact Lexical.lexemes_isTokenisation source

/-- A number that is too large behind a comment, and a text with a character of two bytes. -/
theorem lex_isTokenisation_tooLarge : ∃ tokens : List (Token String),
    tokens = [⟨.identifier "x", ⟨0, 1⟩⟩, ⟨.symbol .assign, ⟨2, 4⟩⟩, ⟨.text "é", ⟨5, 9⟩⟩,
      ⟨.invalid, ⟨14, 24⟩⟩, ⟨.endOfFile, .point 24⟩] ∧
    Lexical.IsTokenisation "x := \"é\" # y\n4294967296" tokens := by
  have h := lex_isTokenisation "x := \"é\" # y\n4294967296" .initial (by decide +kernel)
  exact ⟨_, by decide +kernel, h⟩

end Enquanto

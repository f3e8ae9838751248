import Enquanto.Proofs.Tokenisation

/-!
# Spelling and lexing

Tokens are written one after the other, each as it is spelled, with blanks and comments between
them. Lexing undoes that: it gives back the tokens that were written, whatever the layout.

* `TokenKind.spelling` and `TokenKind.Spellable`: how tokens are written, and which;
* `IsGap`: blanks and comments, each comment closed by a line feed;
* `layOut`: the text of a list of tokens, each with a gap behind it;
* `lex_layOut`: lexing the text gives the tokens, and an end of file.
-/

namespace Enquanto

open Lexer Lexical

/-- How a token is written. -/
def TokenKind.spelling : TokenKind String → String
  | .integer magnitude => toString magnitude.toNat
  | .text content => "\"" ++ content ++ "\""
  | .identifier name => name
  | .keyword k => k.spelling
  | .symbol s => s.spelling
  | .invalid | .endOfFile => ""

/-- A token can be written: no text literal has a quote in it, and an identifier is a word that is
not reserved. -/
def TokenKind.Spellable : TokenKind String → Prop
  | .integer _ | .keyword _ | .symbol _ => True
  | .text content => '"' ∉ content.toList
  | .identifier name => Rule.identifier.Matches name.toList ∧ ∀ k : Keyword, k.spelling ≠ name
  | .invalid | .endOfFile => False

/-- Blanks and closed comments. -/
inductive IsGap : List Char → Prop where
  | nil : IsGap []
  | blank {c gap} (h : IsBlank c) (rest : IsGap gap) : IsGap (c :: gap)
  | comment {b gap} (h : '\n' ∉ b) (rest : IsGap gap) : IsGap ('#' :: b ++ '\n' :: gap)

/-- The text of a list of tokens, with a gap before the first and one behind each of them. -/
def layOut (lead : String) (pieces : List (TokenKind String × String)) : String :=
  lead ++ String.join (pieces.map fun piece => piece.1.spelling ++ piece.2)

/-! ## Kinds of tokens -/

namespace Lexer

/-- The tokens of a text, without their places. -/
def kinds (cs : List Char) : List (TokenKind String) := (lexemes 0 cs).map Token.kind

/-- The kinds of tokens do not depend on where a text starts. -/
theorem map_kind_lexemes (start : Nat) (cs : List Char) :
    (lexemes start cs).map Token.kind = kinds cs := by
  have h (start' : Nat) :
      (lexemes start cs).map Token.kind = (lexemes start' cs).map Token.kind := by
    fun_induction lexemes start cs generalizing start' with
    | case1 start => simp [lexemes]
    | case2 start c rest n stop hscan ih =>
      rw [lexemes, hscan]
      exact ih _
    | case3 start c rest n stop kind hscan ih =>
      rw [lexemes, hscan, List.map_cons, List.map_cons, ih]
  exact h 0

theorem map_kind_tokens (source : String) :
    (tokens source).map Token.kind = kinds source.toList :=
  List.map_map

theorem kinds_nil : kinds [] = [.endOfFile] := by
  simp [kinds, lexemes]

theorem kinds_of_scan_none {c : Char} {cs rest : List Char}
    (h : scan c (cs ++ rest) = (none, cs.length)) : kinds (c :: cs ++ rest) = kinds rest := by
  rw [kinds, List.cons_append, lexemes, h]
  simp [map_kind_lexemes]

theorem kinds_of_scan_some {c : Char} {cs rest : List Char} {kind : TokenKind String}
    (h : scan c (cs ++ rest) = (some kind, cs.length)) :
    kinds (c :: cs ++ rest) = kind :: kinds rest := by
  rw [kinds, List.cons_append, lexemes, h]
  simp [map_kind_lexemes]

end Lexer

/-! ## Gaps -/

/-- What follows a token cannot be part of it. -/
def Delimits (rest : List Char) : Prop := ∀ c ∈ rest.head?, IsBlank c ∨ c = '#'

namespace IsGap

theorem kinds_append {gap : List Char} (h : IsGap gap) (rest : List Char) :
    kinds (gap ++ rest) = kinds rest := by
  have hblank (c : Char) (hc : IsBlank c) (rest : List Char) : kinds (c :: rest) = kinds rest := by
    have hscan : scan c ([] ++ rest) = (none, 0) := by simp [scan, isBlank_iff, hc]
    exact kinds_of_scan_none hscan
  induction h with
  | nil => rfl
  | @blank c gap hc _ ih => rw [List.cons_append, hblank c hc, ih]
  | @comment body gap hbody _ ih =>
    have hrun : run (· != '\n') (body ++ '\n' :: (gap ++ rest)) = body.length :=
      run_append (fun d hd => by simpa using fun h : d = '\n' => hbody (h ▸ hd)) (by simp)
    have hscan : scan '#' (body ++ '\n' :: (gap ++ rest)) = (none, body.length) := by
      simp [scan, isBlank, hrun]
    calc kinds ('#' :: body ++ '\n' :: gap ++ rest)
        = kinds ('#' :: body ++ '\n' :: (gap ++ rest)) := by simp
      _ = kinds ('\n' :: (gap ++ rest)) := kinds_of_scan_none hscan
      _ = kinds rest := by rw [hblank '\n' (by decide), ih]

theorem delimits {gap : List Char} (h : IsGap gap) (hne : gap ≠ []) (rest : List Char) :
    Delimits (gap ++ rest) := by
  cases h with
  | nil => exact absurd rfl hne
  | blank hc _ => simpa [Delimits] using .inl hc
  | comment hbody _ => simp [Delimits]

end IsGap

/-! ## Spellings -/

namespace Delimits

variable {rest : List Char}

theorem not_isDigit (h : Delimits rest) : ∀ c ∈ rest.head?, ¬ IsDigit c := by
  intro c hc
  rcases h c hc with hblank | rfl
  · exact hblank.not_isDigit
  · decide

theorem not_isWordPart (h : Delimits rest) : ∀ c ∈ rest.head?, ¬ (IsLetter c ∨ IsDigit c) := by
  intro c hc
  rcases h c hc with hblank | rfl
  · exact not_or.mpr ⟨hblank.not_isLetter, hblank.not_isDigit⟩
  · decide

end Delimits

variable {rest : List Char}

/-- Digits are read back as the number that they were written for. -/
theorem Decimal.value_toDigits (n : Nat) : Decimal.value (Nat.toDigits 10 n) = n := by
  rw [← number_eq, Lexical.number, Nat.ofDigitChars_ten_toDigits]

theorem Decimal.isDigit_of_mem_toDigits {n : Nat} {c : Char} (hc : c ∈ Nat.toDigits 10 n) :
    IsDigit c :=
  (isDigit_iff c).mp (Nat.isDigit_of_mem_toDigits (by decide) (by decide) hc)

theorem Lexer.number_toDigits (magnitude : UInt32) :
    Lexer.number (Nat.toDigits 10 magnitude.toNat) = .integer magnitude := by
  rw [Lexer.number, Decimal.value_toDigits]
  simp [magnitude.toNat_lt_size]

/-- Digits are one token, up to what is no digit. -/
theorem Lexer.kinds_toDigits (magnitude : UInt32) (h : ∀ c ∈ rest.head?, ¬ IsDigit c) :
    kinds (Nat.toDigits 10 magnitude.toNat ++ rest) = .integer magnitude :: kinds rest := by
  have hdigits : ∀ c ∈ Nat.toDigits 10 magnitude.toNat, IsDigit c :=
    fun c hc => Decimal.isDigit_of_mem_toDigits hc
  have hnumber := Lexer.number_toDigits magnitude
  obtain ⟨c, body, hcs⟩ := List.exists_cons_of_ne_nil
    (Nat.toDigits_ne_nil (n := magnitude.toNat) (b := 10))
  rw [hcs] at hdigits hnumber ⊢
  obtain ⟨hc, hbody⟩ := List.forall_mem_cons.mp hdigits
  rw [kinds_of_scan_some (scan_number hc hbody h), hnumber]

theorem Lexer.kinds_word {name : String} (hname : Rule.identifier.Matches name.toList)
    (h : ∀ c ∈ rest.head?, ¬ (IsLetter c ∨ IsDigit c)) :
    kinds (name.toList ++ rest) = Lexer.word name :: kinds rest := by
  obtain ⟨c, body, hcs, hc, hbody⟩ := hname
  rw [hcs, kinds_of_scan_some (scan_word hc hbody h), ← hcs, String.ofList_toList]

/-- A keyword is one token, up to what is no part of a word. -/
theorem Lexer.kinds_keyword (k : Keyword) (h : ∀ c ∈ rest.head?, ¬ (IsLetter c ∨ IsDigit c)) :
    kinds (k.spelling.toList ++ rest) = .keyword k :: kinds rest := by
  have hword : Lexer.word k.spelling = .keyword k := by
    rw [Lexer.word, ofSpelling?_eq_some_iff.mpr rfl]
  rw [Lexer.kinds_word (matches_identifier_of_keyword rfl) h, hword]

theorem Lexer.kinds_text {content : String} (hcontent : '"' ∉ content.toList) :
    kinds (("\"" ++ content ++ "\"").toList ++ rest) = .text content :: kinds rest := by
  have hscan : scan '"' ((content.toList ++ ['"']) ++ rest) =
      (some (.text content), (content.toList ++ ['"']).length) := by
    simpa using scan_text hcontent
  simpa using kinds_of_scan_some hscan

theorem Lexer.symbol?_append {s : Symbol} {c : Char} {tail : List Char}
    (hs : s.spelling.toList = c :: tail) (h : Delimits rest) :
    symbol? c (tail ++ rest) = some (s, tail.length) := by
  have hequal : ∀ after, rest ≠ '=' :: after := by
    rintro after rfl
    exact absurd (h '=' rfl) (by decide)
  have hgreater : ∀ after, rest ≠ '>' :: after := by
    rintro after rfl
    exact absurd (h '>' rfl) (by decide)
  cases s <;> simp [Symbol.spelling] at hs <;> obtain ⟨rfl, rfl⟩ := hs
  -- Three symbols are the start of longer ones, which a delimiter does not go on with.
  case colon | less | greater =>
    unfold symbol?
    split <;> simp_all
  all_goals rfl

theorem Symbol.matches_spelling (s : Symbol) : (Rule.symbol s).Matches s.spelling.toList := rfl

theorem Lexer.kinds_symbol (s : Symbol) (h : Delimits rest) :
    kinds (s.spelling.toList ++ rest) = .symbol s :: kinds rest := by
  obtain ⟨c, tail, hcs⟩ := List.exists_cons_of_ne_nil (s.matches_spelling.ne_nil)
  have hmem : c ∈ signs := (hcs ▸ s.matches_spelling).starts
  obtain ⟨hblank, hcomment, hdigit, hletter, hquote⟩ := classes_of_mem_signs hmem
  have hscan : scan c (tail ++ rest) = (some (.symbol s), tail.length) := by
    simp [scan, isBlank_iff, isDigit_iff, isWordStart_iff, hblank, hcomment, hdigit, hletter,
      hquote, Lexer.symbol?_append hcs h]
  rw [hcs, kinds_of_scan_some hscan]

/-- A spelled token is read back, if what follows is no part of it. -/
theorem TokenKind.Spellable.kinds_append {kind : TokenKind String} (hkind : kind.Spellable)
    (h : Delimits rest) : kinds (kind.spelling.toList ++ rest) = kind :: kinds rest := by
  cases kind with
  | integer magnitude =>
    rw [TokenKind.spelling, Nat.toString_eq_repr, Nat.toList_repr,
      Lexer.kinds_toDigits magnitude h.not_isDigit]
  | text content => exact Lexer.kinds_text hkind
  | identifier name =>
    obtain ⟨hname, hfree⟩ := hkind
    have hword : Lexer.word name = .identifier name := by
      have hnone : Keyword.ofSpelling? name = none := by
        rw [Option.eq_none_iff_forall_ne_some]
        exact fun k hk => hfree k (ofSpelling?_eq_some_iff.mp hk)
      rw [Lexer.word, hnone]
    rw [TokenKind.spelling, Lexer.kinds_word hname h.not_isWordPart, hword]
  | keyword k => exact Lexer.kinds_keyword k h.not_isWordPart
  | symbol s => exact Lexer.kinds_symbol s h
  | invalid => exact hkind.elim
  | endOfFile => exact hkind.elim

/-! ## Whole texts -/

/-- Spelled tokens with gaps between them are read back one by one. -/
theorem Lexer.kinds_pieces {pieces : List (TokenKind String × String)}
    (hpieces : ∀ piece ∈ pieces, piece.1.Spellable ∧ IsGap piece.2.toList)
    (hbetween : ∀ piece ∈ pieces.dropLast, piece.2 ≠ "") :
    kinds (String.join (pieces.map fun piece => piece.1.spelling ++ piece.2)).toList =
      pieces.map Prod.fst ++ [.endOfFile] := by
  induction pieces with
  | nil => simpa using kinds_nil
  | cons piece pieces ih =>
    obtain ⟨⟨hkind, hgap⟩, hpieces⟩ := List.forall_mem_cons.mp hpieces
    set after := (String.join (pieces.map fun piece => piece.1.spelling ++ piece.2)).toList
      with hafter
    have hbetween' : ∀ piece ∈ pieces.dropLast, piece.2 ≠ "" := fun piece' h =>
      hbetween piece' (List.mem_of_mem_tail (by cases pieces <;> simp_all))
    have hdelimits : Delimits (piece.2.toList ++ after) := by
      by_cases hempty : piece.2.toList = []
      · -- only behind the last token there need not be a gap
        cases pieces with
        | nil => simp [Delimits, hafter, hempty]
        | cons next pieces =>
          exact absurd (String.toList_eq_nil_iff.mp hempty) (hbetween piece (by simp))
      · exact hgap.delimits hempty after
    calc kinds (String.join ((piece :: pieces).map fun piece => piece.1.spelling ++ piece.2)).toList
        = kinds (piece.1.spelling.toList ++ (piece.2.toList ++ after)) := by
          simp [hafter, String.join_cons]
      _ = piece.1 :: kinds after := by rw [hkind.kinds_append hdelimits, hgap.kinds_append]
      _ = (piece :: pieces).map Prod.fst ++ [.endOfFile] := by
          rw [ih hpieces hbetween', List.map_cons, List.cons_append]

/-- Interning looks at the kinds of tokens only, not at their places. -/
theorem Token.kinds_internAll (tokens : List (Token String)) (names : Names) :
    ((internAll tokens names).1.map Token.kind, (internAll tokens names).2) =
      ((tokens.map Token.kind).mapM TokenKind.intern).run names := by
  induction tokens generalizing names with
  | nil => rfl
  | cons token tokens ih =>
    rw [internAll_cons, List.map_cons, List.map_cons, List.mapM_cons]
    have h := ih (token.kind.intern.run names).2
    exact congrArg (fun interned => ((token.kind.intern.run names).1 :: interned.1, interned.2)) h

/-- Lexing undoes spelling: the tokens that were written are read back, with their spellings in the
name table, and the layout has no part in that. -/
theorem lex_layOut (lead : String) (pieces : List (TokenKind String × String)) (names : Names)
    (hlead : IsGap lead.toList)
    (hpieces : ∀ piece ∈ pieces, piece.1.Spellable ∧ IsGap piece.2.toList)
    (hbetween : ∀ piece ∈ pieces.dropLast, piece.2 ≠ "") :
    (lex (layOut lead pieces) names).1.map
        (fun t => t.kind.spelled (lex (layOut lead pieces) names).2) =
      pieces.map Prod.fst ++ [.endOfFile] ∧
    ((lex (layOut lead pieces) names).1.map Token.kind, (lex (layOut lead pieces) names).2) =
      ((pieces.map Prod.fst ++ [TokenKind.endOfFile]).mapM TokenKind.intern).run names := by
  have hkinds : kinds (layOut lead pieces).toList = pieces.map Prod.fst ++ [.endOfFile] := by
    rw [layOut, String.toList_append, hlead.kinds_append, Lexer.kinds_pieces hpieces hbetween]
  have hspelled := congrArg (List.map Token.kind)
    (Token.spelled_internAll (tokens (layOut lead pieces)) names)
  have hinterned := Token.kinds_internAll (tokens (layOut lead pieces)) names
  rw [map_kind_tokens, hkinds] at hspelled hinterned
  rw [List.map_map] at hspelled
  exact ⟨hspelled, hinterned⟩

/-- Quotes in a comment, a comment sign in a text, and a word that starts like a keyword. -/
theorem lex_layOut_hidden :
    (lex (layOut "# \"\n" [(.identifier "e1", "#e\n"), (.text "#", " "), (.symbol .colon, "\t"),
        (.symbol .equal, "\r\n"), (.integer 4294967295, " "), (.keyword .e, "")]) .initial).1.map
        Token.kind =
      [.identifier ⟨1⟩, .text ⟨2⟩, .symbol .colon, .symbol .equal, .integer 4294967295, .keyword .e,
        .endOfFile] := by
  have hlead : IsGap "# \"\n".toList :=
    .comment (b := [' ', '"']) (by decide) .nil
  have hcomment : IsGap "#e\n".toList := .comment (b := ['e']) (by decide) .nil
  have hname : Rule.identifier.Matches "e1".toList :=
    ⟨'e', ['1'], by decide, by decide, List.forall_mem_singleton.mpr (.inr (by decide))⟩
  have hfree : ∀ k : Keyword, k.spelling ≠ "e1" := by
    intro k
    cases k <;> decide
  have hblank {c : Char} (hc : IsBlank c) : IsGap [c] := .blank hc .nil
  have h := lex_layOut "# \"\n" [(.identifier "e1", "#e\n"), (.text "#", " "),
    (.symbol .colon, "\t"), (.symbol .equal, "\r\n"), (.integer 4294967295, " "), (.keyword .e, "")]
    .initial hlead
    (by
      simp only [List.forall_mem_cons, TokenKind.Spellable]
      refine ⟨⟨⟨hname, hfree⟩, hcomment⟩, ⟨by decide, hblank (by decide)⟩,
        ⟨trivial, hblank (by decide)⟩, ⟨trivial, .blank (by decide) (hblank (by decide))⟩,
        ⟨trivial, hblank (by decide)⟩, ⟨trivial, .nil⟩, by simp⟩)
    (by decide)
  exact (congrArg Prod.fst h.2).trans (by decide +kernel)

end Enquanto

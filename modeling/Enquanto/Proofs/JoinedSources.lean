import Enquanto.Proofs.SourceSpans

/-!
# Joined sources

Two sources are joined by a semicolon on a line of its own between them. The line feed before it
ends a comment at the end of the first source, and no token goes on over it. So the tokens of the
joined source are those of the first one, the semicolon, and those of the second one at their new
places, and the names of the second are interned after those of the first.

* `Span.shift` and `Token.shift`: the same text further on in a source;
* `Lexer.lexemes_newline`: the tokens before a line feed do not depend on what is behind it;
* `Lexer.lexemes_shift`: a text has the same tokens at every place;
* `lex_joined`: the tokens and the names of a joined source.
-/

namespace Enquanto

open Lexer Lexical Grammar

/-- The span of the same text behind `n` more bytes, as far as offsets go. -/
def Span.shift (n : Nat) (s : Span) : Span :=
  ⟨min (s.start + n) maxOffset, min (s.stop + n) maxOffset⟩

/-- Offsets stay in order when they are moved. -/
theorem Span.shift_mono {a b : Nat} (h : a ≤ b) (n : Nat) :
    min (a + n) maxOffset ≤ min (b + n) maxOffset :=
  Nat.le_min.mpr ⟨Nat.le_trans (Nat.min_le_left ..) (Nat.add_le_add_right h n), Nat.min_le_right ..⟩

theorem Span.ofRange_add {start stop : Nat} (h : start ≤ stop) (n : Nat) :
    ofRange (start + n) (stop + n) = (ofRange start stop).shift n := by
  simp only [ofRange_eq h, ofRange_eq (Nat.add_le_add_right h n), shift, mk.injEq]
  omega

/-- The same token behind `n` more bytes. -/
def Token.shift {ν : Type} (n : Nat) (t : Token ν) : Token ν := ⟨t.kind, t.span.shift n⟩

@[simp] theorem Token.shift_kind {ν : Type} (n : Nat) (t : Token ν) : (t.shift n).kind = t.kind :=
  rfl

namespace Lexer

/-! ## Up to a line feed -/

/-- A run that line feeds end does not go on over one. -/
theorem run_newline {p : Char → Bool} (hp : p '\n' = false) (cs tail : List Char) :
    run p (cs ++ '\n' :: tail) = run p cs := by
  obtain ⟨body, rest, rfl, hrun, hbody, hrest⟩ := exists_run p cs
  rw [hrun, List.append_assoc]
  refine run_append hbody fun c hc => ?_
  cases rest with
  | nil =>
    cases hc
    exact hp
  | cons d rest => exact hrest c hc

theorem symbol?_newline (c : Char) (cs tail : List Char) :
    symbol? c (cs ++ '\n' :: tail) = symbol? c cs := by
  cases cs with
  | nil =>
    unfold symbol?
    split <;> simp_all
  | cons d cs =>
    unfold symbol?
    split <;> simp_all

/-- A quote that is closed takes the same text, whatever follows. -/
theorem scan_quote_append {cs : List Char} (h : (scan '"' cs).1 ≠ some .invalid)
    (tail : List Char) : scan '"' (cs ++ tail) = scan '"' cs := by
  obtain ⟨body, rest, rfl, -, hbody, hrest⟩ := exists_run (· != '"') cs
  have hquote : '"' ∉ body := fun hmem => by simpa using hbody '"' hmem
  cases rest with
  | nil =>
    rw [(Faulty.unclosed hquote).scan_eq] at h
    exact absurd rfl h
  | cons d rest =>
    obtain rfl : d = '"' := by simpa using hrest d rfl
    rw [List.append_assoc, List.cons_append, scan_text hquote, scan_text hquote]

/-- A lexeme that is not faulty ends before a line feed, or has it between its quotes. -/
theorem scan_newline {c : Char} {cs : List Char} (h : (scan c cs).1 ≠ some .invalid)
    (tail : List Char) : scan c (cs ++ '\n' :: tail) = scan c cs := by
  by_cases hc : c = '"'
  · subst hc
    exact scan_quote_append h _
  have htake (p : Char → Bool) : (cs ++ '\n' :: tail).take (run p cs) = cs.take (run p cs) :=
    List.take_append_of_le_length (run_le p cs)
  have hcomment : run (· != '\n') (cs ++ '\n' :: tail) = run (· != '\n') cs :=
    run_newline rfl cs tail
  have hdigits : run Char.isDigit (cs ++ '\n' :: tail) = run Char.isDigit cs :=
    run_newline rfl cs tail
  have hword : run isWordPart (cs ++ '\n' :: tail) = run isWordPart cs := run_newline rfl cs tail
  simp only [scan, hcomment, hdigits, hword, htake, symbol?_newline, beq_iff_eq, hc, if_false]

theorem byteLength_take_add_drop (n : Nat) (cs : List Char) :
    byteLength (cs.take n) + byteLength (cs.drop n) = byteLength cs := by
  rw [← byteLength_append, List.take_append_drop]

/-- The tokens of a text without faults stay when more lines follow it. -/
theorem lexemes_newline {start : Nat} {cs : List Char}
    (h : ∀ t ∈ lexemes start cs, t.kind ≠ .invalid) (tail : List Char) :
    ∃ ts, lexemes start cs = ts ++ [⟨.endOfFile, .point (start + byteLength cs)⟩] ∧
      lexemes start (cs ++ '\n' :: tail) =
        ts ++ lexemes (start + byteLength cs) ('\n' :: tail) := by
  fun_induction lexemes start cs with
  | case1 start => exact ⟨[], rfl, rfl⟩
  | case2 start c rest n stop hscan ih =>
    have hn : n ≤ rest.length := by simpa [hscan] using scan_le c rest
    obtain ⟨ts, hts, htail⟩ := ih h
    have hstop : stop + byteLength (rest.drop n) = start + byteLength (c :: rest) := by
      have hlen := byteLength_take_add_drop n rest
      simp only [stop, byteLength_cons]
      omega
    rw [hstop] at hts htail
    refine ⟨ts, hts, ?_⟩
    rw [List.cons_append, lexemes, scan_newline (by simp [hscan]), hscan]
    simpa only [List.take_append_of_le_length hn, List.drop_append_of_le_length hn] using htail
  | case3 start c rest n stop kind hscan ih =>
    have hn : n ≤ rest.length := by simpa [hscan] using scan_le c rest
    obtain ⟨hkind, hrest⟩ := List.forall_mem_cons.mp h
    obtain ⟨ts, hts, htail⟩ := ih hrest
    have hstop : stop + byteLength (rest.drop n) = start + byteLength (c :: rest) := by
      have hlen := byteLength_take_add_drop n rest
      simp only [stop, byteLength_cons]
      omega
    rw [hstop] at hts htail
    refine ⟨⟨kind, ⟨start, stop⟩⟩ :: ts, congrArg _ hts, ?_⟩
    rw [List.cons_append, lexemes, scan_newline (by simpa [hscan] using hkind), hscan]
    simp only [List.take_append_of_le_length hn, List.drop_append_of_le_length hn]
    exact congrArg (_ :: ·) htail

/-! ## At another place -/

theorem fit_add (n : Nat) {start stop : Nat} (h : start ≤ stop) (kind : TokenKind String) :
    (⟨kind, ⟨start + n, stop + n⟩⟩ : Token String).fit =
      (⟨kind, ⟨start, stop⟩⟩ : Token String).fit.shift n :=
  congrArg (Token.mk kind) (Span.ofRange_add h n)

/-- A text has the same tokens at every place. -/
theorem lexemes_shift (n start : Nat) (cs : List Char) :
    (lexemes (start + n) cs).map Token.fit =
      ((lexemes start cs).map Token.fit).map (Token.shift n) := by
  fun_induction lexemes start cs with
  | case1 start =>
    rw [lexemes]
    exact congrArg (fun t => [t]) (fit_add n (Nat.le_refl start) .endOfFile)
  | case2 start c rest k stop hscan ih =>
    rw [lexemes, hscan, ← ih]
    exact congrArg (fun stop => (lexemes stop _).map Token.fit) (Nat.add_right_comm ..)
  | case3 start c rest k stop kind hscan ih =>
    have hstop : start + n + byteLength (c :: rest.take k) = stop + n := Nat.add_right_comm ..
    rw [lexemes, hscan]
    simp only [hstop, List.map_cons]
    exact congrArg₂ List.cons (fit_add n (Nat.le_add_right ..) kind) ih

end Lexer

/-! ## Interning -/

namespace Token

theorem internAll_append (ts us : List (Token String)) (names : Names) :
    internAll (ts ++ us) names =
      ((internAll ts names).1 ++ (internAll us (internAll ts names).2).1,
        (internAll us (internAll ts names).2).2) := by
  induction ts generalizing names with
  | nil => rfl
  | cons t ts ih => rw [List.cons_append, internAll_cons, internAll_cons, ih]; rfl

/-- Interning does not look at the places of tokens. -/
theorem internAll_shift (n : Nat) (ts : List (Token String)) (names : Names) :
    internAll (ts.map (shift n)) names =
      ((internAll ts names).1.map (shift n), (internAll ts names).2) := by
  induction ts generalizing names with
  | nil => rfl
  | cons t ts ih => rw [List.map_cons, internAll_cons, internAll_cons, shift_kind, ih]; rfl

end Token

/-! ## The tokens that are read -/

namespace Grammar

theorem readable_append {ts : List (Token Name)} (h : ∀ t ∈ ts, t.isEndOfFile = false)
    (us : List (Token Name)) : readable (ts ++ us) = ts ++ readable us :=
  List.takeWhile_append_of_pos fun t ht => by simp [h t ht]

/-- Nothing of what is read is cut off. -/
theorem readable_of_subset {ts us : List (Token Name)} (h : us ⊆ readable ts) (s : Span) :
    readable (us ++ [⟨.endOfFile, s⟩]) = us := by
  rw [readable_append fun t ht => isEndOfFile_of_mem_readable (h ht)]
  exact List.append_nil us

theorem readable_shift (n : Nat) (ts : List (Token Name)) :
    readable (ts.map (Token.shift n)) = (readable ts).map (Token.shift n) :=
  List.takeWhile_map ..

end Grammar

/-- A line feed leaves no token. -/
theorem Lexer.lexemes_cons_newline (start : Nat) (cs : List Char) :
    lexemes start ('\n' :: cs) = lexemes (start + 1) cs := by
  have hscan : scan '\n' cs = (none, 0) := rfl
  rw [lexemes, hscan]
  rfl

theorem Lexer.lexemes_cons_semicolon (start : Nat) (cs : List Char) :
    lexemes start (';' :: cs) =
      ⟨.symbol .semicolon, ⟨start, start + 1⟩⟩ :: lexemes (start + 1) cs := by
  have hscan : scan ';' cs = (some (.symbol .semicolon), 0) := rfl
  rw [lexemes, hscan]
  rfl

theorem TokenKind.spelled_eq_invalid_iff {names : Names} {kind : TokenKind Name} :
    kind.spelled names = .invalid ↔ kind = .invalid := by
  cases kind <;> simp [spelled]

/-- The tokens of a joined source that are read, and its names. -/
theorem lex_joined {first : String} {names : Names}
    (h : ∀ t ∈ readable (lex first names).1, t.kind ≠ .invalid) (second : String) :
    readable (lex (first ++ "\n;\n" ++ second) names).1 = readable (lex first names).1 ++
      symbolAt .semicolon (.ofRange (first.utf8ByteSize + 1) (first.utf8ByteSize + 2)) ::
        (readable (lex second (lex first names).2).1).map
          (Token.shift (first.utf8ByteSize + 3)) ∧
    (lex (first ++ "\n;\n" ++ second) names).2 = (lex second (lex first names).2).2 := by
  have hvalid : ∀ t ∈ tokens first, t.kind ≠ .invalid := by
    rw [← spelled_lex first names, lex_eq_readable, List.forall_mem_map, List.forall_mem_append]
    refine ⟨fun t ht => mt TokenKind.spelled_eq_invalid_iff.mp (h t ht), ?_⟩
    simp [TokenKind.spelled]
  have hlexemes : ∀ t ∈ lexemes 0 first.toList, t.kind ≠ .invalid := fun t ht =>
    hvalid t.fit (List.mem_map_of_mem ht)
  obtain ⟨ts, hfirst, hjoined⟩ := lexemes_newline hlexemes (';' :: '\n' :: second.toList)
  rw [byteLength_toList, Nat.zero_add] at hfirst hjoined
  have hsource : (first ++ "\n;\n" ++ second).toList =
      first.toList ++ '\n' :: ';' :: '\n' :: second.toList := by simp
  -- The end of the first source has no name.
  have hlex : lex first names = ((Token.internAll (ts.map Token.fit) names).1 ++
      [⟨.endOfFile, .ofRange first.utf8ByteSize first.utf8ByteSize⟩],
        (Token.internAll (ts.map Token.fit) names).2) := by
    rw [lex, tokens, hfirst, List.map_append, Token.internAll_append]
    rfl
  have hread : readable (lex first names).1 = (Token.internAll (ts.map Token.fit) names).1 := by
    have hsplit := lex_eq_readable first names
    rw [hlex] at hsplit ⊢
    exact (List.append_inj' hsplit rfl).1.symm
  have hwhole : lex (first ++ "\n;\n" ++ second) names =
      ((Token.internAll (ts.map Token.fit) names).1 ++
        symbolAt .semicolon (.ofRange (first.utf8ByteSize + 1) (first.utf8ByteSize + 2)) ::
        (lex second (Token.internAll (ts.map Token.fit) names).2).1.map
          (Token.shift (first.utf8ByteSize + 3)),
      (lex second (Token.internAll (ts.map Token.fit) names).2).2) := by
    have hshift : (lexemes (first.utf8ByteSize + 1 + 1 + 1) second.toList).map Token.fit =
        (tokens second).map (Token.shift (first.utf8ByteSize + 3)) := by
      rw [tokens, ← lexemes_shift, Nat.zero_add]
    rw [lexemes_cons_newline, lexemes_cons_semicolon, lexemes_cons_newline] at hjoined
    rw [lex, tokens, hsource, hjoined, List.map_append, List.map_cons, hshift,
      Token.internAll_append, Token.internAll_cons, Token.internAll_shift]
    rfl
  have hnames : (lex first names).2 = (Token.internAll (ts.map Token.fit) names).2 := by rw [hlex]
  rw [hwhole, hread, hnames]
  refine ⟨?_, rfl⟩
  rw [readable_append fun t ht => isEndOfFile_of_mem_readable (hread ▸ ht), ← readable_shift]
  rfl

end Enquanto

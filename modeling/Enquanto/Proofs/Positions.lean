import Enquanto.Proofs.SourceSpans
import Mathlib.Data.Prod.Lex

/-!
# Positions

A report shows a place in a source as a line and a column. They say no less than the offset of the
place: it is found again by splitting the source at its line feeds and skipping characters of the
line, and what comes later in the source has the greater position.

* `Span.skipped?` and `Span.landing?`: the text that a position skips, and the offset behind it;
* `Span.positionAfter_concat`: what one character more does to a position;
* `Span.skipped?_eq_some_iff`: the text that a position skips is what stands before it;
* `Span.lineColumn_identifies`: positions and the offsets between characters determine each other,
  and have the same order.
-/

namespace Enquanto

open Lexer

namespace Span

/-- The text that a position skips. The text is split at its line feeds; the lines before are
skipped, each with its line feed, and `column - 1` characters of the line itself. Lines and columns
count from one, and the text must have that line, and the line that many characters. -/
def skipped? (text : List Char) : Nat × Nat → Option (List Char)
  | (line + 1, column + 1) =>
    (text.splitOn '\n')[line]?.bind fun chars =>
      if column ≤ chars.length then
        some (((text.splitOn '\n').take line).flatMap (· ++ ['\n']) ++ chars.take column)
      else none
  | _ => none

/-- The offset at which a position of a source lands. -/
def landing? (source : String) (position : Nat × Nat) : Option Nat :=
  (skipped? source.toList position).map byteLength

/-! ## Character by character -/

/-- A line feed starts a line, and any other character is one column. -/
theorem positionAfter_concat (before : List Char) (c : Char) :
    positionAfter (before ++ [c]) =
      if c = '\n' then ((positionAfter before).1 + 1, 1)
      else ((positionAfter before).1, (positionAfter before).2 + 1) := by
  by_cases hc : c = '\n'
  · simp [positionAfter, hc]
  · simp [positionAfter, hc]

theorem positionAfter_lt_concat (before : List Char) (c : Char) :
    toLex (positionAfter before) < toLex (positionAfter (before ++ [c])) := by
  rw [positionAfter_concat, Prod.Lex.toLex_lt_toLex]
  split
  · exact .inl (Nat.lt_succ_self _)
  · exact .inr ⟨rfl, Nat.lt_succ_self _⟩

theorem positionAfter_le_append (before more : List Char) :
    toLex (positionAfter before) ≤ toLex (positionAfter (before ++ more)) := by
  induction more generalizing before with
  | nil => rw [List.append_nil]
  | cons c more ih =>
    have hrest := ih (before ++ [c])
    rw [List.append_assoc] at hrest
    exact (positionAfter_lt_concat before c).le.trans hrest

/-- What comes later has the greater position. -/
theorem positionAfter_lt_append (before : List Char) {more : List Char} (h : more ≠ []) :
    toLex (positionAfter before) < toLex (positionAfter (before ++ more)) := by
  obtain ⟨c, more, rfl⟩ := List.exists_cons_of_ne_nil h
  have hrest := positionAfter_le_append (before ++ [c]) more
  rw [List.append_assoc] at hrest
  exact (positionAfter_lt_concat before c).trans_le hrest

theorem positionAfter_append_of_notMem (before : List Char) {chars : List Char}
    (h : '\n' ∉ chars) :
    positionAfter (before ++ chars) =
      ((positionAfter before).1, (positionAfter before).2 + chars.length) := by
  induction chars using List.reverseRecOn with
  | nil => rw [List.append_nil, List.length_nil, Nat.add_zero]
  | append_singleton chars c ih =>
    obtain ⟨hchars, hc⟩ := not_or.mp (mt List.mem_append.mpr h)
    have hne : c ≠ '\n' := fun he => hc (List.mem_singleton.mpr he.symm)
    rw [← List.append_assoc, positionAfter_concat, if_neg hne, ih hchars, List.length_append]
    rfl

/-! ## Line by line -/

variable {text before after chars : List Char} {lines : List (List Char)}

theorem positionAfter_flatMap (h : ∀ line ∈ lines, '\n' ∉ line) :
    positionAfter (lines.flatMap (· ++ ['\n'])) = (lines.length + 1, 1) := by
  induction lines using List.reverseRecOn with
  | nil => rfl
  | append_singleton lines line ih =>
    have hlines := ih fun l hl => h l (List.mem_append_left _ hl)
    have hline := h line (List.mem_append_right _ (List.mem_singleton_self line))
    rw [List.flatMap_append, List.flatMap_singleton, ← List.append_assoc, positionAfter_concat,
      if_pos rfl, positionAfter_append_of_notMem _ hline, hlines, List.length_append]
    rfl

/-- The position behind whole lines and some characters. -/
theorem positionAfter_lines (h : ∀ line ∈ lines, '\n' ∉ line) (hchars : '\n' ∉ chars) :
    positionAfter (lines.flatMap (· ++ ['\n']) ++ chars) =
      (lines.length + 1, chars.length + 1) := by
  rw [positionAfter_append_of_notMem _ hchars, positionAfter_flatMap h, Nat.add_comm 1]

/-- Every text is whole lines and some characters. -/
theorem exists_lines (text : List Char) : ∃ (lines : List (List Char)) (last : List Char),
    (∀ line ∈ lines, '\n' ∉ line) ∧ '\n' ∉ last ∧
      text = lines.flatMap (· ++ ['\n']) ++ last := by
  induction text using List.reverseRecOn with
  | nil => exact ⟨[], [], nofun, List.not_mem_nil, rfl⟩
  | append_singleton text c ih =>
    obtain ⟨lines, last, hlines, hlast, rfl⟩ := ih
    by_cases hc : c = '\n'
    · refine ⟨lines ++ [last], [], fun line hline => ?_, List.not_mem_nil, ?_⟩
      · rcases List.mem_append.mp hline with hline | hline
        · exact hlines line hline
        · rwa [List.mem_singleton.mp hline]
      · simp [hc]
    · refine ⟨lines, last ++ [c], hlines, fun hm => ?_, List.append_assoc ..⟩
      rcases List.mem_append.mp hm with hm | hm
      · exact hlast hm
      · exact hc (List.mem_singleton.mp hm).symm

theorem splitOn_lines (h : ∀ line ∈ lines, '\n' ∉ line) (rest : List Char) :
    (lines.flatMap (· ++ ['\n']) ++ rest).splitOn '\n' = lines ++ rest.splitOn '\n' := by
  induction lines with
  | nil => rfl
  | cons line lines ih =>
    obtain ⟨hline, hlines⟩ := List.forall_mem_cons.mp h
    rw [List.flatMap_cons, List.append_assoc, List.append_assoc, List.singleton_append,
      List.splitOn_append_cons_self_of_not_mem hline, ih hlines]
    rfl

/-- Characters of a line stand at the start of the first piece. -/
theorem splitOn_append_of_notMem (h : '\n' ∉ chars) (after : List Char) :
    ∃ piece pieces, (chars ++ after).splitOn '\n' = (chars ++ piece) :: pieces := by
  obtain ⟨lines, last, hlines, hlast, rfl⟩ := exists_lines after
  cases lines with
  | nil =>
    have hclean : '\n' ∉ chars ++ last := fun hm => (List.mem_append.mp hm).elim h hlast
    exact ⟨last, [], List.splitOn_eq_singleton hclean⟩
  | cons line lines =>
    have hclean : '\n' ∉ chars ++ line :=
      fun hm => (List.mem_append.mp hm).elim h (hlines line List.mem_cons_self)
    refine ⟨line, (lines.flatMap (· ++ ['\n']) ++ last).splitOn '\n', ?_⟩
    rw [← List.splitOn_append_cons_self_of_not_mem hclean]
    simp

/-- The position behind a part of a text skips that part. -/
theorem skipped?_positionAfter (before after : List Char) :
    skipped? (before ++ after) (positionAfter before) = some before := by
  obtain ⟨lines, last, hlines, hlast, rfl⟩ := exists_lines before
  obtain ⟨piece, pieces, hpieces⟩ := splitOn_append_of_notMem hlast after
  rw [positionAfter_lines hlines hlast, skipped?, List.append_assoc, splitOn_lines hlines, hpieces]
  simp

/-- A piece of a text stands behind those before it. -/
theorem exists_of_piece {n : Nat} (h : (text.splitOn '\n')[n]? = some chars) :
    (∀ line ∈ (text.splitOn '\n').take n, '\n' ∉ line) ∧ '\n' ∉ chars ∧
      ∃ after, text = ((text.splitOn '\n').take n).flatMap (· ++ ['\n']) ++ (chars ++ after) := by
  obtain ⟨lines, last, hlines, hlast, rfl⟩ := exists_lines text
  rw [splitOn_lines hlines, List.splitOn_eq_singleton hlast] at h ⊢
  rcases Nat.lt_or_ge n lines.length with hn | hn
  · rw [List.getElem?_append_left hn] at h
    rw [List.take_append_of_le_length hn.le]
    have hsplit : lines = lines.take n ++ chars :: lines.drop (n + 1) := by
      obtain ⟨_, rfl⟩ := List.getElem?_eq_some_iff.mp h
      rw [List.getElem_cons_drop, List.take_append_drop]
    refine ⟨fun line hline => hlines line (List.mem_of_mem_take hline),
      hlines chars (List.mem_of_getElem? h),
      '\n' :: ((lines.drop (n + 1)).flatMap (· ++ ['\n']) ++ last), ?_⟩
    conv_lhs => rw [hsplit]
    simp
  · rw [List.getElem?_append_right hn, List.getElem?_singleton] at h
    split at h
    · cases h
      obtain rfl : n = lines.length := by omega
      rw [List.take_left]
      exact ⟨hlines, hlast, [], by rw [List.append_nil]⟩
    · cases h

/-- A position skips what stands before it, and only positions of the text skip anything. -/
theorem skipped?_eq_some_iff {position : Nat × Nat} :
    skipped? text position = some before ↔
      positionAfter before = position ∧ ∃ after, text = before ++ after := by
  constructor
  · intro h
    unfold skipped? at h
    split at h
    · rename_i line column
      obtain ⟨chars, hpiece, h⟩ := Option.bind_eq_some_iff.mp h
      obtain ⟨hlines, hchars, after, hafter⟩ := exists_of_piece hpiece
      have hline : line < (text.splitOn '\n').length := (List.getElem?_eq_some_iff.mp hpiece).1
      split at h
      · rename_i hcolumn
        cases h
        refine ⟨?_, chars.drop column ++ after, ?_⟩
        · rw [positionAfter_lines hlines fun hm => hchars (List.mem_of_mem_take hm),
            List.length_take, List.length_take, Nat.min_eq_left hline.le, Nat.min_eq_left hcolumn]
        · rw [List.append_assoc, ← List.append_assoc (chars.take column), List.take_append_drop]
          exact hafter
      · cases h
    · cases h
  · rintro ⟨rfl, after, rfl⟩
    exact skipped?_positionAfter before after

/-! ## Offsets -/

theorem lineColumn_point_of_append {source : String} (h : source.toList = before ++ after) :
    (point (byteLength before)).lineColumn source = positionAfter before := by
  simp only [lineColumn, point, h, charsBefore_byteLength, Nat.zero_add, List.take_left]

/-- The offsets between characters are those behind the parts of a source. -/
theorem isValid_iff {source : String} {a : Nat} : String.Pos.Raw.IsValid source ⟨a⟩ ↔
    ∃ before after, source.toList = before ++ after ∧ a = byteLength before := by
  constructor
  · intro h
    obtain ⟨before, after, rfl, ha⟩ := String.Pos.Raw.isValid_iff_exists_append.mp h
    refine ⟨before.toList, after.toList, String.toList_append, ?_⟩
    rw [byteLength_toList]
    exact congrArg String.Pos.Raw.byteIdx ha
  · rintro ⟨before, after, hsource, rfl⟩
    exact isValid_byteLength hsource

/-- Line and column are as good as the offset. The position of an offset between characters lands
there, each position that lands somewhere is that of the offset, and of two offsets the later one
has the greater position: the later line, or the greater column of the same line. -/
theorem lineColumn_identifies (source : String) :
    (∀ (a : Nat) (position : Nat × Nat), landing? source position = some a ↔
      String.Pos.Raw.IsValid source ⟨a⟩ ∧ (point a).lineColumn source = position) ∧
    ∀ a b : Nat, String.Pos.Raw.IsValid source ⟨a⟩ → String.Pos.Raw.IsValid source ⟨b⟩ → a < b →
      toLex ((point a).lineColumn source) < toLex ((point b).lineColumn source) := by
  constructor
  · intro a position
    rw [landing?, Option.map_eq_some_iff, isValid_iff]
    constructor
    · rintro ⟨before, hskipped, rfl⟩
      obtain ⟨rfl, after, hsource⟩ := skipped?_eq_some_iff.mp hskipped
      exact ⟨⟨before, after, hsource, rfl⟩, lineColumn_point_of_append hsource⟩
    · rintro ⟨⟨before, after, hsource, rfl⟩, rfl⟩
      refine ⟨before, skipped?_eq_some_iff.mpr ⟨?_, after, hsource⟩, rfl⟩
      exact (lineColumn_point_of_append hsource).symm
  · intro a b ha hb hlt
    obtain ⟨before, after, hsource, rfl⟩ := isValid_iff.mp ha
    obtain ⟨before', after', hsource', rfl⟩ := isValid_iff.mp hb
    rw [lineColumn_point_of_append hsource, lineColumn_point_of_append hsource']
    -- The shorter part is the start of the longer one, which goes on behind it.
    rcases List.append_eq_append_iff.mp (hsource.symm.trans hsource') with
      ⟨more, rfl, -⟩ | ⟨more, rfl, -⟩
    · refine positionAfter_lt_append before fun hnil => ?_
      rw [hnil, List.append_nil] at hlt
      exact Nat.lt_irrefl _ hlt
    · rw [byteLength_append] at hlt
      omega

/-- A source with characters of two bytes, a line feed behind the first of them, and an empty line:
the offset of the second line feed is the start of that line, and the next one starts the third. -/
theorem lineColumn_identifies_emptyLine : landing? "é\n\nàb" (2, 1) = some 3 ∧
    (point 3).lineColumn "é\n\nàb" = (2, 1) ∧ (point 6).lineColumn "é\n\nàb" = (3, 2) ∧
    toLex ((point 3).lineColumn "é\n\nàb") < toLex ((point 6).lineColumn "é\n\nàb") := by
  obtain ⟨hiff, horder⟩ := lineColumn_identifies "é\n\nàb"
  have h3 : String.Pos.Raw.IsValid "é\n\nàb" ⟨3⟩ := by decide
  have h6 : String.Pos.Raw.IsValid "é\n\nàb" ⟨6⟩ := by decide
  have hposition : (point 3).lineColumn "é\n\nàb" = (2, 1) := by decide
  exact ⟨(hiff 3 (2, 1)).mpr ⟨h3, hposition⟩, hposition, by decide,
    horder 3 6 h3 h6 (by decide)⟩

end Span

end Enquanto

import Enquanto.Token.Lexer
import Mathlib.Data.List.TakeWhile

/-!
# The lexical rules

What a lexeme is, said without the lexer. A rule allows certain texts; at a place of a source the
longest text that any rule allows there wins, and a keyword wins over the identifier with the same
letters. Three kinds of text are faulty: a run of digits whose value needs more than 32 bits, a
quote without a second one, and a character that starts no text of any rule.

* `Rule.Matches`, `Rule.Longest`, `Rule.Wins` and `Rule.Makes`: the rules, and the token of a match;
* `Faulty`: the texts that give an invalid token;
* `Lexed`: the token that starts at a place;
* `scan_lexed` and `scan_layout`: what the lexer finds at a place is what the rules say;
* `Faulty.scan_eq`: and it finds every faulty text.
-/

namespace Enquanto.Lexical

open Lexer

def IsBlank (c : Char) : Prop := c = ' ' ∨ c = '\t' ∨ c = '\r' ∨ c = '\n'
  deriving Decidable

def IsDigit (c : Char) : Prop := '0' ≤ c ∧ c ≤ '9'
  deriving Decidable

/-- Letters, with the underscore among them. -/
def IsLetter (c : Char) : Prop := ('a' ≤ c ∧ c ≤ 'z') ∨ ('A' ≤ c ∧ c ≤ 'Z') ∨ c = '_'
  deriving Decidable

/-- The rules for lexemes. The first two are for layout, which leaves no token. -/
inductive Rule where
  | blanks
  | comment
  | integer
  | text
  | identifier
  | keyword (keyword : Keyword)
  | symbol (symbol : Symbol)

/-- The number that a run of digits stands for. -/
def number (digits : List Char) : Nat := Nat.ofDigitChars 10 digits 0

namespace Rule

/-- The texts that a rule allows. -/
def Matches : Rule → List Char → Prop
  | .blanks, cs => cs ≠ [] ∧ ∀ c ∈ cs, IsBlank c
  | .comment, cs => ∃ body, cs = '#' :: body ∧ '\n' ∉ body
  | .integer, cs => cs ≠ [] ∧ ∀ c ∈ cs, IsDigit c
  | .text, cs => ∃ content, cs = '"' :: content ++ ['"'] ∧ '"' ∉ content
  | .identifier, cs => ∃ c tail, cs = c :: tail ∧ IsLetter c ∧ ∀ d ∈ tail, IsLetter d ∨ IsDigit d
  | .keyword k, cs => cs = k.spelling.toList
  | .symbol s, cs => cs = s.spelling.toList

/-- Where `rest` follows, no rule allows more than this one does with `lexeme`. -/
def Longest (rule : Rule) (lexeme rest : List Char) : Prop :=
  rule.Matches lexeme ∧ ∀ other : Rule, ∀ longer after, other.Matches longer →
    longer ++ after = lexeme ++ rest → longer.length ≤ lexeme.length

/-- The rule takes `lexeme` where `rest` follows. -/
def Wins (rule : Rule) (lexeme rest : List Char) : Prop :=
  rule.Longest lexeme rest ∧ (rule = .identifier → ∀ k, ¬ (keyword k).Matches lexeme)

/-- The token of a match: an integer has the value of its digits, an identifier its text, and a
text what is between the quotes. -/
def Makes : Rule → List Char → TokenKind String → Prop
  | .integer, lexeme, .integer magnitude => magnitude.toNat = number lexeme
  | .text, lexeme, .text content => lexeme = '"' :: content.toList ++ ['"']
  | .identifier, lexeme, .identifier name => lexeme = name.toList
  | .keyword k, _, .keyword k' => k' = k
  | .symbol s, _, .symbol s' => s' = s
  | _, _, _ => False

end Rule

/-- A text that is an invalid token where `rest` follows. -/
inductive Faulty : List Char → List Char → Prop where
  | tooLarge {digits rest} (longest : Rule.integer.Longest digits rest)
      (large : 4294967295 < number digits) : Faulty digits rest
  | unclosed {body} (h : '"' ∉ body) : Faulty ('"' :: body) []
  | stray {c rest} (h : ∀ rule : Rule, ∀ cs, ¬ rule.Matches (c :: cs)) : Faulty [c] rest

/-- The token of `lexeme`, where `rest` follows. -/
inductive Lexed (lexeme rest : List Char) : TokenKind String → Prop where
  | rule {r : Rule} {kind} (wins : r.Wins lexeme rest) (makes : r.Makes lexeme kind) :
      Lexed lexeme rest kind
  | fault (h : Faulty lexeme rest) : Lexed lexeme rest .invalid

/-- Text without tokens, where `rest` follows: blanks, and comments that run up to a line feed or
to the end of the source. -/
inductive Layout : List Char → List Char → Prop where
  | nil {rest} : Layout [] rest
  | blank {c gap rest} (h : IsBlank c) (layout : Layout gap rest) : Layout (c :: gap) rest
  | comment {body gap rest} (h : '\n' ∉ body) (stops : ∀ c ∈ (gap ++ rest).head?, c = '\n')
      (layout : Layout gap rest) : Layout ('#' :: body ++ gap) rest

/-! ## Classes of characters -/

theorem isBlank_iff (c : Char) : isBlank c = true ↔ IsBlank c := by
  simp [isBlank, IsBlank, or_assoc]

theorem isDigit_iff (c : Char) : c.isDigit = true ↔ IsDigit c := by
  simp [Char.isDigit, IsDigit, Char.le_def]

theorem isAlpha_or_underscore_iff (c : Char) :
    c.isAlpha = true ∨ c = '_' ↔ IsLetter c := by
  have halpha : c.isAlpha = true ↔ c.isUpper = true ∨ c.isLower = true := Bool.or_eq_true_iff
  have hupper : c.isUpper = true ↔ 'A' ≤ c ∧ c ≤ 'Z' := decide_eq_true_iff
  have hlower : c.isLower = true ↔ 'a' ≤ c ∧ c ≤ 'z' :=
    Bool.and_eq_true_iff.trans (and_congr decide_eq_true_iff decide_eq_true_iff)
  rw [halpha, hupper, hlower, or_assoc, or_left_comm, IsLetter]

theorem isWordStart_iff (c : Char) : isWordStart c = true ↔ IsLetter c := by
  simp [isWordStart, isAlpha_or_underscore_iff]

theorem isWordPart_iff (c : Char) : isWordPart c = true ↔ IsLetter c ∨ IsDigit c := by
  rw [← isAlpha_or_underscore_iff, ← isDigit_iff, or_right_comm]
  simp [isWordPart, Char.isAlphanum]

/-! ## First characters -/

/-- The characters that symbols start with. -/
def signs : List Char := Symbol.all.flatMap fun s => s.spelling.toList.take 1

/-- Which characters the texts of a rule start with. -/
def Rule.Starts : Rule → Char → Prop
  | .blanks => IsBlank
  | .comment => (· = '#')
  | .integer => IsDigit
  | .text => (· = '"')
  | .identifier | .keyword _ => IsLetter
  | .symbol _ => (· ∈ signs)

/-- Keywords are words. -/
theorem matches_identifier_of_keyword {k : Keyword} {cs : List Char}
    (h : (Rule.keyword k).Matches cs) : Rule.identifier.Matches cs := by
  have hwords : ∀ k ∈ Keyword.all, k.spelling.toList ≠ [] ∧
      k.spelling.toList.all (IsLetter ·) := by decide +kernel
  obtain ⟨hne, hall⟩ := hwords k (Keyword.mem_all k)
  obtain ⟨c, tail, hcs⟩ := List.exists_cons_of_ne_nil hne
  rw [hcs] at hall
  have hletter (d : Char) (hd : d ∈ c :: tail) : IsLetter d :=
    of_decide_eq_true (List.all_eq_true.mp hall d hd)
  exact ⟨c, tail, h.trans hcs, hletter c List.mem_cons_self,
    fun d hd => .inl (hletter d (List.mem_cons_of_mem c hd))⟩

theorem Rule.Matches.starts {rule : Rule} {c : Char} {cs : List Char} (h : rule.Matches (c :: cs)) :
    rule.Starts c := by
  cases rule with
  | blanks => exact h.2 c (List.mem_cons_self ..)
  | comment =>
    obtain ⟨body, hcs, -⟩ := h
    exact (List.cons.inj hcs).1
  | integer => exact h.2 c (List.mem_cons_self ..)
  | text =>
    obtain ⟨content, hcs, -⟩ := h
    exact (List.cons.inj hcs).1
  | identifier =>
    obtain ⟨d, tail, hcs, hd, -⟩ := h
    exact (List.cons.inj hcs).1 ▸ hd
  | keyword k =>
    obtain ⟨d, tail, hcs, hd, -⟩ := matches_identifier_of_keyword h
    exact (List.cons.inj hcs).1 ▸ hd
  | symbol s =>
    have hs : s.spelling.toList = c :: cs := Eq.symm h
    exact List.mem_flatMap.mpr ⟨s, Symbol.mem_all s, by simp [hs]⟩

theorem Rule.Matches.ne_nil {rule : Rule} {cs : List Char} (h : rule.Matches cs) : cs ≠ [] := by
  rintro rfl
  cases rule with
  | blanks => exact h.1 rfl
  | comment => simp [Matches] at h
  | integer => exact h.1 rfl
  | text => simp [Matches] at h
  | identifier => simp [Matches] at h
  | keyword k =>
    have h := matches_identifier_of_keyword h
    simp [Matches] at h
  | symbol s => cases s <;> simp [Matches, Symbol.spelling] at h

theorem IsLetter.not_isDigit {c : Char} (h : IsLetter c) : ¬ IsDigit c := by
  rintro ⟨h₀, h₉⟩
  rcases h with ⟨ha, -⟩ | ⟨hA, -⟩ | rfl
  · exact absurd (Char.le_trans ha h₉) (by decide)
  · exact absurd (Char.le_trans hA h₉) (by decide)
  · exact absurd h₉ (by decide)

/-- What symbols start with, nothing else starts with. -/
theorem classes_of_mem_signs {c : Char} (h : c ∈ signs) :
    ¬ IsBlank c ∧ c ≠ '#' ∧ ¬ IsDigit c ∧ ¬ IsLetter c ∧ c ≠ '"' := by
  -- `List.all` is run over the signs alone; a bounded quantifier may be run over all characters.
  have hall : signs.all fun c =>
      ¬ IsBlank c ∧ c ≠ '#' ∧ ¬ IsDigit c ∧ ¬ IsLetter c ∧ c ≠ '"' := by decide +kernel
  exact of_decide_eq_true (List.all_eq_true.mp hall c h)

theorem IsBlank.not_isDigit {c : Char} (h : IsBlank c) : ¬ IsDigit c := by
  rcases h with rfl | rfl | rfl | rfl <;> decide

theorem IsBlank.not_isLetter {c : Char} (h : IsBlank c) : ¬ IsLetter c := by
  rcases h with rfl | rfl | rfl | rfl <;> decide

/-- Only integers start with a digit. -/
theorem Rule.Starts.eq_integer {rule : Rule} {c : Char} (h : rule.Starts c) (hc : IsDigit c) :
    rule = .integer := by
  cases rule with
  | blanks => exact absurd hc h.not_isDigit
  | comment => cases h; exact absurd hc (by decide)
  | integer => rfl
  | text => cases h; exact absurd hc (by decide)
  | identifier => exact absurd hc h.not_isDigit
  | keyword k => exact absurd hc h.not_isDigit
  | symbol s => exact absurd hc (classes_of_mem_signs h).2.2.1

/-- Only words start with a letter. -/
theorem Rule.Matches.identifier {rule : Rule} {c : Char} {cs : List Char}
    (h : rule.Matches (c :: cs)) (hc : IsLetter c) : Rule.identifier.Matches (c :: cs) := by
  have hs := h.starts
  cases rule with
  | blanks => exact absurd hc hs.not_isLetter
  | comment => cases hs; exact absurd hc (by decide)
  | integer => exact absurd hs hc.not_isDigit
  | text => cases hs; exact absurd hc (by decide)
  | identifier => exact h
  | keyword k => exact matches_identifier_of_keyword h
  | symbol s => exact absurd hc (classes_of_mem_signs hs).2.2.2.1

/-- Only texts start with a quote. -/
theorem Rule.Starts.eq_text {rule : Rule} (h : rule.Starts '"') : rule = .text := by
  cases rule with
  | blanks => exact absurd h (by simp [Starts, IsBlank])
  | comment => exact absurd h (by simp [Starts])
  | integer => exact absurd h (by simp only [Starts]; decide)
  | text => rfl
  | identifier => exact absurd h (by simp only [Starts]; decide)
  | keyword k => exact absurd h (by simp only [Starts]; decide)
  | symbol s => exact absurd rfl (classes_of_mem_signs h).2.2.2.2

/-! ## Runs of characters -/

/-- A run ends where `p` fails, and nowhere else. -/
theorem run_append {p : Char → Bool} {body rest : List Char} (hbody : ∀ c ∈ body, p c = true)
    (hrest : ∀ c ∈ rest.head?, p c = false) : run p (body ++ rest) = body.length := by
  have hstop : rest.takeWhile p = [] := by
    cases rest with
    | nil => rfl
    | cons c rest => simp [hrest c rfl]
  rw [run, List.takeWhile_append_of_pos hbody, hstop, List.append_nil]

theorem exists_run (p : Char → Bool) (cs : List Char) :
    ∃ body rest, cs = body ++ rest ∧ run p cs = body.length ∧ (∀ c ∈ body, p c = true) ∧
      ∀ c ∈ rest.head?, p c = false := by
  refine ⟨cs.takeWhile p, cs.dropWhile p, (List.takeWhile_append_dropWhile ..).symm, rfl,
    fun c hc => List.mem_takeWhile_imp hc, fun c hc => ?_⟩
  have h := List.head?_dropWhile_not p cs
  rw [Option.mem_def] at hc
  rw [hc] at h
  exact h

/-- A text whose characters satisfy `P` ends before the first character that does not. -/
theorem length_le_of_forall {P : Char → Prop} {body rest longer after : List Char}
    (hrest : ∀ c ∈ rest.head?, ¬ P c) (h : longer ++ after = body ++ rest)
    (hlonger : ∀ c ∈ longer, P c) : longer.length ≤ body.length := by
  rcases List.append_eq_append_iff.mp h with ⟨more, rfl, -⟩ | ⟨more, rfl, hmore⟩
  · simp
  · cases more with
    | nil => simp
    | cons c more => exact absurd (hlonger c (by simp)) (hrest c (by simp [hmore]))

/-! ## Lexemes -/

/-- A rule is the longest if all that starts with the same character is no longer. -/
theorem Rule.longest_of_starts {rule : Rule} {c : Char} {body rest : List Char}
    (h : rule.Matches (c :: body))
    (hle : ∀ other : Rule, ∀ tail after, other.Matches (c :: tail) →
      c :: tail ++ after = c :: body ++ rest → (c :: tail).length ≤ (c :: body).length) :
    rule.Longest (c :: body) rest := by
  refine ⟨h, fun other longer after hother heq => ?_⟩
  obtain ⟨d, tail, rfl⟩ := List.exists_cons_of_ne_nil hother.ne_nil
  obtain rfl : d = c := (List.cons.inj heq).1
  exact hle other tail after hother heq

theorem number_eq (digits : List Char) : number digits = Decimal.value digits :=
  Nat.ofDigitChars_eq_foldl

theorem integer_longest {c : Char} {body rest : List Char} (hc : IsDigit c)
    (hbody : ∀ d ∈ body, IsDigit d) (hrest : ∀ d ∈ rest.head?, ¬ IsDigit d) :
    Rule.integer.Longest (c :: body) rest := by
  have hall : ∀ d ∈ c :: body, IsDigit d := List.forall_mem_cons.mpr ⟨hc, hbody⟩
  refine Rule.longest_of_starts ⟨List.cons_ne_nil c body, hall⟩ ?_
  intro other tail after hother heq
  obtain rfl := hother.starts.eq_integer hc
  exact length_le_of_forall hrest heq hother.2

theorem lexed_number {c : Char} {body rest : List Char} (hc : IsDigit c)
    (hbody : ∀ d ∈ body, IsDigit d) (hrest : ∀ d ∈ rest.head?, ¬ IsDigit d) :
    Lexed (c :: body) rest (Lexer.number (c :: body)) := by
  have hlongest := integer_longest hc hbody hrest
  rw [Lexer.number, ← number_eq]
  split
  · rename_i hlt
    exact .rule ⟨hlongest, nofun⟩ (UInt32.toNat_ofNat_of_lt hlt)
  · rename_i hge
    exact .fault (.tooLarge hlongest (Nat.not_lt.mp hge))

theorem word_longest {rule : Rule} {c : Char} {body rest : List Char} (hc : IsLetter c)
    (h : rule.Matches (c :: body)) (hrest : ∀ d ∈ rest.head?, ¬ (IsLetter d ∨ IsDigit d)) :
    rule.Longest (c :: body) rest := by
  refine Rule.longest_of_starts h fun other tail after hother heq => ?_
  obtain ⟨d, tail', heq', hd, htail⟩ := hother.identifier hc
  obtain ⟨rfl, rfl⟩ := List.cons.inj heq'
  exact length_le_of_forall hrest heq (List.forall_mem_cons.mpr ⟨.inl hd, htail⟩)

theorem ofSpelling?_eq_some_iff {word : String} {k : Keyword} :
    Keyword.ofSpelling? word = some k ↔ k.spelling = word := by
  have hinj : ∀ k ∈ Keyword.all, Keyword.ofSpelling? k.spelling = some k := by decide +kernel
  constructor
  · intro h
    simpa using List.find?_some h
  · rintro rfl
    exact hinj k (Keyword.mem_all k)

theorem lexed_word {c : Char} {body rest : List Char} (hc : IsLetter c)
    (hbody : ∀ d ∈ body, IsLetter d ∨ IsDigit d)
    (hrest : ∀ d ∈ rest.head?, ¬ (IsLetter d ∨ IsDigit d)) :
    Lexed (c :: body) rest (Lexer.word (String.ofList (c :: body))) := by
  unfold Lexer.word
  split
  · rename_i k hk
    have hmatch : (Rule.keyword k).Matches (c :: body) := by
      rw [Rule.Matches, ofSpelling?_eq_some_iff.mp hk, String.toList_ofList]
    exact .rule ⟨word_longest hc hmatch hrest, nofun⟩ rfl
  · rename_i hnone
    have hmatch : Rule.identifier.Matches (c :: body) := ⟨c, body, rfl, hc, hbody⟩
    refine .rule (r := .identifier) ⟨word_longest hc hmatch hrest, fun _ k hk => ?_⟩
      (String.toList_ofList).symm
    have hspelling : k.spelling = String.ofList (c :: body) := by
      rw [show c :: body = k.spelling.toList from hk, String.ofList_toList]
    rw [ofSpelling?_eq_some_iff.mpr hspelling] at hnone
    exact nomatch hnone

theorem lexed_text {content : List Char} (h : '"' ∉ content) (rest : List Char) :
    Lexed ('"' :: content ++ ['"']) rest (.text (String.ofList content)) := by
  have hmatch : Rule.text.Matches ('"' :: (content ++ ['"'])) := ⟨content, rfl, h⟩
  refine .rule (r := .text) ⟨Rule.longest_of_starts hmatch fun other tail after hother heq => ?_,
    nofun⟩ (by simp [Rule.Makes])
  obtain rfl := hother.starts.eq_text
  obtain ⟨content', htail, h'⟩ := hother
  obtain rfl := (List.cons.inj htail).2
  -- both contents end before the first quote
  have hsplit : content' ++ '"' :: after = content ++ '"' :: rest := by simpa using heq
  have hle : content'.length ≤ content.length :=
    length_le_of_forall (P := (· ≠ '"')) (by simp) hsplit fun d hd hq => h' (hq ▸ hd)
  simpa using hle

theorem symbol?_spelling {c : Char} {rest : List Char} {s : Symbol} {n : Nat}
    (h : symbol? c rest = some (s, n)) :
    s.spelling.toList = c :: rest.take n ∧ n ≤ rest.length := by
  unfold symbol? at h
  split at h <;> cases h <;> simp [Symbol.spelling]

/-- No longer symbol is missed. -/
theorem exists_symbol? {c : Char} {tail : List Char} {s : Symbol}
    (h : s.spelling.toList = c :: tail) (after : List Char) :
    ∃ found, symbol? c (tail ++ after) = some found ∧ tail.length ≤ found.2 := by
  cases s <;> simp [Symbol.spelling] at h <;> obtain ⟨rfl, rfl⟩ := h <;> unfold symbol? <;>
    split <;> simp_all

/-- Every sign is a symbol of its own. -/
theorem symbol?_ne_none {c : Char} (h : c ∈ signs) (rest : List Char) : symbol? c rest ≠ none := by
  obtain ⟨s, -, hc⟩ := List.mem_flatMap.mp h
  cases s <;> simp [Symbol.spelling] at hc <;> subst hc <;> unfold symbol? <;> split <;> simp_all

/-- What starts with none of the other characters is a symbol. -/
theorem Rule.Starts.eq_symbol {rule : Rule} {c : Char} (h : rule.Starts c) (hblank : ¬ IsBlank c)
    (hcomment : c ≠ '#') (hdigit : ¬ IsDigit c) (hletter : ¬ IsLetter c) (hquote : c ≠ '"') :
    ∃ s, rule = .symbol s := by
  cases rule with
  | blanks => exact absurd h hblank
  | comment => exact absurd h hcomment
  | integer => exact absurd h hdigit
  | text => exact absurd h hquote
  | identifier => exact absurd h hletter
  | keyword k => exact absurd h hletter
  | symbol s => exact ⟨s, rfl⟩

theorem lexed_symbol {c : Char} {rest : List Char} {s : Symbol} {n : Nat}
    (h : symbol? c rest = some (s, n))
    (honly : ∀ rule : Rule, ∀ cs, rule.Matches (c :: cs) → ∃ s, rule = .symbol s) :
    Lexed (c :: rest.take n) (rest.drop n) (.symbol s) := by
  obtain ⟨hspelling, hle⟩ := symbol?_spelling h
  refine .rule (r := .symbol s) ⟨Rule.longest_of_starts hspelling.symm ?_, nofun⟩ rfl
  intro other tail after hother heq
  obtain ⟨s', rfl⟩ := honly other tail hother
  obtain ⟨found, hfound, hlen⟩ := exists_symbol? (Eq.symm hother) after
  have hrest : tail ++ after = rest := by simpa using heq
  rw [hrest, h] at hfound
  cases hfound
  simpa [hle] using hlen

theorem lexed_stray {c : Char} {rest : List Char} (h : symbol? c rest = none)
    (honly : ∀ rule : Rule, ∀ cs, rule.Matches (c :: cs) → ∃ s, rule = .symbol s) :
    Lexed [c] rest .invalid := by
  refine .fault (.stray fun rule cs hrule => ?_)
  obtain ⟨s, rfl⟩ := honly rule cs hrule
  exact symbol?_ne_none hrule.starts rest h

/-! ## What the lexer finds -/

/-- A token that the lexer finds is the one of the rules. -/
theorem scan_lexed {c : Char} {rest : List Char} {kind : TokenKind String} {n : Nat}
    (h : scan c rest = (some kind, n)) : Lexed (c :: rest.take n) (rest.drop n) kind := by
  simp only [scan, isBlank_iff, beq_iff_eq, isDigit_iff, isWordStart_iff] at h
  split at h
  · cases h
  split at h
  · cases h
  split at h
  · rename_i hdigit
    cases h
    obtain ⟨body, after, rfl, hrun, hbody, hafter⟩ := exists_run Char.isDigit rest
    rw [hrun, List.take_left, List.drop_left]
    exact lexed_number hdigit (by simpa [isDigit_iff] using hbody)
      (by simpa [← isDigit_iff] using hafter)
  split at h
  · rename_i hletter
    cases h
    obtain ⟨body, after, rfl, hrun, hbody, hafter⟩ := exists_run isWordPart rest
    rw [hrun, List.take_left, List.drop_left]
    exact lexed_word hletter (by simpa [isWordPart_iff] using hbody)
      (by simpa [← isWordPart_iff] using hafter)
  split at h
  · rename_i hquote
    subst hquote
    obtain ⟨body, after, rfl, hrun, hbody, hafter⟩ := exists_run (· != '"') rest
    rw [hrun, List.take_left, List.drop_left] at h
    have hnotin : '"' ∉ body := fun hmem => by simpa using hbody _ hmem
    cases after with
    | nil =>
      cases h
      simpa using Lexed.fault (.unclosed hnotin)
    | cons d after =>
      cases h
      obtain rfl : d = '"' := by simpa using hafter d rfl
      simpa [List.take_length_add_append, List.drop_length_add_append] using
        lexed_text hnotin after
  · rename_i hblank hcomment hdigit hletter hquote
    have honly (rule : Rule) (cs : List Char) (hrule : rule.Matches (c :: cs)) :=
      hrule.starts.eq_symbol hblank hcomment hdigit hletter hquote
    split at h
    · rename_i s m hs
      cases h
      exact lexed_symbol hs honly
    · rename_i hs
      cases h
      exact lexed_stray hs honly

/-- What the lexer skips is a blank, or a comment up to its end. -/
theorem scan_layout {c : Char} {rest gap after : List Char} {n : Nat}
    (h : scan c rest = (none, n)) (hrest : rest.drop n = gap ++ after) (hgap : Layout gap after) :
    Layout (c :: rest.take n ++ gap) after := by
  simp only [scan, isBlank_iff, beq_iff_eq, isDigit_iff, isWordStart_iff] at h
  split at h
  · rename_i hblank
    cases h
    exact .blank hblank hgap
  split at h
  · rename_i hcomment
    cases h
    obtain ⟨body, tail, rfl, hrun, hbody, htail⟩ := exists_run (· != '\n') rest
    rw [hrun, List.drop_left] at hrest
    rw [hrun, List.take_left, hcomment]
    refine .comment (fun hmem => by simpa using hbody _ hmem) (fun d hd => ?_) hgap
    simpa using htail d (hrest ▸ hd)
  split at h
  · cases h
  split at h
  · cases h
  split at h
  · split at h <;> cases h
  · split at h <;> cases h

/-! ## Finding a lexeme -/

section

variable {c : Char} {body rest : List Char}

theorem scan_number (hc : IsDigit c) (hbody : ∀ d ∈ body, IsDigit d)
    (hrest : ∀ d ∈ rest.head?, ¬ IsDigit d) :
    scan c (body ++ rest) = (some (Lexer.number (c :: body)), body.length) := by
  have hblank : ¬ IsBlank c := fun h => h.not_isDigit hc
  have hcomment : c ≠ '#' := by rintro rfl; exact absurd hc (by decide)
  have hrun : run Char.isDigit (body ++ rest) = body.length :=
    run_append (by simpa [isDigit_iff] using hbody) (by simpa [← isDigit_iff] using hrest)
  simp [scan, isBlank_iff, isDigit_iff, hblank, hcomment, hc, hrun]

theorem scan_word (hc : IsLetter c) (hbody : ∀ d ∈ body, IsLetter d ∨ IsDigit d)
    (hrest : ∀ d ∈ rest.head?, ¬ (IsLetter d ∨ IsDigit d)) :
    scan c (body ++ rest) = (some (Lexer.word (String.ofList (c :: body))), body.length) := by
  have hblank : ¬ IsBlank c := fun h => h.not_isLetter hc
  have hcomment : c ≠ '#' := by rintro rfl; exact absurd hc (by decide)
  have hrun : run isWordPart (body ++ rest) = body.length :=
    run_append (by simpa [isWordPart_iff] using hbody) (by simpa [← isWordPart_iff] using hrest)
  simp [scan, isBlank_iff, isDigit_iff, isWordStart_iff, hblank, hcomment, hc.not_isDigit, hc, hrun]

theorem scan_text (hbody : '"' ∉ body) :
    scan '"' (body ++ '"' :: rest) = (some (.text (String.ofList body)), body.length + 1) := by
  have hrun : run (· != '"') (body ++ '"' :: rest) = body.length :=
    run_append (fun d hd => by simpa using fun h : d = '"' => hbody (h ▸ hd)) (by simp)
  simp [scan, hrun, isBlank, isWordStart]

theorem scan_unclosed (hbody : '"' ∉ body) : scan '"' body = (some .invalid, body.length) := by
  have hrun : run (· != '"') (body ++ []) = body.length :=
    run_append (fun d hd => by simpa using fun h : d = '"' => hbody (h ▸ hd)) (by simp)
  rw [List.append_nil] at hrun
  simp [scan, hrun, isBlank, isWordStart]

end

/-- The lexer finds every faulty text. -/
theorem Faulty.scan_eq {c : Char} {cs rest : List Char} (h : Faulty (c :: cs) rest) :
    scan c (cs ++ rest) = (some .invalid, cs.length) := by
  generalize hlexeme : c :: cs = lexeme at h
  cases h with
  | tooLarge hlongest hlarge =>
    subst hlexeme
    obtain ⟨hc, hcs⟩ := List.forall_mem_cons.mp hlongest.1.2
    have hrest : ∀ d ∈ rest.head?, ¬ IsDigit d := by
      intro d hd hdigit
      obtain ⟨after, rfl⟩ := List.head?_eq_some_iff.mp hd
      have hle := hlongest.2 .integer (c :: cs ++ [d]) after
        ⟨by simp, List.forall_mem_append.mpr ⟨hlongest.1.2, by simpa using hdigit⟩⟩ (by simp)
      exact absurd hle (by simp)
    have hinvalid : Lexer.number (c :: cs) = .invalid := by
      rw [Lexer.number, ← number_eq]
      exact if_neg (Nat.not_lt.mpr hlarge)
    rw [scan_number hc hcs hrest, hinvalid]
  | unclosed hbody =>
    cases hlexeme
    rw [List.append_nil, scan_unclosed hbody]
  | stray hstray =>
    cases hlexeme
    have hblank : ¬ IsBlank c := fun hc => hstray .blanks [] ⟨by simp, by simpa using hc⟩
    have hcomment : c ≠ '#' := fun hc => hstray .comment [] ⟨[], by simp [hc], by simp⟩
    have hdigit : ¬ IsDigit c := fun hc => hstray .integer [] ⟨by simp, by simpa using hc⟩
    have hletter : ¬ IsLetter c := fun hc => hstray .identifier [] ⟨c, [], rfl, hc, by simp⟩
    have hquote : c ≠ '"' := fun hc => hstray .text ['"'] ⟨[], by simp [hc], by simp⟩
    have hsymbol : symbol? c rest = none := by
      rw [Option.eq_none_iff_forall_ne_some]
      intro ⟨s, n⟩ hs
      exact hstray (.symbol s) _ (symbol?_spelling hs).1.symm
    simp [scan, isBlank_iff, isDigit_iff, isWordStart_iff, hblank, hcomment, hdigit, hletter,
      hquote, hsymbol]

end Enquanto.Lexical

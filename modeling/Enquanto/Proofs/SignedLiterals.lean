import Enquanto.Proofs.DecimalText
import Enquanto.Proofs.ExprSimulation
import Enquanto.Proofs.CommandParsing
import Mathlib.Logic.Function.Iterate

/-!
# Signed literals

The text of an integer is one token or two: its digits, and a minus sign before them if it is
negative. Where an operand may stand they are read as an expression that has the integer for value;
the digits of the least value need its sign for that. Where a label may stand they are read as the
label for the integer.

* `TokenKind.bare` and `lex_of_kinds`: tokens without a spelling, which are lexed without names;
* `Decimal.tokens` and `Decimal.kinds_text`: the tokens of the text of an integer;
* `Expr.Constant`: literals with signs before them, and their values;
* `Expr.signed_text` and `Decimal.exists_label`: what is read of the tokens of an integer.
-/

namespace Enquanto

open Grammar Lexer Lexical Enquanto.Parser
open Run (Ends)

/-! ## Tokens without a spelling -/

namespace TokenKind

/-- A token without a spelling, whatever spellings are. -/
def bare {ν : Type} : TokenKind Empty → TokenKind ν
  | .integer magnitude => .integer magnitude
  | .keyword k => .keyword k
  | .symbol s => .symbol s
  | .invalid => .invalid
  | .endOfFile => .endOfFile

/-- A token without a spelling leaves the names alone. -/
theorem run_intern_bare (k : TokenKind Empty) (names : Names) :
    (bare k).intern.run names = (bare k, names) := by
  cases k with
  | text content => exact content.elim
  | identifier name => exact name.elim
  | _ => rfl

theorem mapM_intern_bare (ks : List (TokenKind Empty)) (more : List (TokenKind String))
    (names : Names) : ((ks.map bare ++ more).mapM intern).run names =
      (ks.map bare ++ ((more.mapM intern).run names).1, ((more.mapM intern).run names).2) := by
  induction ks with
  | nil => rfl
  | cons k ks ih =>
    rw [List.map_cons, List.cons_append, List.mapM_cons, StateT.run_bind, run_intern_bare]
    exact congrArg (fun interned => (bare k :: interned.1, interned.2)) ih

end TokenKind

open TokenKind (bare)

/-- Lexing a text that goes on with tokens of another after some without a spelling. -/
theorem lex_of_kinds {source rest : String} {ks : List (TokenKind Empty)}
    (h : kinds source.toList = ks.map bare ++ kinds rest.toList) (names : Names) :
    (lex source names).1.map Token.kind = ks.map bare ++ (lex rest names).1.map Token.kind ∧
      (lex source names).2 = (lex rest names).2 := by
  have hsource := Token.kinds_internAll (tokens source) names
  have hrest := Token.kinds_internAll (tokens rest) names
  rw [map_kind_tokens] at hsource hrest
  rw [h, TokenKind.mapM_intern_bare, ← hrest] at hsource
  exact Prod.mk.inj hsource

/-- Tokens that are no end of file are passed. -/
theorem Cursor.exists_passes_of_kinds {c : Cursor} {ks more : List (TokenKind Name)}
    (h : c.ahead.map Token.kind = ks ++ more) (hks : .endOfFile ∉ ks) :
    ∃ ts c', c.Passes ts c' ∧ ts.map Token.kind = ks ∧ c'.ahead.map Token.kind = more := by
  obtain ⟨ts, after, hahead, rfl, hafter⟩ := List.map_eq_append_iff.mp h
  refine ⟨ts, ⟨ts.reverse ++ c.behind, after⟩, ⟨hahead, rfl, fun t ht => ?_⟩, rfl, hafter⟩
  refine Bool.eq_false_iff.mpr fun hend => hks ?_
  have hkind : t.kind = .endOfFile := TokenKind.toClass_eq_endOfFile_iff.mp (beq_iff_eq.mp hend)
  exact hkind ▸ List.mem_map_of_mem ht

/-- Tokens of one kind are told apart by their spans only. -/
theorem Grammar.exists_spans {ts : List (Token Name)} {kind : TokenKind Name} {k : Nat}
    (h : ts.map Token.kind = List.replicate k kind) :
    ∃ spans : List Span, spans.length = k ∧ ts = spans.map fun s => ⟨kind, s⟩ := by
  refine ⟨ts.map Token.span, by simpa using congrArg List.length h, ?_⟩
  rw [List.map_map]
  refine (List.map_id ts).symm.trans (List.map_congr_left fun t ht => ?_)
  rw [← List.eq_of_mem_replicate (h ▸ List.mem_map_of_mem ht : t.kind ∈ List.replicate k kind)]
  rfl

/-! ## The tokens of an integer -/

namespace Decimal

/-- The tokens of the text of an integer. -/
def tokens (v : Int32) : List (TokenKind Empty) :=
  (if v.toInt < 0 then [.symbol .minus] else []) ++ [.integer (magnitude v)]

theorem kinds_text (v : Int32) {rest : List Char} (h : ∀ c ∈ rest.head?, ¬ IsDigit c) :
    kinds ((text v).toList ++ rest) = (tokens v).map bare ++ kinds rest := by
  have hdigits := Lexer.kinds_toDigits (magnitude v) h
  have hminus (more : List Char) : kinds ('-' :: more) = .symbol .minus :: kinds more := by
    have hscan : scan '-' ([] ++ more) = (some (.symbol .minus), 0) := rfl
    exact kinds_of_scan_some hscan
  rw [toList_text, tokens]
  by_cases hv : v.toInt < 0
  · rw [if_pos hv, if_pos hv, List.append_assoc, List.cons_append, hminus, List.nil_append, hdigits]
    rfl
  · rw [if_neg hv, if_neg hv, List.nil_append, hdigits]
    rfl

theorem lex_text (v : Int32) {rest : String} (h : ∀ c ∈ rest.toList.head?, ¬ IsDigit c)
    (names : Names) : (lex (text v ++ rest) names).1.map Token.kind =
      (tokens v).map bare ++ (lex rest names).1.map Token.kind := by
  refine (lex_of_kinds ?_ names).1
  rw [String.toList_append, kinds_text v h]

theorem endOfFile_notMem_tokens (v : Int32) :
    (.endOfFile : TokenKind Name) ∉ (tokens v).map bare := by
  unfold tokens
  split <;> simp [bare]

/-- The tokens of an integer are its digits, or a sign and its digits. -/
theorem eq_of_map_kind {v : Int32} {ts : List (Token Name)}
    (h : ts.map Token.kind = (tokens v).map bare) :
    (∃ s, 0 ≤ v.toInt ∧ ts = [integerAt (magnitude v) s]) ∨
      ∃ s s₁, v.toInt < 0 ∧ ts = [symbolAt .minus s, integerAt (magnitude v) s₁] := by
  unfold tokens at h
  by_cases hv : v.toInt < 0
  · rw [if_pos hv] at h
    obtain ⟨⟨kind, s⟩, rest, rfl, rfl, hrest⟩ := List.map_eq_cons_iff.mp h
    obtain ⟨⟨kind, s₁⟩, rfl, rfl⟩ := List.map_eq_singleton_iff.mp hrest
    exact .inr ⟨s, s₁, hv, rfl⟩
  · rw [if_neg hv] at h
    obtain ⟨⟨kind, s⟩, rfl, rfl⟩ := List.map_eq_singleton_iff.mp h
    exact .inl ⟨s, by omega, rfl⟩

end Decimal

/-! ## Expressions -/

namespace Expr

/-- The expression is a literal with signs before it, and this is its value. -/
inductive Constant : Expr → Int32 → Prop
  | int {v : Int32} {s : Span} : Constant (.int v s) v
  | neg {e : Expr} {v : Int32} {s : Span} : Constant e v → Constant (.neg e s) (-v)

namespace Constant

variable {e : Expr} {v : Int32}

theorem evaluates (h : e.Constant v) (w : Setting) (depth : Nat) (scope : ScopeId) (s : State) :
    Evaluates w depth scope e s (.ok v) s := by
  induction h with
  | int => exact .int
  | neg _ ih => exact .neg ih

/-- On every machine with the expression, evaluation gives its value and changes nothing. -/
theorem ends (h : e.Constant v) {m : Machine} {scope : ScopeId} {id : ExprId}
    (hid : m.module.arena.HoldsExpr scope e id) (depth : Nat) (s : State) :
    Ends (fun fuel => m.evalExpr fuel depth id) s (.ok v) s := by
  induction h generalizing id with
  | int => exact Run.ends_pure.of_succ fun _ => Machine.evalExpr_int hid
  | neg _ ih =>
    obtain ⟨i, hi, -, hoperand⟩ := hid
    refine ((ih hoperand).bind ?_).of_succ fun _ => Machine.evalExpr_neg hi
    exact Run.ends_pure

theorem signs (h : e.Constant v) (signs : List Span) (stop : Span) :
    (signs.foldr (fun sign e => .neg e (sign.merge stop)) e).Constant
      (Neg.neg^[signs.length] v) := by
  induction signs with
  | nil => exact h
  | cons sign signs ih =>
    rw [List.length_cons, Function.iterate_succ_apply']
    exact .neg ih

end Constant

variable {ctx : Context} {nested : Parser Expr} {c c' : Cursor}

theorem on_minus_integer {c₁ : Cursor} {m : UInt32} {s : Span}
    (h : c₁.Passes [integerAt m s] c') : on (.symbol .minus) c₁.current.kind = none := by
  rw [h.current_eq]
  rfl

/-- A literal that is a value is read with the signs before it. -/
theorem signed_literal {signs : List Span} {m : UInt32} {s : Span}
    (hts : c.Passes (signs.map (symbolAt .minus) ++ [integerAt m s]) c')
    (hm : m.toNat ≤ 2147483647) : ∃ e, signed ctx nested c = .ok (e, c') ∧
      e.Constant (Neg.neg^[signs.length] (Int32.ofInt m.toNat)) := by
  obtain ⟨c₁, hsigns, hliteral⟩ := Cursor.passes_append_iff.mp hts
  have hleast : ∀ s, c₁.current ≠ integerAt leastMagnitude s := by
    intro s' h
    cases hliteral.current_eq.symm.trans h
    exact absurd hm (by decide)
  have hoperand : operand ctx nested c₁ = .ok (.int (Int32.ofInt m.toNat) s, c') := by
    have hvalue : literal false m s = .ok (Int32.ofInt m.toNat) :=
      literal_eq_ok_iff.mpr ⟨⟨Int.le_trans (by decide) (Int.natCast_nonneg _),
        Int.ofNat_le.mpr hm⟩, rfl⟩
    obtain ⟨hc, -, rfl⟩ := Cursor.passes_one_iff.mp hliteral
    rw [operand, current_bind]
    simp only [hc, advance_bind, hvalue]
    rfl
  have hmany := signs_complete rfl hsigns (on_minus_integer hliteral)
  have hread : signed ctx nested c = .ok (signs.foldr
      (fun sign e => .neg e (sign.merge c'.lastSpan)) (.int (Int32.ofInt m.toNat) s), c') := by
    rw [signed_eq_operand hmany (.inr hleast), bind_eq_of_ok hoperand, lastSpan_bind]
    rfl
  exact ⟨_, hread, .signs .int signs c'.lastSpan⟩

/-- The literal that is no value is read as the least one, with the other signs before it. -/
theorem signed_least {init : List Span} {sign s : Span}
    (hts : c.Passes ((init ++ [sign]).map (symbolAt .minus) ++ [integerAt leastMagnitude s]) c') :
    ∃ e, signed ctx nested c = .ok (e, c') ∧
      e.Constant (Neg.neg^[init.length] Int32.minValue) := by
  obtain ⟨c₁, hsigns, hliteral⟩ := Cursor.passes_append_iff.mp hts
  have hmany := signs_complete rfl hsigns (on_minus_integer hliteral)
  exact ⟨_, signed_eq_least hmany hliteral, .signs .int init s⟩

/-- The text of an integer is read as an operand that has it for value, signs before it included. -/
theorem signed_text {signs : List Span} {ts : List (Token Name)} {v : Int32}
    (hts : c.Passes (signs.map (symbolAt .minus) ++ ts) c')
    (h : ts.map Token.kind = (Decimal.tokens v).map bare) : ∃ e,
      signed ctx nested c = .ok (e, c') ∧ e.Constant (Neg.neg^[signs.length] v) := by
  have hmagnitude := Decimal.toNat_magnitude v
  have hle := v.le_toInt
  have hlt := v.toInt_lt
  rcases Decimal.eq_of_map_kind h with ⟨s, hv, rfl⟩ | ⟨sign, s, hv, rfl⟩
  · have hvalue : Int32.ofInt (Decimal.magnitude v).toNat = v := by
      rw [hmagnitude, Int.natAbs_of_nonneg hv, Int32.ofInt_toInt]
    rw [← hvalue]
    exact signed_literal hts (by omega)
  · have hsigns : signs.map (symbolAt .minus) ++
        [symbolAt .minus sign, integerAt (Decimal.magnitude v) s] =
          (signs ++ [sign]).map (symbolAt .minus) ++ [integerAt (Decimal.magnitude v) s] := by
      simp
    rw [hsigns] at hts
    by_cases hleast : v = Int32.minValue
    · subst hleast
      exact signed_least hts
    · have hne : v.toInt ≠ -2147483648 := fun h => hleast (Int32.toInt_inj.mp h)
      have hvalue : -Int32.ofInt (Decimal.magnitude v).toNat = v := by
        have habs : -(v.toInt.natAbs : Int) = v.toInt := by omega
        rw [hmagnitude, ← Int32.ofInt_neg, habs, Int32.ofInt_toInt]
      have hlength : (signs ++ [sign]).length = signs.length.succ := by simp
      rw [← hvalue, ← Function.iterate_succ_apply, ← hlength]
      exact signed_literal hts (by omega)

end Expr

/-! ## Labels -/

/-- The text of an integer is the label for it. -/
theorem Decimal.exists_label {v : Int32} {ts : List (Token Name)}
    (h : ts.map Token.kind = (tokens v).map bare) :
    ∃ label, CaseLabel.Derives ts label ∧ label.Admissible ∧ label.value = v := by
  have hle := v.le_toInt
  have hlt := v.toInt_lt
  have hmagnitude := toNat_magnitude v
  have hlabel (label : CaseLabel) (hnumber : label.number = v.toInt) :
      label.Admissible ∧ label.value = v := by
    rw [CaseLabel.Admissible, CaseLabel.value, hnumber]
    exact ⟨by omega, Int32.ofInt_toInt v⟩
  rcases eq_of_map_kind h with ⟨s, hv, rfl⟩ | ⟨s, s₁, hv, rfl⟩
  · have hnumber : ((magnitude v).toNat : Int) = v.toInt := by omega
    exact ⟨_, .positive, hlabel ⟨false, _, s⟩ hnumber⟩
  · have hnumber : -((magnitude v).toNat : Int) = v.toInt := by omega
    exact ⟨_, .negative, hlabel ⟨true, _, _⟩ hnumber⟩

end Enquanto

import Enquanto.Parser
import Enquanto.Proofs.Grammar

/-!
# What parsers read

A successful parser moves its cursor over some tokens. `Cursor.Passes` says over which, and every
basic parser is characterised by an equivalence: it succeeds exactly when the cursor passes the
token that it asks for. The parsers of the grammar are then taken apart and put together with
`Parser.bind_eq_ok_iff` alone.

* `Cursor.Passes`: the cursor moves over tokens, one behind the other;
* `Parser.bind_eq_ok_iff`: a chain of parsers succeeds exactly if its links do.
-/

namespace Enquanto

open Grammar

theorem Grammar.lastSpan_append {ts us : List (Token Name)} (h : us ≠ []) :
    Grammar.lastSpan (ts ++ us) = Grammar.lastSpan us := by
  obtain ⟨init, last, rfl⟩ := List.eq_nil_or_concat us |>.resolve_left h
  simp [Grammar.lastSpan]

theorem TokenKind.toClass_eq_symbol_iff {kind : TokenKind Name} {s : Symbol} :
    kind.toClass = .symbol s ↔ kind = .symbol s := by
  cases kind <;> simp [toClass]

theorem TokenKind.toClass_eq_keyword_iff {kind : TokenKind Name} {k : Keyword} :
    kind.toClass = .keyword k ↔ kind = .keyword k := by
  cases kind <;> simp [toClass]

theorem TokenKind.toClass_eq_endOfFile_iff {kind : TokenKind Name} :
    kind.toClass = .endOfFile ↔ kind = .endOfFile := by
  cases kind <;> simp [toClass]

namespace Cursor

/-- The cursor `c` goes over the tokens `ts`, none of them an end of file, and is `c'` then. -/
def Passes (c : Cursor) (ts : List (Token Name)) (c' : Cursor) : Prop :=
  c.ahead = ts ++ c'.ahead ∧ c'.behind = ts.reverse ++ c.behind ∧ ∀ t ∈ ts, t.isEndOfFile = false

variable {c c₁ c' : Cursor} {t : Token Name} {ts us : List (Token Name)}

theorem passes_nil_iff : c.Passes [] c' ↔ c' = c := by
  obtain ⟨b, l⟩ := c
  obtain ⟨b', l'⟩ := c'
  simp only [Passes, List.nil_append, List.reverse_nil, List.not_mem_nil, false_imp_iff,
    implies_true, and_true, Cursor.mk.injEq]
  exact ⟨fun ⟨hl, hb⟩ => ⟨hb, hl.symm⟩, fun ⟨hb, hl⟩ => ⟨hl.symm, hb⟩⟩

theorem passes_append_iff :
    c.Passes (ts ++ us) c' ↔ ∃ c₁, c.Passes ts c₁ ∧ c₁.Passes us c' := by
  constructor
  · rintro ⟨ha, hb, hn⟩
    refine ⟨⟨ts.reverse ++ c.behind, us ++ c'.ahead⟩, ⟨by simpa using ha, rfl, fun t ht => ?_⟩,
      ⟨rfl, by simpa using hb, fun t ht => ?_⟩⟩
    · exact hn t (List.mem_append_left _ ht)
    · exact hn t (List.mem_append_right _ ht)
  · rintro ⟨c₁, ⟨ha, hb, hn⟩, ha', hb', hn'⟩
    refine ⟨by rw [ha, ha', List.append_assoc], by simp [hb', hb], fun t ht => ?_⟩
    rcases List.mem_append.mp ht with h | h
    · exact hn t h
    · exact hn' t h

theorem Passes.append (h : c.Passes ts c₁) (h' : c₁.Passes us c') : c.Passes (ts ++ us) c' :=
  passes_append_iff.mpr ⟨c₁, h, h'⟩

theorem passes_cons_iff :
    c.Passes (t :: ts) c' ↔ ∃ c₁, c.Passes [t] c₁ ∧ c₁.Passes ts c' := by
  rw [← passes_append_iff]
  rfl

theorem Passes.cons (h : c.Passes [t] c₁) (h' : c₁.Passes ts c') : c.Passes (t :: ts) c' :=
  passes_cons_iff.mpr ⟨c₁, h, h'⟩

theorem isEndOfFile_ending (c : Cursor) : c.ending.isEndOfFile = true := by
  unfold ending
  split
  · split
    · assumption
    · rfl
  · rfl

theorem current_kind_eq_endOfFile (h : c.ahead = []) : c.current.kind = .endOfFile := by
  have he := c.isEndOfFile_ending
  simp only [Token.isEndOfFile, beq_iff_eq] at he
  simp only [current, h]
  exact TokenKind.toClass_eq_endOfFile_iff.mp he

/-- One token is passed if it is the current one. -/
theorem passes_one_iff :
    c.Passes [t] c' ↔ c.current = t ∧ t.isEndOfFile = false ∧ c.advance = c' := by
  obtain ⟨b, l⟩ := c
  cases l with
  | nil =>
    constructor
    · rintro ⟨ha, -⟩
      cases ha
    · rintro ⟨rfl, hn, -⟩
      simp [current, isEndOfFile_ending] at hn
  | cons u l =>
    obtain ⟨b', l'⟩ := c'
    simp only [Passes, current, advance, List.cons_append, List.nil_append, List.cons.injEq,
      List.reverse_singleton, List.mem_singleton, forall_eq]
    constructor
    · rintro ⟨⟨rfl, rfl⟩, rfl, hn⟩
      simp [hn]
    · rintro ⟨rfl, hn, hc⟩
      simpa [hn, eq_comm, and_comm] using hc

theorem Passes.current_eq (h : c.Passes (t :: ts) c') : c.current = t := by
  obtain ⟨c₁, h₁, -⟩ := passes_cons_iff.mp h
  exact (passes_one_iff.mp h₁).1

/-- The token after the current one is the current one of the next cursor. -/
theorem Passes.nextClass_eq (h : c.Passes [t] c') : c.nextClass = c'.current.toClass := by
  obtain ⟨ha, -, -⟩ := h
  unfold nextClass current
  rw [ha]
  cases hc : c'.ahead with
  | nil =>
    have he := c'.isEndOfFile_ending
    simp only [Token.isEndOfFile, beq_iff_eq] at he
    simp [he]
  | cons u l => simp

theorem Passes.lastSpan_eq (h : c.Passes ts c') (hne : ts ≠ []) :
    c'.lastSpan = Grammar.lastSpan ts := by
  obtain ⟨-, hb, -⟩ := h
  obtain ⟨init, last, rfl⟩ := List.eq_nil_or_concat ts |>.resolve_left hne
  simp [Cursor.lastSpan, Grammar.lastSpan, hb]

theorem Passes.length_le (h : c.Passes ts c') : ts.length ≤ c.ahead.length := by
  simp [h.1]

theorem Passes.ahead_length_le (h : c.Passes ts c') : c'.ahead.length ≤ c.ahead.length := by
  simp [h.1]

end Cursor

namespace Parser

variable {α β γ ω : Type} {c c' : Cursor}

/-! ## Steps -/

theorem bind_eq_ok_iff {p : Parser α} {f : α → Parser β} {r : β × Cursor} :
    (p >>= f) c = .ok r ↔ ∃ a c₁, p c = .ok (a, c₁) ∧ f a c₁ = .ok r := by
  simp only [bind, StateT.bind, Except.bind]
  cases p c with
  | error e => simp
  | ok x =>
    obtain ⟨a, c₁⟩ := x
    simp [and_assoc]

theorem bind_eq_of_ok {p : Parser α} {f : α → Parser β} {a : α} {c₁ : Cursor}
    (h : p c = .ok (a, c₁)) : (p >>= f) c = f a c₁ := by
  simp only [bind, StateT.bind, Except.bind, h]

theorem bind_eq_of_error {p : Parser α} {f : α → Parser β} {e : ParseError}
    (h : p c = .error e) : (p >>= f) c = .error e := by
  simp only [bind, StateT.bind, Except.bind, h]

theorem bind_ite {b : Bool} {p q : Parser α} {f : α → Parser β} :
    (if b then p >>= f else q >>= f) = (if b then p else q) >>= f := by
  cases b <;> rfl

theorem pure_eq_ok_iff {a b : α} : (pure a : Parser α) c = .ok (b, c') ↔ b = a ∧ c' = c := by
  change (Except.ok (a, c) : Except ParseError (α × Cursor)) = .ok (b, c') ↔ _
  simp [eq_comm]

theorem map_eq_ok_iff {p : Parser α} {f : α → β} {b : β} :
    (f <$> p) c = .ok (b, c') ↔ ∃ a, p c = .ok (a, c') ∧ b = f a := by
  rw [← bind_pure_comp, bind_eq_ok_iff]
  constructor
  · rintro ⟨a, c₁, h, hb⟩
    obtain ⟨rfl, rfl⟩ := pure_eq_ok_iff.mp hb
    exact ⟨a, h, rfl⟩
  · rintro ⟨a, h, rfl⟩
    exact ⟨a, c', h, pure_eq_ok_iff.mpr ⟨rfl, rfl⟩⟩

theorem lift_eq_ok_iff {x : Except ParseError α} {a : α} :
    (liftM x : Parser α) c = .ok (a, c') ↔ x = .ok a ∧ c' = c := by
  cases x <;> simp [liftM, monadLift, MonadLift.monadLift, StateT.lift, bind, Except.bind, pure,
    Except.pure, eq_comm]

theorem throw_ne_ok {e : ParseError} {r : α × Cursor} : (throw e : Parser α) c ≠ .ok r := by
  simp [throw, throwThe, MonadExceptOf.throw, StateT.lift, bind, Except.bind]

theorem unexpected_ne_ok {expected : String} {r : α × Cursor} :
    (unexpected expected : Parser α) c ≠ .ok r :=
  throw_ne_ok (c := c)

/-! Parsers that cannot fail go on at once. -/

section
variable {f : α → Parser β}

@[simp] theorem current_bind (f : Token Name → Parser β) : (current >>= f) c = f c.current c := rfl

@[simp] theorem get_bind (f : Cursor → Parser β) : (get >>= f) c = f c c := rfl

@[simp] theorem advance_bind (f : Unit → Parser β) : (advance >>= f) c = f () c.advance := rfl

@[simp] theorem lastSpan_bind (f : Span → Parser β) : (lastSpan >>= f) c = f c.lastSpan c := rfl

@[simp] theorem spanFrom_bind (start : Span) (f : Span → Parser β) :
    (spanFrom start >>= f) c = f (start.merge c.lastSpan) c := rfl

@[simp] theorem check_bind (k : TokenClass) (f : Bool → Parser β) :
    (check k >>= f) c = f (c.current.toClass == k) c := rfl

theorem eat_bind (k : TokenClass) (f : Bool → Parser β) :
    (eat k >>= f) c = if c.current.toClass = k then f true c.advance else f false c := by
  rw [eat, bind_assoc, check_bind]
  by_cases h : c.current.toClass = k
  · rw [if_pos h, if_pos (beq_iff_eq.mpr h)]
    rfl
  · rw [if_neg h, if_neg (mt beq_iff_eq.mp h)]
    rfl

/-- A part that may be there, after the token that announces it. -/
theorem optional_eq_ok_iff {k : TokenClass} {p q : Parser α} {r : β × Cursor} :
    (eat k >>= fun b => if b then p >>= f else q >>= f) c = .ok r ↔
      (c.current.toClass = k ∧ ∃ a c₁, p c.advance = .ok (a, c₁) ∧ f a c₁ = .ok r) ∨
        (c.current.toClass ≠ k ∧ ∃ a c₁, q c = .ok (a, c₁) ∧ f a c₁ = .ok r) := by
  rw [eat_bind]
  by_cases h : c.current.toClass = k <;> simp [h, bind_eq_ok_iff]

end

/-! ## Tokens -/

/-- The current token is passed by a step of the cursor. -/
theorem passes_advance {t : Token Name} (h : c.current = t) (hn : t.isEndOfFile = false) :
    c.Passes [t] c.advance :=
  Cursor.passes_one_iff.mpr ⟨h, hn, rfl⟩

theorem passes_current (h : c.current.kind ≠ .endOfFile) : c.Passes [c.current] c.advance := by
  refine passes_advance rfl ?_
  simpa [Token.isEndOfFile, Token.toClass, TokenKind.toClass_eq_endOfFile_iff] using h

/-- A token of a class is asked for, and passed. -/
theorem expectAs_eq_ok_iff {k : TokenClass} {expected : String} {s : Span} (hk : k ≠ .endOfFile) :
    expectAs k expected c = .ok (s, c') ↔ ∃ t, t.toClass = k ∧ s = t.span ∧ c.Passes [t] c' := by
  simp only [expectAs, current_bind]
  constructor
  · intro h
    split at h
    · rename_i hc
      obtain ⟨rfl, rfl⟩ := pure_eq_ok_iff.mp h
      exact ⟨c.current, hc, rfl, passes_advance rfl (by simp [Token.isEndOfFile, hc, hk])⟩
    · exact absurd h unexpected_ne_ok
  · rintro ⟨t, hc, rfl, h⟩
    obtain ⟨rfl, -, rfl⟩ := Cursor.passes_one_iff.mp h
    rw [if_pos hc]
    rfl

theorem unexpected_eq_error {expected : String} (h : c.current.toClass ≠ .invalid) :
    (unexpected expected : Parser α) c =
      .error ⟨.unexpected expected c.current.toClass, c.current.span⟩ := by
  rw [unexpected, current_bind, ParseError.unexpected, if_neg h]
  rfl

/-- Another token than the one that is asked for, unless it is invalid, is unexpected. -/
theorem expectAs_eq_error {k : TokenClass} {expected : String} (h : c.current.toClass ≠ k)
    (hi : c.current.toClass ≠ .invalid) : expectAs k expected c =
      .error ⟨.unexpected expected c.current.toClass, c.current.span⟩ := by
  rw [expectAs, current_bind, if_neg h, unexpected_eq_error hi]

theorem symbolAs_eq_ok_iff {k : Symbol} {expected : String} {s : Span} :
    expectAs (.symbol k) expected c = .ok (s, c') ↔ c.Passes [symbolAt k s] c' := by
  rw [expectAs_eq_ok_iff (by simp)]
  constructor
  · rintro ⟨⟨kind, span⟩, hk, rfl, h⟩
    cases kind <;> cases hk
    exact h
  · exact fun h => ⟨_, rfl, rfl, h⟩

theorem keywordAs_eq_ok_iff {k : Keyword} {expected : String} {s : Span} :
    expectAs (.keyword k) expected c = .ok (s, c') ↔ c.Passes [keywordAt k s] c' := by
  rw [expectAs_eq_ok_iff (by simp)]
  constructor
  · rintro ⟨⟨kind, span⟩, hk, rfl, h⟩
    cases kind <;> cases hk
    exact h
  · exact fun h => ⟨_, rfl, rfl, h⟩

theorem symbol_eq_ok_iff {k : Symbol} {s : Span} :
    symbol k c = .ok (s, c') ↔ c.Passes [symbolAt k s] c' :=
  symbolAs_eq_ok_iff

theorem keyword_eq_ok_iff {k : Keyword} {s : Span} :
    keyword k c = .ok (s, c') ↔ c.Passes [keywordAt k s] c' :=
  keywordAs_eq_ok_iff

/-- A parser of the payload of tokens of one kind. -/
theorem payload_eq_ok_iff {p : Parser (α × Span)} {make : α → TokenKind Name} {x : α} {s : Span}
    (hinj : Function.Injective make) (hend : ∀ a, make a ≠ .endOfFile)
    (hsome : ∀ a span, c.current = ⟨make a, span⟩ → p c = .ok ((a, span), c.advance))
    (hnone : (∀ a span, c.current ≠ ⟨make a, span⟩) → ∀ r, p c ≠ .ok r) :
    p c = .ok ((x, s), c') ↔ c.Passes [⟨make x, s⟩] c' := by
  rw [Cursor.passes_one_iff]
  by_cases h : ∃ a span, c.current = ⟨make a, span⟩
  · obtain ⟨a, span, hc⟩ := h
    have hn : Token.isEndOfFile ⟨make x, s⟩ = false := by
      have := hend x
      cases hm : make x <;> simp_all [Token.isEndOfFile, Token.toClass, TokenKind.toClass]
    rw [hsome a span hc, hc]
    simp [hn, hinj.eq_iff, and_assoc]
  · have h' : ∀ a span, c.current ≠ ⟨make a, span⟩ := fun a span hc => h ⟨a, span, hc⟩
    exact ⟨fun hp => absurd hp (hnone h' _), fun hc => absurd hc.1 (h' x s)⟩

theorem identifier_eq_ok_iff {x : Name} {s : Span} :
    identifier c = .ok ((x, s), c') ↔ c.Passes [identifierAt x s] c' := by
  refine payload_eq_ok_iff (fun _ _ => TokenKind.identifier.inj) (by simp)
    (fun a span hc => ?_) (fun hc r => ?_)
  · simp only [identifier, current_bind, hc]
    rfl
  · simp only [identifier, current_bind]
    cases hk : c.current.kind with
    | identifier name => exact absurd (by rw [← hk]) (hc name c.current.span)
    | _ => exact unexpected_ne_ok

theorem integer_eq_ok_iff {m : UInt32} {s : Span} :
    integer c = .ok ((m, s), c') ↔ c.Passes [integerAt m s] c' := by
  refine payload_eq_ok_iff (fun _ _ => TokenKind.integer.inj) (by simp)
    (fun a span hc => ?_) (fun hc r => ?_)
  · simp only [integer, current_bind, hc]
    rfl
  · simp only [integer, current_bind]
    cases hk : c.current.kind with
    | integer magnitude => exact absurd (by rw [← hk]) (hc magnitude c.current.span)
    | _ => exact unexpected_ne_ok

theorem textLiteral_eq_ok_iff {x : Name} {s : Span} :
    textLiteral c = .ok ((x, s), c') ↔ c.Passes [⟨.text x, s⟩] c' := by
  refine payload_eq_ok_iff (fun _ _ => TokenKind.text.inj) (by simp)
    (fun a span hc => ?_) (fun hc r => ?_)
  · simp only [textLiteral, current_bind, hc]
    rfl
  · simp only [textLiteral, current_bind]
    cases hk : c.current.kind with
    | text content => exact absurd (by rw [← hk]) (hc content c.current.span)
    | _ => exact unexpected_ne_ok

/-- The value of a literal that fits. -/
theorem literal_eq_ok_iff {negative : Bool} {m : UInt32} {s : Span} {v : Int32} :
    literal negative m s = .ok v ↔
      (-2147483648 ≤ (if negative then -(m.toNat : Int) else m.toNat) ∧
        (if negative then -(m.toNat : Int) else m.toNat) ≤ 2147483647) ∧
      v = Int32.ofInt (if negative then -(m.toNat : Int) else m.toNat) := by
  unfold literal Decimal.fit?
  generalize (if negative then -(m.toNat : Int) else m.toNat) = n
  by_cases hr : -2147483648 ≤ n ∧ n ≤ 2147483647
  · simp [hr, eq_comm]
  · simp [hr]

theorem literal_eq_error {negative : Bool} {m : UInt32} {s : Span}
    (h : ¬(-2147483648 ≤ (if negative then -(m.toNat : Int) else m.toNat) ∧
      (if negative then -(m.toNat : Int) else m.toNat) ≤ 2147483647)) :
    literal negative m s = .error ⟨.integerOutOfRange, s⟩ := by
  unfold literal Decimal.fit?
  rw [if_neg h]

end Parser

end Enquanto

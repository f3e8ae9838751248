import Enquanto.Proofs.Construction
import Enquanto.Proofs.Phrases

/-!
# The expression parser and the grammar

`Expr.parser` reads exactly the expressions of the grammar that satisfy the rules, and gives their
trees; of the others it reports the first offence.

* `Expr.parser_sound`: what it has read is an expression;
* `Expr.parser_answers`: an expression is read to its end, or to its first offence, if the token
  behind it is neither an operator nor an opening parenthesis.

Both are proved level by level over the parser of nested expressions. For `parser_answers` the
nested expressions are shorter than the whole, so the bound on the depth is never reached.
-/

namespace Enquanto

open Grammar Enquanto.Parser

/-- The symbols that would go on with an expression of a level. -/
def ExprLevel.continuing : ExprLevel → List Symbol
  | .operand => [.openParen]
  | .signed => [.openParen]
  | .power => [.openParen, .caret]
  | .product => [.openParen, .caret, .star, .slash]
  | .sum => [.openParen, .caret, .star, .slash, .plus, .minus]

/-- A token that does not go on with an expression of a level. -/
def ExprLevel.Stops (l : ExprLevel) (kind : TokenKind Name) : Prop :=
  ∀ s ∈ l.continuing, kind ≠ .symbol s

namespace ExprForm

/-- An expression of a level that satisfies the rules, with its tree. -/
abbrev Reads (declared : List Signature) (l : ExprLevel) : List (Token Name) → Expr → Prop :=
  Denotes (Derives l) (Admissible declared) (tree declared)

/-- The tokens that an expression may start with. -/
def Starts : TokenKind Name → Prop
  | .integer _ | .identifier _ | .keyword .leia | .symbol .openParen | .symbol .minus => True
  | _ => False

theorem Derives.starts_operand {ts : List (Token Name)} {e : ExprForm} (h : Derives .operand ts e) :
    ∃ t us, ts = t :: us ∧ Starts t.kind := by
  cases h <;> exact ⟨_, _, rfl, trivial⟩

theorem Derives.starts_signed {ts : List (Token Name)} {e : ExprForm} (h : Derives .signed ts e) :
    ∃ t us, ts = t :: us ∧ Starts t.kind := by
  cases h with
  | neg h => exact ⟨_, _, rfl, trivial⟩
  | unsigned h => exact h.starts_operand

/-- An expression of a loose level starts with one that has only signs before its operand. -/
theorem Derives.signed_first {l : ExprLevel} {ts : List (Token Name)} {e : ExprForm}
    (h : Derives l ts e) (hl : l ≠ .operand) :
    ∃ us vs f, ts = us ++ vs ∧ Derives .signed us f := by
  cases h with
  | int | read | call _ | var | paren _ => exact absurd rfl hl
  | neg h => exact ⟨_, [], _, (List.append_nil _).symm, .neg h⟩
  | unsigned h => exact ⟨_, [], _, (List.append_nil _).symm, .unsigned h⟩
  | power h _ => exact ⟨_, _, _, rfl, h⟩
  | product h _ =>
    cases h with
    | power h _ => exact ⟨_, _, _, by rw [List.append_assoc], h⟩
  | sum h _ =>
    cases h with
    | product h _ =>
      cases h with
      | power h _ => exact ⟨_, _, _, by rw [List.append_assoc, List.append_assoc], h⟩

theorem Derives.starts {ts : List (Token Name)} {e : ExprForm} (h : Derives .sum ts e) :
    ∃ t us, ts = t :: us ∧ Starts t.kind := by
  obtain ⟨us, vs, f, rfl, hf⟩ := h.signed_first (by simp)
  obtain ⟨t, us, rfl, ht⟩ := hf.starts_signed
  exact ⟨t, us ++ vs, rfl, ht⟩

/-- An expression that starts with a parenthesis starts with an expression in parentheses. -/
theorem Derives.paren_first {s : Span} {ts : List (Token Name)} {e : ExprForm}
    (h : Derives .sum (symbolAt .openParen s :: ts) e) :
    ∃ us vs f s₂, ts = us ++ symbolAt .closeParen s₂ :: vs ∧ Derives .sum us f := by
  obtain ⟨us, vs, f, hts, hf⟩ := h.signed_first (by simp)
  cases hf with
  | neg hf => cases hts
  | unsigned hf =>
    cases hf with
    | @paren s₁ s₂ us f hf =>
      cases hts
      exact ⟨us, vs, f, s₂, by simp, hf⟩
    | _ => cases hts

/-- An operand with its signs is an expression. -/
theorem Derives.of_signed {ts : List (Token Name)} {e : ExprForm} (h : Derives .signed ts e) :
    Derives .sum ts e := by
  have hpower : Derives .power (ts ++ []) (chain e []) := .power h .nil
  have hproduct : Derives .product (ts ++ [] ++ []) (chain (chain e []) []) := .product hpower .nil
  have hsum : Derives .sum (ts ++ [] ++ [] ++ []) (chain (chain (chain e []) []) []) :=
    .sum hproduct .nil
  rwa [List.append_nil, List.append_nil, List.append_nil] at hsum

theorem Derives.of_operand {ts : List (Token Name)} {e : ExprForm} (h : Derives .operand ts e) :
    Derives .sum ts e :=
  Derives.of_signed (.unsigned h)

theorem derives_power_iff (ts : List (Token Name)) (f : ExprForm) : Derives .power ts f ↔
    Chained (operator [.pow]) (Derives .signed) .arith ts f := by
  constructor
  · rintro (_ | _ | _ | _ | _ | _ | _ | ⟨h, hr⟩)
    exact ⟨_, _, _, _, rfl, h, hr, rfl⟩
  · rintro ⟨us, vs, g, rest, rfl, h, hr, rfl⟩
    exact .power h hr

theorem derives_product_iff (ts : List (Token Name)) (f : ExprForm) : Derives .product ts f ↔
    Chained (operator [.mul, .div]) (Derives .power) .arith ts f := by
  constructor
  · rintro (_ | _ | _ | _ | _ | _ | _ | _ | ⟨h, hr⟩)
    exact ⟨_, _, _, _, rfl, h, hr, rfl⟩
  · rintro ⟨us, vs, g, rest, rfl, h, hr, rfl⟩
    exact .product h hr

theorem derives_sum_iff (ts : List (Token Name)) (f : ExprForm) : Derives .sum ts f ↔
    Chained (operator [.add, .sub]) (Derives .product) .arith ts f := by
  constructor
  · rintro (_ | _ | _ | _ | _ | _ | _ | _ | _ | ⟨h, hr⟩)
    exact ⟨_, _, _, _, rfl, h, hr, rfl⟩
  · rintro ⟨us, vs, g, rest, rfl, h, hr, rfl⟩
    exact .sum h hr

variable {declared : List Signature} {ts : List (Token Name)} {e : Expr}

theorem reads_power_iff : Reads declared .power ts e ↔
    Chained (operator [.pow]) (Reads declared .signed) Expr.binary ts e :=
  chained_denotes_iff (fun _ _ _ => Iff.rfl) (fun _ _ _ => rfl) derives_power_iff

theorem reads_product_iff : Reads declared .product ts e ↔
    Chained (operator [.mul, .div]) (Reads declared .power) Expr.binary ts e :=
  chained_denotes_iff (fun _ _ _ => Iff.rfl) (fun _ _ _ => rfl) derives_product_iff

theorem reads_sum_iff : Reads declared .sum ts e ↔
    Chained (operator [.add, .sub]) (Reads declared .product) Expr.binary ts e :=
  chained_denotes_iff (fun _ _ _ => Iff.rfl) (fun _ _ _ => rfl) derives_sum_iff

end ExprForm

namespace Expr

open ExprForm

variable {ctx : Context} {nested : Parser Expr}

theorem powerOp_eq_some_iff (kind : TokenKind Name) (op : ArithOp) :
    powerOp kind = some op ↔ operator [.pow] kind op := by
  cases kind with
  | symbol s => cases s <;> cases op <;> simp [powerOp, operator, ArithOp.symbol]
  | _ => simp [powerOp, operator]

theorem productOp_eq_some_iff (kind : TokenKind Name) (op : ArithOp) :
    productOp kind = some op ↔ operator [.mul, .div] kind op := by
  cases kind with
  | symbol s => cases s <;> cases op <;> simp [productOp, operator, ArithOp.symbol]
  | _ => simp [productOp, operator]

theorem sumOp_eq_some_iff (kind : TokenKind Name) (op : ArithOp) :
    sumOp kind = some op ↔ operator [.add, .sub] kind op := by
  cases kind with
  | symbol s => cases s <;> cases op <;> simp [sumOp, operator, ArithOp.symbol]
  | _ => simp [sumOp, operator]

/-! ## Soundness -/

theorem callParser_sound (h : Sound nested (Reads ctx.declared .sum)) {x : Name} {s : Span}
    {c c' : Cursor} {e : Expr} (hx : c.current = identifierAt x s)
    (hc : callParser ctx nested x s c = .ok (e, c')) :
    ∃ ts, c.Passes ts c' ∧ Reads ctx.declared .operand ts e := by
  simp only [callParser, advance_bind] at hc
  have h₁ : c.Passes [identifierAt x s] c.advance := passes_advance hx rfl
  cases hr : ctx.resolve x with
  | none =>
    rw [hr] at hc
    exact absurd hc throw_ne_ok
  | some found =>
    obtain ⟨f, arity⟩ := found
    obtain ⟨hd, rfl⟩ := Context.resolve_eq_some_iff.mp hr
    simp only [hr] at hc
    obtain ⟨s₁, c₁, h₂, hc⟩ := bind_eq_ok_iff.mp hc
    rw [check_bind, bind_ite] at hc
    obtain ⟨args, c₂, ha, hc⟩ := bind_eq_ok_iff.mp hc
    obtain ⟨s₂, c₃, h₃, hc⟩ := bind_eq_ok_iff.mp hc
    obtain ⟨ts, hts, hl⟩ := Sound.listed h ha
    obtain ⟨forms, hforms, hadm, rfl⟩ := listed_denotes_iff.mp hl
    have h₂ := symbol_eq_ok_iff.mp h₂
    have h₃ := symbolAs_eq_ok_iff.mp h₃
    simp only [spanFrom_bind] at hc
    split at hc
    · rename_i hlen
      obtain ⟨rfl, rfl⟩ := pure_eq_ok_iff.mp hc
      refine ⟨_, h₁.cons (h₂.cons (hts.append h₃)), .call x s forms (s.merge s₂), .call hforms,
        ⟨?_, admissibleAll_iff.mpr hadm⟩, ?_⟩
      · rw [List.length_map] at hlen
        rwa [hlen]
      · rw [tree, trees_eq_map, h₃.lastSpan_eq (by simp)]
        rfl
    · exact absurd hc throw_ne_ok

theorem operand_sound (h : Sound nested (Reads ctx.declared .sum)) :
    Sound (operand ctx nested) (Reads ctx.declared .operand) := by
  intro c e c' hc
  rcases ht : c.current with ⟨kind, s⟩
  rw [operand, current_bind, ht] at hc
  cases kind with
  | integer m =>
    simp only [advance_bind] at hc
    obtain ⟨v, c₁, hv, hc⟩ := bind_eq_ok_iff.mp hc
    obtain ⟨rfl, rfl⟩ := pure_eq_ok_iff.mp hc
    obtain ⟨hl, rfl⟩ := lift_eq_ok_iff.mp hv
    obtain ⟨⟨-, hm⟩, rfl⟩ := literal_eq_ok_iff.mp hl
    refine ⟨_, passes_advance ht rfl, .int m s, .int, ?_, rfl⟩
    simp only [Bool.false_eq_true, if_false] at hm
    exact Int.ofNat_le.mp hm
  | identifier x =>
    simp only [get_bind] at hc
    split at hc
    · exact callParser_sound h ht hc
    · obtain ⟨rfl, rfl⟩ := pure_eq_ok_iff.mp hc
      exact ⟨_, passes_advance ht rfl, .var x s, .var, trivial, rfl⟩
  | keyword k =>
    cases k with
    | leia =>
      obtain ⟨rfl, rfl⟩ := pure_eq_ok_iff.mp hc
      exact ⟨_, passes_advance ht rfl, .read s, .read, trivial, rfl⟩
    | _ => exact absurd hc unexpected_ne_ok
  | symbol k =>
    cases k with
    | openParen =>
      simp only [advance_bind] at hc
      obtain ⟨inner, c₁, hi, hc⟩ := bind_eq_ok_iff.mp hc
      obtain ⟨s₂, c₂, h₂, hc⟩ := bind_eq_ok_iff.mp hc
      obtain ⟨rfl, rfl⟩ := pure_eq_ok_iff.mp hc
      obtain ⟨ts, hts, f, hf, ha, rfl⟩ := h hi
      have h₁ : c.Passes [symbolAt .openParen s] c.advance := passes_advance ht rfl
      exact ⟨_, h₁.cons (hts.append (symbol_eq_ok_iff.mp h₂)), .paren f, .paren hf, ha, rfl⟩
    | _ => exact absurd hc unexpected_ne_ok
  | _ => exact absurd hc unexpected_ne_ok


end Expr

/-! ## Signs -/

namespace ExprForm

/-- An operand with signs before it, each with a span that reaches to `stop`. -/
def withSigns (signs : List Span) (stop : Span) (e : ExprForm) : ExprForm :=
  signs.foldr (fun sign e => .neg e (sign.merge stop)) e

/-- A signed expression is an operand with signs before it. -/
theorem derives_signed_iff {ts : List (Token Name)} {f : ExprForm} :
    Derives .signed ts f ↔ ∃ signs us g, ts = signs.map (symbolAt .minus) ++ us ∧
      Derives .operand us g ∧ f = withSigns signs (Grammar.lastSpan us) g := by
  constructor
  · intro h
    induction hn : ts.length generalizing ts f with
    | zero =>
      obtain ⟨t, us, rfl, -⟩ := h.starts_signed
      simp at hn
    | succ n ih =>
      cases h with
      | unsigned h => exact ⟨[], ts, f, rfl, h, rfl⟩
      | @neg s ts e h =>
        obtain ⟨signs, us, g, rfl, hg, rfl⟩ := ih h (by simpa using hn)
        obtain ⟨t, vs, rfl, -⟩ := hg.starts_operand
        refine ⟨s :: signs, t :: vs, g, rfl, hg, ?_⟩
        rw [lastSpan_append (by simp)]
        rfl
  · rintro ⟨signs, us, g, rfl, hg, rfl⟩
    obtain ⟨t, vs, rfl, -⟩ := hg.starts_operand
    induction signs with
    | nil => exact .unsigned hg
    | cons s signs ih =>
      have := Derives.neg (s := s) ih
      rwa [lastSpan_append (by simp)] at this

theorem isLeast_withSigns {sign : Span} {signs : List Span} {stop : Span} {e : ExprForm} :
    (withSigns (sign :: signs) stop e).isLeast = false := rfl

/-- With a sign or more, only the innermost may join its literal. -/
theorem admissible_withSigns {declared : List Signature} {signs : List Span} {stop : Span}
    {e : ExprForm} : (withSigns signs stop e).Admissible declared ↔
      (signs ≠ [] ∧ e.isLeast) ∨ e.Admissible declared := by
  induction signs with
  | nil => simp [withSigns]
  | cons sign signs ih =>
    have h : (withSigns (sign :: signs) stop e).Admissible declared ↔
        (withSigns signs stop e).isLeast ∨ (withSigns signs stop e).Admissible declared := Iff.rfl
    rw [h, ih]
    cases signs with
    | nil => simp [withSigns]
    | cons sign' signs => simp [isLeast_withSigns]

theorem offence_withSigns {ctx : Context} {signs : List Span} {stop : Span} {e : ExprForm} :
    (withSigns signs stop e).offence ctx =
      if signs ≠ [] ∧ e.isLeast then none else e.offence ctx := by
  induction signs with
  | nil => simp [withSigns]
  | cons sign signs ih =>
    have h : (withSigns (sign :: signs) stop e).offence ctx =
        if (withSigns signs stop e).isLeast then none
        else (withSigns signs stop e).offence ctx := rfl
    rw [h, ih]
    cases signs with
    | nil => simp [withSigns]
    | cons sign' signs => simp [isLeast_withSigns]

theorem tree_withSigns {declared : List Signature} {signs : List Span} {stop : Span} {e : ExprForm}
    (h : ¬(signs ≠ [] ∧ e.isLeast)) : (withSigns signs stop e).tree declared =
      signs.foldr (fun sign e => .neg e (sign.merge stop)) (e.tree declared) := by
  induction signs with
  | nil => rfl
  | cons sign signs ih =>
    have he : e.isLeast = false := by simpa using h
    have hl : (withSigns signs stop e).isLeast = false := by
      cases signs with
      | nil => exact he
      | cons _ _ => rfl
    have ht : (withSigns (sign :: signs) stop e).tree declared =
        if (withSigns signs stop e).isLeast then .int Int32.minValue (sign.merge stop)
        else .neg ((withSigns signs stop e).tree declared) (sign.merge stop) := rfl
    rw [ht, hl, ih (by simp [he])]
    rfl

/-- The innermost sign joins the literal that needs it. -/
theorem tree_withSigns_least {declared : List Signature} {init : List Span} {sign stop : Span}
    {e : ExprForm} (h : e.isLeast = true) :
    (withSigns (init ++ [sign]) stop e).tree declared =
      init.foldr (fun sign e => .neg e (sign.merge stop))
        (.int Int32.minValue (sign.merge stop)) := by
  induction init with
  | nil =>
    have ht : (withSigns [sign] stop e).tree declared =
        if e.isLeast then .int Int32.minValue (sign.merge stop)
        else .neg (e.tree declared) (sign.merge stop) := rfl
    simp [ht, h]
  | cons sign' init ih =>
    have hl : (withSigns (init ++ [sign]) stop e).isLeast = false := by cases init <;> rfl
    have ht : (withSigns (sign' :: init ++ [sign]) stop e).tree declared =
        if (withSigns (init ++ [sign]) stop e).isLeast then .int Int32.minValue (sign'.merge stop)
        else .neg ((withSigns (init ++ [sign]) stop e).tree declared) (sign'.merge stop) := rfl
    rw [ht, hl, ih]
    rfl

theorem isLeast_of_admissible {declared : List Signature} {e : ExprForm}
    (h : e.Admissible declared) : e.isLeast = false := by
  cases e with
  | int m s =>
    have hm : m.toNat ≤ 2147483647 := h
    rw [isLeast, beq_eq_false_iff_ne]
    rintro rfl
    exact absurd hm (by decide)
  | _ => rfl

/-- An operand that starts with a literal is that literal. -/
theorem Derives.eq_int {m : UInt32} {s : Span} {us : List (Token Name)} {e : ExprForm}
    (h : Derives .operand (integerAt m s :: us) e) : us = [] ∧ e = .int m s := by
  cases h
  exact ⟨rfl, rfl⟩

theorem Derives.ne_minus {t : Token Name} {us : List (Token Name)} {e : ExprForm}
    (h : Derives .operand (t :: us) e) : t.kind ≠ .symbol .minus := by
  cases h <;> simp

end ExprForm

namespace Expr

open ExprForm

variable {ctx : Context} {nested : Parser Expr}

/-- After signs comes an operand, unless it is the literal that needs the last of them. -/
theorem signed_eq_operand {c c₁ : Cursor} {signs : List Span}
    (hm : many (on (.symbol .minus)) (fun _ => Parser.lastSpan) c = .ok (signs, c₁))
    (hn : signs = [] ∨ ∀ s, c₁.current ≠ integerAt leastMagnitude s) :
    signed ctx nested c = (operand ctx nested >>= fun inner => do
      let stop ← Parser.lastSpan
      return signs.foldr (fun sign e => .neg e (sign.merge stop)) inner : Parser Expr) c₁ := by
  unfold signed
  rw [bind_eq_of_ok hm, current_bind]
  rcases List.eq_nil_or_concat signs with rfl | ⟨init, sign, rfl⟩
  · rfl
  simp only [List.concat_eq_append, List.getLast?_concat] at hn ⊢
  cases hk : c₁.current.kind with
  | integer m =>
    have hm : m ≠ leastMagnitude := fun h =>
      hn.resolve_left (by simp) c₁.current.span (by rw [← h, integerAt, ← hk])
    simp only [hm, if_false]
    rfl
  | _ => rfl

/-- The literal that only a sign makes a value joins the last of the signs before it. -/
theorem signed_eq_least {c c₁ c' : Cursor} {init : List Span} {sign s : Span}
    (hm : many (on (.symbol .minus)) (fun _ => Parser.lastSpan) c = .ok (init ++ [sign], c₁))
    (hp : c₁.Passes [integerAt leastMagnitude s] c') :
    signed ctx nested c =
      .ok (init.foldr (fun sign e => .neg e (sign.merge s)) (.int .minValue (sign.merge s)),
        c') := by
  have hl : c'.lastSpan = s := hp.lastSpan_eq (by simp)
  obtain ⟨hc, -, rfl⟩ := Cursor.passes_one_iff.mp hp
  unfold signed
  rw [bind_eq_of_ok hm, current_bind]
  simp only [List.getLast?_concat, List.dropLast_concat, hc, if_true, advance_bind]
  exact pure_eq_ok_iff.mpr ⟨by rw [hl], rfl⟩

theorem signed_sound (h : Sound nested (Reads ctx.declared .sum)) :
    Sound (signed ctx nested) (Reads ctx.declared .signed) := by
  intro c e c' hc
  obtain ⟨signs, c₁, hm, -⟩ := bind_eq_ok_iff.mp hc
  have hs : c.Passes (signs.map (symbolAt .minus)) c₁ :=
    signs_sound (fun _ _ hk => on_symbol_eq_some_iff.mp hk) (by simp) hm
  by_cases hl : signs = [] ∨ ∀ s, c₁.current ≠ integerAt leastMagnitude s
  · rw [signed_eq_operand hm hl] at hc
    obtain ⟨inner, c₂, hi, hc⟩ := bind_eq_ok_iff.mp hc
    obtain ⟨rfl, rfl⟩ := pure_eq_ok_iff.mp hc
    obtain ⟨us, hus, g, hg, ha, rfl⟩ := operand_sound h hi
    obtain ⟨t, vs, rfl, -⟩ := hg.starts_operand
    refine ⟨_, hs.append hus, withSigns signs c'.lastSpan g, ?_, ?_, ?_⟩
    · exact derives_signed_iff.mpr ⟨_, _, _, rfl, hg, by rw [hus.lastSpan_eq (by simp)]⟩
    · exact admissible_withSigns.mpr (.inr ha)
    · exact tree_withSigns (by simp [isLeast_of_admissible ha])
  · obtain ⟨hne, hs'⟩ := not_or.mp hl
    obtain ⟨s, hcur⟩ := Classical.not_forall_not.mp hs'
    obtain ⟨init, sign, rfl⟩ := List.eq_nil_or_concat signs |>.resolve_left hne
    rw [List.concat_eq_append] at hm hs
    have hp : c₁.Passes [integerAt leastMagnitude s] c₁.advance := passes_advance hcur rfl
    cases hc.symm.trans (signed_eq_least hm hp)
    refine ⟨_, hs.append hp, withSigns (init ++ [sign]) s (.int leastMagnitude s), ?_, ?_, ?_⟩
    · exact derives_signed_iff.mpr ⟨_, _, _, rfl, .int, rfl⟩
    · exact admissible_withSigns.mpr (.inl ⟨by simp, rfl⟩)
    · exact tree_withSigns_least rfl

theorem sum_sound (h : Sound nested (Reads ctx.declared .sum)) :
    Sound (sum ctx nested) (Reads ctx.declared .sum) := by
  have hpower : Sound (chainLeft powerOp binary (signed ctx nested)) (Reads ctx.declared .power) :=
    (Sound.chainLeft powerOp_eq_some_iff rfl (signed_sound h)).imp fun _ _ => reads_power_iff.mpr
  have hproduct : Sound (chainLeft productOp binary (chainLeft powerOp binary (signed ctx nested)))
      (Reads ctx.declared .product) :=
    (Sound.chainLeft productOp_eq_some_iff rfl hpower).imp fun _ _ => reads_product_iff.mpr
  exact (Sound.chainLeft sumOp_eq_some_iff rfl hproduct).imp fun _ _ => reads_sum_iff.mpr

theorem parserUpTo_sound (bound : List (Token Name)) :
    Sound (parserUpTo ctx bound) (Reads ctx.declared .sum) := by
  induction bound with
  | nil => exact fun c a c' hc => absurd hc unexpected_ne_ok
  | cons t bound ih => exact sum_sound ih

/-- What the expression parser has read is an expression, and the result its tree. -/
theorem parser_sound (ctx : Context) : Sound (parser ctx) (Reads ctx.declared .sum) :=
  fun c _ _ hc => parserUpTo_sound c.ahead hc

/-! ## Answers -/

/-- Nested expressions of at most `n` tokens are read to their end or to their first offence. -/
abbrev AnswersNested (ctx : Context) (nested : Parser Expr) (n : Nat) : Prop :=
  Answers nested (Within n (Derives .sum)) (offence ctx) (tree ctx.declared) ExprLevel.sum.Stops

theorem stops_keyword (k : Keyword) : ExprLevel.sum.Stops (.keyword k) := by
  simp [ExprLevel.Stops]

theorem stops_comma : ExprLevel.sum.Stops (.symbol .comma) := by
  simp [ExprLevel.Stops, ExprLevel.continuing]

theorem stops_closeParen : ExprLevel.sum.Stops (.symbol .closeParen) := by
  simp [ExprLevel.Stops, ExprLevel.continuing]

theorem callParser_reports {n : Nat} (h : AnswersNested ctx nested n) {x : Name} {s s₁ s₂ : Span}
    {ts : List (Token Name)} {args : List ExprForm} {c c₂ c₃ c' : Cursor} (hn : ts.length ≤ n)
    (hargs : Listed (Derives .sum) ts args)
    (h₂ : c.advance.Passes [symbolAt .openParen s₁] c₂) (hts : c₂.Passes ts c₃)
    (h₃ : c₃.Passes [symbolAt .closeParen s₂] c') :
    Reports ((ExprForm.call x s args (s.merge s₂)).offence ctx) (callParser ctx nested x s c)
      ((ExprForm.call x s args (s.merge s₂)).tree ctx.declared, c') := by
  simp only [callParser, advance_bind, offence]
  cases hd : (ctx.declared.find? (·.name == x)).map Signature.arity with
  | none =>
    have hr : ctx.resolve x = none := by
      rw [Option.eq_none_iff_forall_ne_some]
      rintro ⟨f, arity⟩ hf
      cases hd.symm.trans (Context.resolve_eq_some_iff.mp hf).1
    simp only [hr]
    exact ⟨_, rfl, Offence.plain_shows _⟩
  | some arity =>
    have hread := Answers.listed stops_comma stops_closeParen ?_ ?_ h hts (hargs.within hn)
      (by rw [h₃.current_eq])
    · simp only [Context.resolve_eq_some_iff.mpr ⟨hd, rfl⟩]
      refine Reports.ok_bind (symbol_eq_ok_iff.mpr h₂) ?_
      rw [check_bind, bind_ite, offences_eq_findSome?]
      refine hread.bind (Reports.ok_bind (symbolAs_eq_ok_iff.mpr h₃) ?_)
      rw [spanFrom_bind, List.length_map, h₃.lastSpan_eq (by simp), tree, trees_eq_map]
      split
      · rfl
      · exact ⟨_, rfl, Offence.plain_shows _⟩
    · rintro t us f ⟨-, hf⟩ hk
      obtain ⟨t', us', he, hst⟩ := hf.starts
      cases he
      rw [hk] at hst
      exact hst
    · rintro f ⟨-, hf⟩
      obtain ⟨t', us', he, -⟩ := hf.starts
      cases he

theorem operand_answers {n : Nat} (h : AnswersNested ctx nested n) :
    Answers (operand ctx nested) (Within (n + 1) (Derives .operand)) (offence ctx)
      (tree ctx.declared) ExprLevel.operand.Stops := by
  rintro c ts f c' hts ⟨hn, hf⟩ hs
  rw [operand, current_bind]
  cases hf with
  | @int m s =>
    obtain ⟨hc, -, rfl⟩ := Cursor.passes_one_iff.mp hts
    simp only [hc, advance_bind]
    rw [offence_int]
    exact (literal_reports ⟨false, m, s⟩).bind_ok rfl
  | read =>
    obtain ⟨hc, -, rfl⟩ := Cursor.passes_one_iff.mp hts
    simp only [hc]
    rfl
  | @var x s =>
    have hnext : c.nextClass ≠ .symbol .openParen := by
      rw [hts.nextClass_eq]
      intro he
      exact hs .openParen (by simp [ExprLevel.continuing]) (TokenKind.toClass_eq_symbol_iff.mp he)
    obtain ⟨hc, -, rfl⟩ := Cursor.passes_one_iff.mp hts
    simp only [hc, get_bind, hnext, if_false]
    rfl
  | @paren s₁ s₂ ts f hf =>
    obtain ⟨c₁, h₁, hts⟩ := Cursor.passes_cons_iff.mp hts
    obtain ⟨c₂, hts, h₂⟩ := Cursor.passes_append_iff.mp hts
    obtain ⟨hc, -, rfl⟩ := Cursor.passes_one_iff.mp h₁
    simp only [List.length_cons, List.length_append, List.length_nil] at hn
    have hs₂ : ExprLevel.sum.Stops c₂.current.kind := h₂.current_eq ▸ stops_closeParen
    have hi := h hts ⟨by omega, hf⟩ hs₂
    simp only [hc, advance_bind]
    exact hi.bind_ok (bind_eq_ok_iff.mpr ⟨_, _, symbol_eq_ok_iff.mpr h₂, rfl⟩)
  | @call x s s₁ s₂ ts args hargs =>
    obtain ⟨c₁, h₁, hrest⟩ := Cursor.passes_cons_iff.mp hts
    obtain ⟨c₂, h₂, hrest⟩ := Cursor.passes_cons_iff.mp hrest
    obtain ⟨c₃, hmid, h₃⟩ := Cursor.passes_append_iff.mp hrest
    simp only [List.length_cons, List.length_append, List.length_nil] at hn
    have hnext : c.nextClass = .symbol .openParen := by
      rw [h₁.nextClass_eq, h₂.current_eq]
      rfl
    obtain ⟨hc, -, rfl⟩ := Cursor.passes_one_iff.mp h₁
    simp only [hc, get_bind, hnext, if_true]
    exact callParser_reports h (by omega) hargs h₂ hmid h₃

theorem signed_answers {n : Nat} (h : AnswersNested ctx nested n) :
    Answers (signed ctx nested) (Within (n + 1) (Derives .signed)) (offence ctx)
      (tree ctx.declared) ExprLevel.signed.Stops := by
  rintro c ts f c' hts ⟨hn, hf⟩ hs
  obtain ⟨signs, us, g, rfl, hg, rfl⟩ := derives_signed_iff.mp hf
  obtain ⟨c₁, hsigns, hus⟩ := Cursor.passes_append_iff.mp hts
  obtain ⟨t, vs, rfl, -⟩ := hg.starts_operand
  have hminus : on (.symbol .minus) c₁.current.kind = none := by
    rw [hus.current_eq, Option.eq_none_iff_forall_ne_some]
    exact fun u hu => hg.ne_minus (on_symbol_eq_some_iff.mp hu)
  have hm := signs_complete rfl hsigns hminus
  have hlast : c'.lastSpan = Grammar.lastSpan (t :: vs) := hus.lastSpan_eq (by simp)
  rw [List.length_append] at hn
  rw [offence_withSigns]
  split
  · rename_i hl
    obtain ⟨hne, hl⟩ := hl
    obtain ⟨init, sign, rfl⟩ := List.eq_nil_or_concat signs |>.resolve_left hne
    rw [List.concat_eq_append] at hm ⊢
    cases g with
    | int m s =>
      obtain rfl : m = leastMagnitude := eq_of_beq hl
      cases hg
      rw [tree_withSigns_least hl]
      exact signed_eq_least hm hus
    | _ => cases hl
  · rename_i hl
    have hn : signs = [] ∨ ∀ s, c₁.current ≠ integerAt leastMagnitude s := by
      refine Decidable.or_iff_not_imp_left.mpr fun hne s hc => hl ⟨hne, ?_⟩
      obtain rfl := hus.current_eq.symm.trans hc
      obtain ⟨rfl, rfl⟩ := hg.eq_int
      rfl
    rw [signed_eq_operand hm hn]
    refine (operand_answers h hus ⟨by omega, hg⟩ hs).bind_ok ?_
    rw [lastSpan_bind, hlast, tree_withSigns hl]
    rfl

/-- A chain is answered at its level if its operands are at the level below. -/
theorem chain_answers {l l' : ExprLevel} {ops : List ArithOp}
    {operator : TokenKind Name → Option ArithOp} {p : Parser Expr} {n : Nat}
    (hop : ∀ kind op, operator kind = some op ↔ ExprForm.operator ops kind op)
    (hlevel : l.continuing = l'.continuing ++ ops.map ArithOp.symbol)
    (hstop : ∀ op ∈ ops, op.symbol ∉ l'.continuing)
    (hderives : ∀ ts f, Derives l ts f ↔ Chained (ExprForm.operator ops) (Derives l') .arith ts f)
    (h : Answers p (Within n (Derives l')) (offence ctx) (tree ctx.declared) l'.Stops) :
    Answers (chainLeft operator binary p) (Within n (Derives l)) (offence ctx) (tree ctx.declared)
      l.Stops := by
  refine (Answers.chainLeft hop ?_ (fun _ _ _ => rfl) (fun _ _ _ => rfl) h).imp
    (fun ts f hf => ((hderives ts f).mp hf.2).within hf.1) fun kind hk => ⟨fun s hs => ?_, ?_⟩
  · rintro kind op ⟨hmem, rfl⟩ s hs he
    cases he
    exact hstop op hmem hs
  · exact hk s (by rw [hlevel]; exact List.mem_append_left _ hs)
  · rw [Option.eq_none_iff_forall_ne_some]
    intro op ho
    obtain ⟨hmem, rfl⟩ := (hop _ _).mp ho
    have hop : op.symbol ∈ l.continuing := by
      rw [hlevel]
      exact List.mem_append_right _ (List.mem_map_of_mem hmem)
    exact hk op.symbol hop rfl

theorem sum_answers {n : Nat} (h : AnswersNested ctx nested n) :
    AnswersNested ctx (sum ctx nested) (n + 1) := by
  have hpower := chain_answers powerOp_eq_some_iff rfl (by decide) derives_power_iff
    (signed_answers h)
  have hproduct := chain_answers productOp_eq_some_iff rfl (by decide) derives_product_iff hpower
  exact chain_answers sumOp_eq_some_iff rfl (by decide) derives_sum_iff hproduct

theorem parserUpTo_answers (ctx : Context) (bound : List (Token Name)) :
    AnswersNested ctx (parserUpTo ctx bound) bound.length := by
  induction bound with
  | nil =>
    rintro c ts f c' - ⟨hn, hf⟩ -
    obtain ⟨t, us, rfl, -⟩ := hf.starts
    simp at hn
  | cons t bound ih => exact sum_answers ih

/-- An expression is read to its end or to its first offence, if the token behind it does not go on
with it. -/
theorem parser_answers (ctx : Context) : Answers (parser ctx) (Derives .sum) (offence ctx)
    (tree ctx.declared) ExprLevel.sum.Stops :=
  fun c _ _ _ hts hf hs => parserUpTo_answers ctx c.ahead hts ⟨hts.length_le, hf⟩ hs

end Expr

end Enquanto

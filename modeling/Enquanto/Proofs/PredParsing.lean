import Enquanto.Pred.Parser
import Enquanto.Proofs.ExprParsing

/-!
# The predicate parser and the grammar

`Pred.parser` reads exactly the predicates of the grammar that satisfy the rules, and gives their
trees; of the others it reports the first offence, or an unexpected token if that is masked.

* `Pred.parser_sound`: what it has read is a predicate;
* `Pred.parser_answers`: a predicate is read to its end, or to its first offence, if the token
  behind it does not go on with it.

A parenthesis at the start of an atom is first taken to open a predicate. Where it belongs to an
expression that reading fails (`Pred.parserUpTo_rejects`), since an expression in parentheses is
followed by `)` and not by a relation; so the second reading is reached and nothing is lost. Where
it opens a predicate with an offence, the second reading takes place as well, and cannot succeed
either (`Pred.parserUpTo_strays`); the error is its error.
-/

namespace Enquanto

open Grammar Enquanto.Parser

/-- The connectives that would go on with a predicate of a level. -/
def PredLevel.continuing : PredLevel → List LogicOp
  | .atom => []
  | .negated => []
  | .and => [.and]
  | .xor => [.and, .xor]
  | .or => [.and, .xor, .or]

/-- A token that does not go on with a predicate of a level, nor with an expression at its end. -/
def PredLevel.Stops (l : PredLevel) (kind : TokenKind Name) : Prop :=
  ExprLevel.sum.Stops kind ∧ ∀ op ∈ l.continuing, kind ≠ .keyword op.keyword

namespace PredForm

/-- A predicate of a level that satisfies the rules, with its tree. -/
abbrev Reads (declared : List Signature) (l : PredLevel) : List (Token Name) → Pred → Prop :=
  Denotes (Derives l) (Admissible declared) (tree declared)

theorem Derives.ne_nil_atom {ts : List (Token Name)} {p : PredForm} (h : Derives .atom ts p) :
    ts ≠ [] := by
  cases h <;> simp

theorem Derives.ne_nil_negated {ts : List (Token Name)} {p : PredForm} (h : Derives .negated ts p) :
    ts ≠ [] := by
  cases h with
  | not h => simp
  | plain h => exact h.ne_nil_atom

/-- A predicate starts with one that has only signs before its atom. -/
theorem Derives.negated_first {ts : List (Token Name)} {p : PredForm} (h : Derives .or ts p) :
    ∃ us vs q, ts = us ++ vs ∧ Derives .negated us q ∧ q.lead = p.lead := by
  cases h with
  | or h _ =>
    cases h with
    | xor h _ =>
      cases h with
      | and h _ =>
        exact ⟨_, _, _, by rw [List.append_assoc, List.append_assoc], h,
          by rw [lead_chain, lead_chain, lead_chain]⟩

theorem Derives.ne_nil {ts : List (Token Name)} {p : PredForm} (h : Derives .or ts p) :
    ts ≠ [] := by
  obtain ⟨us, vs, q, rfl, hq, -⟩ := h.negated_first
  simp [hq.ne_nil_negated]

variable {declared : List Signature} {ts : List (Token Name)} {p : Pred}

theorem derives_and_iff (ts : List (Token Name)) (f : PredForm) : Derives .and ts f ↔
    Chained (connective .and) (Derives .negated) .logic ts f := by
  constructor
  · rintro (_ | _ | _ | _ | _ | _ | ⟨h, hr⟩)
    exact ⟨_, _, _, _, rfl, h, hr, rfl⟩
  · rintro ⟨us, vs, g, rest, rfl, h, hr, rfl⟩
    exact .and h hr

theorem derives_xor_iff (ts : List (Token Name)) (f : PredForm) : Derives .xor ts f ↔
    Chained (connective .xor) (Derives .and) .logic ts f := by
  constructor
  · rintro (_ | _ | _ | _ | _ | _ | _ | ⟨h, hr⟩)
    exact ⟨_, _, _, _, rfl, h, hr, rfl⟩
  · rintro ⟨us, vs, g, rest, rfl, h, hr, rfl⟩
    exact .xor h hr

theorem derives_or_iff (ts : List (Token Name)) (f : PredForm) : Derives .or ts f ↔
    Chained (connective .or) (Derives .xor) .logic ts f := by
  constructor
  · rintro (_ | _ | _ | _ | _ | _ | _ | _ | ⟨h, hr⟩)
    exact ⟨_, _, _, _, rfl, h, hr, rfl⟩
  · rintro ⟨us, vs, g, rest, rfl, h, hr, rfl⟩
    exact .or h hr

theorem reads_and_iff : Reads declared .and ts p ↔
    Chained (connective .and) (Reads declared .negated) Pred.binary ts p :=
  chained_denotes_iff (fun _ _ _ => Iff.rfl) (fun _ _ _ => rfl) derives_and_iff

theorem reads_xor_iff : Reads declared .xor ts p ↔
    Chained (connective .xor) (Reads declared .and) Pred.binary ts p :=
  chained_denotes_iff (fun _ _ _ => Iff.rfl) (fun _ _ _ => rfl) derives_xor_iff

theorem reads_or_iff : Reads declared .or ts p ↔
    Chained (connective .or) (Reads declared .xor) Pred.binary ts p :=
  chained_denotes_iff (fun _ _ _ => Iff.rfl) (fun _ _ _ => rfl) derives_or_iff

/-! ## Signs -/

/-- The token at the start of an atom is no sign. -/
theorem Derives.ne_nao {us : List (Token Name)} {f : PredForm} {c c' : Cursor}
    (h : Derives .atom us f) (hus : c.Passes us c') : c.current.kind ≠ .keyword .nao := by
  cases h with
  | true | false | paren _ => simp [hus.current_eq]
  | rel hl _ =>
    obtain ⟨t, us, rfl, hstart⟩ := hl.starts
    rw [hus.current_eq]
    intro ht
    rw [ht] at hstart
    exact hstart

/-- An atom with `nao` before it any number of times, each with a span that reaches to `stop`. -/
def withSigns (signs : List Span) (stop : Span) (p : PredForm) : PredForm :=
  signs.foldr (fun sign p => .not p (sign.merge stop)) p

theorem derives_negated_iff {ts : List (Token Name)} {f : PredForm} :
    Derives .negated ts f ↔ ∃ signs us g, ts = signs.map (keywordAt .nao) ++ us ∧
      Derives .atom us g ∧ f = withSigns signs (Grammar.lastSpan us) g := by
  constructor
  · intro h
    induction hn : ts.length generalizing ts f with
    | zero => exact absurd (List.eq_nil_of_length_eq_zero hn) h.ne_nil_negated
    | succ n ih =>
      cases h with
      | plain h => exact ⟨[], ts, f, rfl, h, rfl⟩
      | @not s ts p h =>
        obtain ⟨signs, us, g, rfl, hg, rfl⟩ := ih h (by simpa using hn)
        refine ⟨s :: signs, us, g, rfl, hg, ?_⟩
        rw [lastSpan_append hg.ne_nil_atom]
        rfl
  · rintro ⟨signs, us, g, rfl, hg, rfl⟩
    induction signs with
    | nil => exact .plain hg
    | cons s signs ih =>
      have := Derives.not (s := s) ih
      rwa [lastSpan_append hg.ne_nil_atom] at this

theorem admissible_withSigns {signs : List Span} {stop : Span} {f : PredForm} :
    (withSigns signs stop f).Admissible declared ↔ f.Admissible declared := by
  induction signs with
  | nil => rfl
  | cons sign signs ih => exact ih

theorem offence_withSigns {ctx : Context} {signs : List Span} {stop : Span} {f : PredForm} :
    (withSigns signs stop f).offence ctx = f.offence ctx := by
  induction signs with
  | nil => rfl
  | cons sign signs ih => exact ih

theorem tree_withSigns {signs : List Span} {stop : Span} {f : PredForm} :
    (withSigns signs stop f).tree declared =
      signs.foldr (fun sign p => .not p (sign.merge stop)) (f.tree declared) := by
  induction signs with
  | nil => rfl
  | cons sign signs ih => exact congrArg (Pred.not · (sign.merge stop)) ih

end PredForm

namespace Pred

open PredForm

variable {ctx : Context} {nested : Parser Pred} {c c' : Cursor}

theorem andOp_eq_some_iff (kind : TokenKind Name) (op : LogicOp) :
    andOp kind = some op ↔ connective .and kind op := by
  cases kind with
  | keyword k => cases k <;> cases op <;> simp [andOp, connective, LogicOp.keyword]
  | _ => simp [andOp, connective]

theorem xorOp_eq_some_iff (kind : TokenKind Name) (op : LogicOp) :
    xorOp kind = some op ↔ connective .xor kind op := by
  cases kind with
  | keyword k => cases k <;> cases op <;> simp [xorOp, connective, LogicOp.keyword]
  | _ => simp [xorOp, connective]

theorem orOp_eq_some_iff (kind : TokenKind Name) (op : LogicOp) :
    orOp kind = some op ↔ connective .or kind op := by
  cases kind with
  | keyword k => cases k <;> cases op <;> simp [orOp, connective, LogicOp.keyword]
  | _ => simp [orOp, connective]

theorem relOp_eq_some_iff (kind : TokenKind Name) (op : RelOp) :
    relOp kind = some op ↔ kind = .symbol op.symbol := by
  cases kind with
  | symbol s => cases s <;> cases op <;> simp [relOp, RelOp.symbol]
  | _ => simp [relOp]

/-! ## Soundness -/

theorem relationParser_sound : Sound (relationParser ctx) (Reads ctx.declared .atom) := by
  intro c p c' hc
  obtain ⟨l, c₁, hl, hc⟩ := bind_eq_ok_iff.mp hc
  rw [current_bind] at hc
  cases hop : relOp c₁.current.kind with
  | none =>
    rw [hop] at hc
    exact absurd hc unexpected_ne_ok
  | some op =>
    simp only [hop, advance_bind] at hc
    obtain ⟨r, c₂, hr, hc⟩ := bind_eq_ok_iff.mp hc
    obtain ⟨rfl, rfl⟩ := pure_eq_ok_iff.mp hc
    obtain ⟨ts, hts, f, hf, hfa, rfl⟩ := Expr.parser_sound ctx hl
    obtain ⟨us, hus, g, hg, hga, rfl⟩ := Expr.parser_sound ctx hr
    have hk := (relOp_eq_some_iff _ _).mp hop
    have ht : c₁.Passes [symbolAt op.symbol c₁.current.span] c₁.advance :=
      passes_advance (by rw [symbolAt, ← hk]) rfl
    exact ⟨_, hts.append (ht.cons hus), .rel op f g, .rel hf hg, ⟨hfa, hga⟩, rfl⟩

theorem parenthesised_sound (h : Sound nested (Reads ctx.declared .or)) :
    Sound (parenthesised nested) (Reads ctx.declared .atom) := by
  intro c p c' hc
  obtain ⟨s₁, c₁, h₁, hc⟩ := bind_eq_ok_iff.mp hc
  obtain ⟨p, c₂, hp, hc⟩ := bind_eq_ok_iff.mp hc
  obtain ⟨s₂, c₃, h₂, hc⟩ := bind_eq_ok_iff.mp hc
  obtain ⟨rfl, rfl⟩ := pure_eq_ok_iff.mp hc
  obtain ⟨ts, hts, f, hf, ha, rfl⟩ := h hp
  exact ⟨_, (symbol_eq_ok_iff.mp h₁).cons (hts.append (symbol_eq_ok_iff.mp h₂)), .paren f,
    .paren hf, ha, rfl⟩

theorem orElse_eq_ok {α : Type} {p q : Parser α} {r : α × Cursor} (h : orElse p q c = .ok r) :
    p c = .ok r ∨ q c = .ok r := by
  unfold orElse at h
  cases hp : p c with
  | ok x =>
    rw [hp] at h
    exact .inl h
  | error e =>
    rw [hp] at h
    exact .inr h

theorem atom_sound (h : Sound nested (Reads ctx.declared .or)) :
    Sound (atom ctx nested) (Reads ctx.declared .atom) := by
  intro c p c' hc
  rcases ht : c.current with ⟨kind, s⟩
  simp only [atom, current_bind, ht] at hc
  cases kind with
  | keyword k =>
    cases k with
    | verdadeiro =>
      obtain ⟨rfl, rfl⟩ := pure_eq_ok_iff.mp hc
      exact ⟨_, passes_advance ht rfl, .lit true s, .true, trivial, rfl⟩
    | falso =>
      obtain ⟨rfl, rfl⟩ := pure_eq_ok_iff.mp hc
      exact ⟨_, passes_advance ht rfl, .lit false s, .false, trivial, rfl⟩
    | _ => exact relationParser_sound hc
  | symbol k =>
    cases k with
    | openParen =>
      rcases orElse_eq_ok hc with hp | hr
      · exact parenthesised_sound h hp
      · exact relationParser_sound hr
    | _ => exact relationParser_sound hc
  | _ => exact relationParser_sound hc

theorem negated_sound (h : Sound nested (Reads ctx.declared .or)) :
    Sound (negated ctx nested) (Reads ctx.declared .negated) := by
  intro c p c' hc
  obtain ⟨signs, c₁, hm, hc⟩ := bind_eq_ok_iff.mp hc
  obtain ⟨p, c₂, hp, hc⟩ := bind_eq_ok_iff.mp hc
  obtain ⟨rfl, rfl⟩ := pure_eq_ok_iff.mp hc
  have hs : c.Passes (signs.map (keywordAt .nao)) c₁ :=
    signs_sound (fun _ _ hk => on_keyword_eq_some_iff.mp hk) (by simp) hm
  obtain ⟨us, hus, g, hg, ha, rfl⟩ := atom_sound h hp
  refine ⟨_, hs.append hus, withSigns signs c'.lastSpan g, ?_, ?_, ?_⟩
  · exact derives_negated_iff.mpr ⟨_, _, _, rfl, hg, by rw [hus.lastSpan_eq hg.ne_nil_atom]⟩
  · exact admissible_withSigns.mpr ha
  · exact tree_withSigns

theorem disjunction_sound (h : Sound nested (Reads ctx.declared .or)) :
    Sound (disjunction ctx nested) (Reads ctx.declared .or) := by
  have hand : Sound (chainLeft andOp binary (negated ctx nested)) (Reads ctx.declared .and) :=
    (Sound.chainLeft andOp_eq_some_iff rfl (negated_sound h)).imp fun _ _ => reads_and_iff.mpr
  have hxor : Sound (chainLeft xorOp binary (chainLeft andOp binary (negated ctx nested)))
      (Reads ctx.declared .xor) :=
    (Sound.chainLeft xorOp_eq_some_iff rfl hand).imp fun _ _ => reads_xor_iff.mpr
  exact (Sound.chainLeft orOp_eq_some_iff rfl hxor).imp fun _ _ => reads_or_iff.mpr

theorem parserUpTo_sound (bound : List (Token Name)) :
    Sound (parserUpTo ctx bound) (Reads ctx.declared .or) := by
  induction bound with
  | nil => exact fun c a c' hc => absurd hc unexpected_ne_ok
  | cons t bound ih => exact disjunction_sound ih

/-- What the predicate parser has read is a predicate, and the result its tree. -/
theorem parser_sound (ctx : Context) : Sound (parser ctx) (Reads ctx.declared .or) :=
  fun c _ _ hc => parserUpTo_sound c.ahead hc

/-! ## Parentheses of expressions -/

theorem chainLeft_ne_ok {α ω : Type} {operator : TokenKind Name → Option ω} {join : ω → α → α → α}
    {p : Parser α} (h : ∀ r, p c ≠ .ok r) (r : α × Cursor) :
    chainLeft operator join p c ≠ .ok r := by
  intro hc
  obtain ⟨a, c₁, ha, -⟩ := bind_eq_ok_iff.mp hc
  exact h _ ha

/-- An expression in front of a closing parenthesis is not read. -/
def Rejects (p : Parser Pred) : Prop :=
  ∀ ⦃c ts e c'⦄, c.Passes ts c' → ExprForm.Derives .sum ts e →
    c'.current.kind = .symbol .closeParen → ∀ r, p c ≠ .ok r

theorem relationParser_rejects (ctx : Context) : Rejects (relationParser ctx) := by
  intro c ts e c' hts he hc' r hc
  obtain ⟨l, c₁, hl, hc⟩ := bind_eq_ok_iff.mp hc
  cases (Expr.parser_answers ctx hts he (hc' ▸ Expr.stops_closeParen)).eq_of_ok hl
  simp only [current_bind, hc'] at hc
  exact unexpected_ne_ok hc

/-- An expression that starts with a parenthesis does not start with a predicate in
parentheses. -/
theorem parenthesised_ne_ok (h : Rejects nested) {s : Span} {ts : List (Token Name)}
    {e : ExprForm} (hts : c.Passes (symbolAt .openParen s :: ts) c')
    (he : ExprForm.Derives .sum (symbolAt .openParen s :: ts) e)
    (r : Pred × Cursor) : parenthesised nested c ≠ .ok r := by
  intro hp
  obtain ⟨us, vs, f, s₂, rfl, hf⟩ := he.paren_first
  obtain ⟨c₁, h₁, hrest⟩ := Cursor.passes_cons_iff.mp hts
  obtain ⟨c₂, hus, hrest⟩ := Cursor.passes_append_iff.mp hrest
  rw [parenthesised, bind_eq_of_ok (symbol_eq_ok_iff.mpr h₁)] at hp
  obtain ⟨inner, c₃, hi, -⟩ := bind_eq_ok_iff.mp hp
  exact h hus hf (by rw [hrest.current_eq]) _ hi

theorem atom_rejects (h : Rejects nested) : Rejects (atom ctx nested) := by
  intro c ts e c' hts he hc' r hc
  have hrel := relationParser_rejects ctx hts he hc'
  obtain ⟨⟨kind, s⟩, us, rfl, hstart⟩ := he.starts
  simp only [atom, current_bind, hts.current_eq] at hc
  cases kind with
  | keyword k =>
    cases k with
    | verdadeiro | falso => exact hstart
    | _ => exact hrel _ hc
  | symbol k =>
    cases k with
    | openParen =>
      rcases orElse_eq_ok hc with hp | hr
      · exact parenthesised_ne_ok h hts he _ hp
      · exact hrel _ hr
    | _ => exact hrel _ hc
  | _ => exact hrel _ hc

theorem negated_rejects (h : Rejects nested) : Rejects (negated ctx nested) := by
  intro c ts e c' hts he hc' r hc
  obtain ⟨signs, c₁, hs, hc⟩ := bind_eq_ok_iff.mp hc
  obtain ⟨p, c₂, hp, -⟩ := bind_eq_ok_iff.mp hc
  have hs : c.Passes (signs.map (keywordAt .nao)) c₁ :=
    signs_sound (fun _ _ hk => on_keyword_eq_some_iff.mp hk) (by simp) hs
  cases signs with
  | nil =>
    obtain rfl := Cursor.passes_nil_iff.mp hs
    exact atom_rejects h hts he hc' _ hp
  | cons s signs =>
    obtain ⟨t, us, rfl, hstart⟩ := he.starts
    have ht : t = keywordAt .nao s := hts.current_eq.symm.trans hs.current_eq
    rw [ht] at hstart
    exact hstart

/-- An expression in front of a closing parenthesis is not read as a predicate. The first reading
of an expression in parentheses fails so, and those inside it fail before. -/
theorem parserUpTo_rejects (bound : List (Token Name)) : Rejects (parserUpTo ctx bound) := by
  induction bound with
  | nil => exact fun c ts e c' hts he hc' r => unexpected_ne_ok
  | cons t bound ih =>
    intro c ts e c' hts he hc'
    exact chainLeft_ne_ok (chainLeft_ne_ok (chainLeft_ne_ok (negated_rejects ih hts he hc')))

/-! ## Predicates read as expressions -/

/-- The error of a reading that cannot succeed: for an offence in the leading expression, or else
an unexpected token. -/
def Blames (lead : Option Offence) (e : ParseError) : Prop :=
  match lead with
  | some o => o.Shows e
  | none => ∃ expected found, e.cause = .unexpected expected found

/-- What an expression parser makes of a predicate: it fails, or it has read the left side of a
relation. -/
def Strays (lead : Option Offence) (result : Except ParseError (Expr × Cursor)) : Prop :=
  (∃ e, result = .error e ∧ Blames lead e) ∨
    lead = none ∧ ∃ a c op, result = .ok (a, c) ∧ c.current.kind = .symbol (RelOp.symbol op)

theorem stops_relOp (op : RelOp) : ExprLevel.sum.Stops (.symbol op.symbol) := by
  cases op <;> simp [ExprLevel.Stops, ExprLevel.continuing, RelOp.symbol]

/-- A sum fails where its first operand does. -/
theorem sum_eq_error {nested : Parser Expr} {e : ParseError}
    (h : Expr.operand ctx nested c = .error e) (hk : c.current.kind ≠ .symbol .minus) :
    Expr.sum ctx nested c = .error e := by
  have hm : many (on (.symbol .minus)) (fun _ => Parser.lastSpan) c = .ok ([], c) := by
    have hnil : c.Passes (([] : List Span).map (symbolAt .minus)) c :=
      Cursor.passes_nil_iff.mpr rfl
    refine signs_complete rfl hnil ?_
    exact Option.eq_none_iff_forall_ne_some.mpr fun u hu => hk (on_symbol_eq_some_iff.mp hu)
  have hs : Expr.signed ctx nested c = .error e := by
    rw [Expr.signed_eq_operand hm (.inl rfl), bind_eq_of_error h]
  exact bind_eq_of_error (bind_eq_of_error (bind_eq_of_error hs))

theorem sum_keyword {nested : Parser Expr} {k : Keyword} (hc : c.current.kind = .keyword k)
    (hk : k ≠ .leia) :
    ∃ e, Expr.sum ctx nested c = .error e ∧ Blames none e := by
  have ho : Expr.operand ctx nested c = unexpected "expression" c := by
    rw [Expr.operand, current_bind, hc]
    cases k <;> first | exact absurd rfl hk | rfl
  rw [unexpected_eq_error (by simp [Token.toClass, hc, TokenKind.toClass])] at ho
  exact ⟨_, sum_eq_error ho (by simp [hc]), _, _, rfl⟩

/-- In parentheses, a predicate cannot be read as an expression. -/
theorem sum_paren {nested : Parser Expr} {c₁ : Cursor} {s : Span} {lead : Option Offence}
    (hc : c.Passes [symbolAt .openParen s] c₁) (h : Strays lead (nested c₁)) :
    ∃ e, Expr.sum ctx nested c = .error e ∧ Blames lead e := by
  obtain ⟨hcur, -, rfl⟩ := Cursor.passes_one_iff.mp hc
  have ho : Expr.operand ctx nested c = (nested >>= fun inner => do
      let _ ← symbol .closeParen
      return inner : Parser Expr) c.advance := by
    rw [Expr.operand, current_bind, hcur]
    rfl
  have hk : c.current.kind ≠ .symbol .minus := by simp [hcur]
  rcases h with ⟨e, he, hb⟩ | ⟨rfl, a, c₂, op, ha, hop⟩
  · exact ⟨e, sum_eq_error (ho.trans (bind_eq_of_error he)) hk, hb⟩
  · -- The left side of a relation is followed by its operator, not by a parenthesis.
    have hclass : c₂.current.toClass = .symbol op.symbol :=
      TokenKind.toClass_eq_symbol_iff.mpr hop
    have hclose : symbol .closeParen c₂ = .error _ :=
      expectAs_eq_error (by rw [hclass]; cases op <;> simp [RelOp.symbol]) (by simp [hclass])
    rw [bind_eq_of_ok ha, bind_eq_of_error hclose] at ho
    exact ⟨_, sum_eq_error ho hk, _, _, rfl⟩

/-- What the expression parser makes of a predicate. -/
theorem parserUpTo_strays (bound : List (Token Name)) {ts : List (Token Name)} {p : PredForm}
    (hp : Derives .or ts p) (hn : ts.length ≤ bound.length) (hts : c.Passes ts c') :
    Strays (p.lead.bind (·.offence ctx)) (Expr.parserUpTo ctx bound c) := by
  induction bound generalizing ts p c c' with
  | nil => exact absurd (List.eq_nil_of_length_eq_zero (Nat.le_zero.mp hn)) hp.ne_nil
  | cons t bound ih =>
    -- Only the first atom of the predicate matters.
    obtain ⟨us, vs, q, rfl, hq, hlead⟩ := hp.negated_first
    obtain ⟨c₁, hus, -⟩ := Cursor.passes_append_iff.mp hts
    rw [List.length_append] at hn
    rw [← hlead]
    cases hq with
    | not hq => exact .inl (sum_keyword (congrArg Token.kind hus.current_eq) nofun)
    | plain hq =>
      cases hq with
      | true | false => exact .inl (sum_keyword (congrArg Token.kind hus.current_eq) nofun)
      | @paren s₁ s₂ us q hq =>
        obtain ⟨c₂, h₂, hrest⟩ := Cursor.passes_cons_iff.mp hus
        obtain ⟨c₃, hus, -⟩ := Cursor.passes_append_iff.mp hrest
        simp only [List.length_cons, List.length_append] at hn
        change Strays (q.lead.bind (·.offence ctx)) _
        exact .inl (sum_paren h₂ (ih hq (by omega) hus))
      | @rel op s us vs l r hl hr =>
        obtain ⟨c₂, hus, hrest⟩ := Cursor.passes_append_iff.mp hus
        rw [List.length_append] at hn
        have ha := Expr.parserUpTo_answers ctx (t :: bound) hus ⟨by omega, hl⟩
          (by rw [hrest.current_eq]; exact stops_relOp op)
        change Strays (l.offence ctx) _
        cases ho : l.offence ctx with
        | none =>
          rw [ho] at ha
          exact .inr ⟨rfl, _, _, op, ha, by rw [hrest.current_eq]⟩
        | some o =>
          rw [ho] at ha
          exact .inl ha

/-! ## Answers -/

/-- Nested predicates of at most `n` tokens are read to their end or to their first offence, and
no expressions are. -/
structure AnswersNested (ctx : Context) (nested : Parser Pred) (n : Nat) : Prop where
  answers : Answers nested (Within n (Derives .or)) (offence ctx) (tree ctx.declared)
    PredLevel.or.Stops
  rejects : Rejects nested

theorem stops_closeParen : PredLevel.or.Stops (.symbol .closeParen) :=
  ⟨Expr.stops_closeParen, by simp⟩

theorem stops_keyword {k : Keyword} (h : k ∉ PredLevel.or.continuing.map LogicOp.keyword) :
    PredLevel.or.Stops (.keyword k) := by
  refine ⟨Expr.stops_keyword k, fun op hop he => h ?_⟩
  cases he
  exact List.mem_map_of_mem hop

theorem relationParser_reports (ctx : Context) {op : RelOp} {s : Span} {ts us : List (Token Name)}
    {l r : ExprForm} (hl : ExprForm.Derives .sum ts l) (hr : ExprForm.Derives .sum us r)
    (hts : c.Passes (ts ++ symbolAt op.symbol s :: us) c')
    (hs : ExprLevel.sum.Stops c'.current.kind) :
    Reports ((PredForm.rel op l r).offence ctx) (relationParser ctx c)
      ((PredForm.rel op l r).tree ctx.declared, c') := by
  obtain ⟨c₁, hts, hrest⟩ := Cursor.passes_append_iff.mp hts
  obtain ⟨c₂, hop, hus⟩ := Cursor.passes_cons_iff.mp hrest
  obtain ⟨hc₁, -, rfl⟩ := Cursor.passes_one_iff.mp hop
  refine (Expr.parser_answers ctx hts hl (by rw [hc₁]; exact stops_relOp op)).bind ?_
  rw [current_bind, hc₁]
  simp only [(relOp_eq_some_iff _ op).mpr rfl, advance_bind]
  exact (Expr.parser_answers ctx hus hr hs).bind_ok rfl

theorem orElse_eq_ok_left {α : Type} {p q : Parser α} {r : α × Cursor} (h : p c = .ok r) :
    orElse p q c = .ok r := by
  simp [orElse, h]

theorem orElse_eq_right {α : Type} {p q : Parser α} (h : ∀ r, p c ≠ .ok r) :
    orElse p q c = q c := by
  unfold orElse
  cases hp : p c with
  | ok r => exact absurd hp (h r)
  | error e => rfl

/-- The second reading of a predicate in parentheses that has an offence. -/
theorem relationParser_reports_paren {p : PredForm} {s₁ s₂ : Span} {ts : List (Token Name)}
    {o : Offence} (hp : Derives .or ts p) (ho : p.offence ctx = some o)
    (hts : c.Passes (symbolAt .openParen s₁ :: (ts ++ [symbolAt .closeParen s₂])) c')
    (r : Pred × Cursor) :
    Reports ((PredForm.paren p).offence ctx) (relationParser ctx c) r := by
  obtain ⟨c₁, h₁, hrest⟩ := Cursor.passes_cons_iff.mp hts
  obtain ⟨c₂, hmid, -⟩ := Cursor.passes_append_iff.mp hrest
  obtain ⟨t, bound, hahead⟩ := List.exists_cons_of_ne_nil (l := c.ahead) (by simp [h₁.1])
  have hlen : ts.length ≤ bound.length := by
    have := hts.length_le
    simp only [hahead, List.length_cons, List.length_append] at this
    omega
  obtain ⟨e, he, hb⟩ : ∃ e, Expr.sum ctx (Expr.parserUpTo ctx bound) c = .error e ∧
      Blames (p.lead.bind (·.offence ctx)) e :=
    sum_paren h₁ (parserUpTo_strays bound hp hlen hmid)
  have hexpr : Expr.parser ctx c = .error e := by
    rw [Expr.parser, get_bind, hahead]
    exact he
  rw [PredForm.offence, ho]
  refine ⟨e, bind_eq_of_error hexpr, ?_⟩
  cases hl : p.lead.bind (·.offence ctx) with
  | none =>
    rw [hl] at hb
    have hb : ∃ expected found, e.cause = .unexpected expected found := hb
    simpa [Offence.Shows] using hb
  | some o' =>
    rw [hl] at hb
    have hb : o'.Shows e := hb
    obtain rfl : o = o' := Option.some.inj (ho.symm.trans (offence_eq_of_lead hl))
    simpa [Offence.Shows] using hb

theorem atom_answers {n : Nat} (h : AnswersNested ctx nested n) :
    Answers (atom ctx nested) (Within (n + 1) (Derives .atom)) (offence ctx) (tree ctx.declared)
      PredLevel.atom.Stops := by
  rintro c ts f c' hts ⟨hn, hf⟩ ⟨hs, -⟩
  simp only [atom, current_bind]
  cases hf with
  | true | false =>
    obtain ⟨hc, -, rfl⟩ := Cursor.passes_one_iff.mp hts
    simp only [hc]
    rfl
  | @paren s₁ s₂ ts f hf =>
    obtain ⟨c₁, h₁, hrest⟩ := Cursor.passes_cons_iff.mp hts
    obtain ⟨c₂, hmid, h₂⟩ := Cursor.passes_append_iff.mp hrest
    simp only [List.length_cons, List.length_append, List.length_nil] at hn
    have hi := h.answers hmid ⟨by omega, hf⟩ (h₂.current_eq ▸ stops_closeParen)
    simp only [h₁.current_eq]
    cases ho : f.offence ctx with
    | none =>
      rw [ho] at hi
      rw [PredForm.offence, ho]
      exact orElse_eq_ok_left (bind_eq_ok_iff.mpr ⟨_, _, symbol_eq_ok_iff.mpr h₁,
        bind_eq_ok_iff.mpr ⟨_, _, hi, bind_eq_ok_iff.mpr ⟨_, _, symbol_eq_ok_iff.mpr h₂, rfl⟩⟩⟩)
    | some o =>
      rw [ho] at hi
      obtain ⟨e, he, -⟩ := hi
      have hfail : parenthesised nested c = .error e := by
        rw [parenthesised, bind_eq_of_ok (symbol_eq_ok_iff.mpr h₁), bind_eq_of_error he]
      rw [orElse_eq_right (by simp [hfail])]
      exact relationParser_reports_paren hf ho hts _
  | @rel op s ts us l r hl hr =>
    have hrel := relationParser_reports ctx hl hr hts hs
    obtain ⟨⟨kind, s'⟩, vs, rfl, hstart⟩ := hl.starts
    simp only [hts.current_eq]
    cases kind with
    | keyword k =>
      cases k with
      | verdadeiro | falso => exact absurd hstart id
      | _ => exact hrel
    | symbol k =>
      cases k with
      | openParen =>
        -- The parenthesis is the left side's, so the first reading fails.
        obtain ⟨c₁, hleft, -⟩ := Cursor.passes_append_iff.mp hts
        change Reports _ (orElse (parenthesised nested) (relationParser ctx) c) _
        rw [orElse_eq_right (parenthesised_ne_ok h.rejects hleft hl)]
        exact hrel
      | _ => exact hrel
    | _ => exact hrel

theorem negated_answers {n : Nat} (h : AnswersNested ctx nested n) :
    Answers (negated ctx nested) (Within (n + 1) (Derives .negated)) (offence ctx)
      (tree ctx.declared) PredLevel.negated.Stops := by
  rintro c ts f c' hts ⟨hn, hf⟩ hs
  obtain ⟨signs, us, g, rfl, hg, rfl⟩ := derives_negated_iff.mp hf
  obtain ⟨c₁, hsigns, hus⟩ := Cursor.passes_append_iff.mp hts
  have hnao : on (.keyword .nao) c₁.current.kind = none := by
    rw [Option.eq_none_iff_forall_ne_some]
    exact fun u hu => hg.ne_nao hus (on_keyword_eq_some_iff.mp hu)
  rw [List.length_append] at hn
  rw [offence_withSigns]
  refine Reports.ok_bind (signs_complete rfl hsigns hnao) ?_
  refine (atom_answers h hus ⟨by omega, hg⟩ hs).bind_ok ?_
  rw [lastSpan_bind, hus.lastSpan_eq hg.ne_nil_atom, tree_withSigns]
  rfl

/-- A chain is answered at its level if its operands are at the level below. -/
theorem chain_answers {l l' : PredLevel} {op : LogicOp}
    {operator : TokenKind Name → Option LogicOp} {p : Parser Pred} {n : Nat}
    (hop : ∀ kind o, operator kind = some o ↔ connective op kind o)
    (hlevel : l.continuing = l'.continuing ++ [op]) (hstop : op ∉ l'.continuing)
    (hderives : ∀ ts f, Derives l ts f ↔ Chained (connective op) (Derives l') .logic ts f)
    (h : Answers p (Within n (Derives l')) (offence ctx) (tree ctx.declared) l'.Stops) :
    Answers (chainLeft operator binary p) (Within n (Derives l)) (offence ctx) (tree ctx.declared)
      l.Stops := by
  refine (Answers.chainLeft hop ?_ (fun _ _ _ => rfl) (fun _ _ _ => rfl) h).imp
    (fun ts f hf => ((hderives ts f).mp hf.2).within hf.1)
    fun kind hk => ⟨⟨hk.1, fun o ho => ?_⟩, ?_⟩
  · rintro kind o ⟨rfl, rfl⟩
    refine ⟨by simp [ExprLevel.Stops], fun o' ho' he => ?_⟩
    obtain rfl : o = o' := by cases o <;> cases o' <;> simp [LogicOp.keyword] at he ⊢
    exact hstop ho'
  · exact hk.2 o (by rw [hlevel]; exact List.mem_append_left _ ho)
  · rw [Option.eq_none_iff_forall_ne_some]
    intro o ho
    obtain ⟨rfl, rfl⟩ := (hop _ _).mp ho
    exact hk.2 o (by simp [hlevel]) rfl

theorem disjunction_answers {n : Nat} (h : AnswersNested ctx nested n) :
    Answers (disjunction ctx nested) (Within (n + 1) (Derives .or)) (offence ctx)
      (tree ctx.declared) PredLevel.or.Stops := by
  have hand := chain_answers andOp_eq_some_iff rfl (by decide) derives_and_iff (negated_answers h)
  have hxor := chain_answers xorOp_eq_some_iff rfl (by decide) derives_xor_iff hand
  exact chain_answers orOp_eq_some_iff rfl (by decide) derives_or_iff hxor

theorem parserUpTo_answers (bound : List (Token Name)) :
    AnswersNested ctx (parserUpTo ctx bound) bound.length := by
  refine ⟨?_, parserUpTo_rejects bound⟩
  induction bound with
  | nil =>
    rintro c ts f c' - ⟨hn, hf⟩ -
    exact absurd (List.eq_nil_of_length_eq_zero (Nat.le_zero.mp hn)) hf.ne_nil
  | cons t bound ih => exact disjunction_answers ⟨ih, parserUpTo_rejects bound⟩

/-- A predicate is read to its end or to its first offence, if the token behind it does not go on
with it. -/
theorem parser_answers (ctx : Context) : Answers (parser ctx) (Derives .or) (offence ctx)
    (tree ctx.declared) PredLevel.or.Stops :=
  fun c _ _ _ hts hf hs => (parserUpTo_answers c.ahead).answers hts ⟨hts.length_le, hf⟩ hs

end Pred

end Enquanto

import Mathlib.Computability.Language
import Mathlib.Order.CompletePartialOrder
import Enquanto.Proofs.Directness
import Enquanto.Proofs.ParserDescent

/-!
# One token of lookahead

A parser that goes wrong does so at the first token that cannot be there. What it does up to an
error depends on the tokens before the error and on the one at it, and on no others; and what it has
read so far can be completed to a phrase.

The exception is a parenthesis where a predicate starts: the first reading of it may go wrong far
behind the place at which the second one does. `Grammar.Direct` rules that out.

* `Cursor.Meets`: another cursor at the same place, with some tokens and then one more ahead;
* `Parser.Pinpoints`: a parser depends on no more than that, and its errors can be completed; there
  is a rule for each way to put parsers together.

The phrases of a parser are a `Language`, so that of two parsers in a row is a product.
-/

namespace Enquanto

open Grammar
open scoped Computability

namespace Grammar

/-- What may stand where a predicate starts. -/
def StartsDirect (kind : TokenKind Name) : Prop := kind ≠ .symbol .openParen

/-- No condition on a token. -/
def Anything (_ : TokenKind Name) : Prop := True

/-- One token of a kind. -/
def tokenOf (kind : TokenKind Name) : Language (Token Name) := {ts | ∃ s, ts = [⟨kind, s⟩]}

/-- One token that announces an item. -/
def announcing {ω : Type} (announces : TokenKind Name → Option ω) : Language (Token Name) :=
  {ts | ∃ t, ts = [t] ∧ (announces t.kind).isSome}

/-- One identifier. -/
def identifiers : Language (Token Name) := {ts | ∃ x s, ts = [identifierAt x s]}

/-- One integer. -/
def integers : Language (Token Name) := {ts | ∃ m s, ts = [integerAt m s]}

/-- One text literal. -/
def texts : Language (Token Name) := {ts | ∃ x s, ts = [⟨.text x, s⟩]}

/-- Any number of tokens of a kind. -/
def signsOf (kind : TokenKind Name) : Language (Token Name) :=
  {ts | ∃ spans : List Span, ts = spans.map fun s => ⟨kind, s⟩}

/-- The phrases of the grammar of one sort, of any form. -/
def phrases {φ : Type} (phrase : List (Token Name) → φ → Prop) : Language (Token Name) :=
  {ts | ∃ f, phrase ts f}

theorem mem_tokenOf {kind : TokenKind Name} {t : Token Name} (h : t.kind = kind) :
    [t] ∈ tokenOf kind :=
  ⟨t.span, by rw [← h]⟩

/-- Some phrase there is. -/
class Productive (L : Language (Token Name)) : Prop where
  exists_mem : ∃ ts, ts ∈ L

section
variable {L M : Language (Token Name)} {kind : TokenKind Name}

instance : Productive 1 := ⟨[], rfl⟩

instance [Productive L] [Productive M] : Productive (L * M) := by
  obtain ⟨ts, hts⟩ := Productive.exists_mem (L := L)
  obtain ⟨us, hus⟩ := Productive.exists_mem (L := M)
  exact ⟨ts ++ us, Language.append_mem_mul hts hus⟩

instance [Productive M] : Productive (L + M) := by
  obtain ⟨us, hus⟩ := Productive.exists_mem (L := M)
  exact ⟨us, .inr hus⟩

instance : Productive L∗ := ⟨[], Language.nil_mem_kstar L⟩

instance : Productive (tokenOf kind) := ⟨[⟨kind, .nowhere⟩], .nowhere, rfl⟩

instance : Productive identifiers := ⟨_, ⟨0⟩, .nowhere, rfl⟩

instance : Productive integers := ⟨_, 0, .nowhere, rfl⟩

instance : Productive texts := ⟨_, ⟨0⟩, .nowhere, rfl⟩

instance {φ : Type} {phrase : List (Token Name) → φ → Prop} :
    Productive (phrases (Listed phrase)) :=
  ⟨[], [], .none⟩

end

end Grammar

namespace Cursor

variable {c c₁ c' d : Cursor} {t : Token Name} {ts us : List (Token Name)}

/-- The cursor `d` is where `c` is, and has the tokens `ts` and then `t` ahead. -/
def Meets (c : Cursor) (ts : List (Token Name)) (t : Token Name) (d : Cursor) : Prop :=
  d.behind = c.behind ∧ ts ++ [t] <+: d.ahead

/-- What is met after more tokens is met before them. -/
theorem Meets.first (h : c.Meets (ts ++ us) c'.current d) (hus : c₁.Passes us c') :
    c.Meets ts c₁.current d := by
  refine ⟨h.1, List.IsPrefix.trans ?_ h.2⟩
  cases us with
  | nil =>
    obtain rfl := passes_nil_iff.mp hus
    simp
  | cons u us =>
    rw [hus.current_eq]
    exact ⟨us ++ [c'.current], by simp⟩

theorem Meets.current_eq (h : c.Meets ts c'.current d) (hts : c.Passes ts c') :
    d.current = c.current := by
  have hm : c.Meets ([] ++ ts) c'.current d := h
  obtain ⟨-, rest, hrest⟩ := hm.first hts
  rw [current, ← hrest]
  rfl

/-- What is met after the tokens that both have passed. -/
theorem Meets.passes {d₁ : Cursor} (h : c.Meets (ts ++ us) t d) (hts : c.Passes ts c₁)
    (hd : d.Passes ts d₁) : c₁.Meets us t d₁ := by
  refine ⟨by rw [hd.2.1, hts.2.1, h.1], ?_⟩
  have hahead := h.2
  rwa [hd.1, List.append_assoc, List.prefix_append_right_inj] at hahead

/-- The tokens ahead are direct. -/
def Direct (c : Cursor) : Prop := Grammar.Direct c.ahead

theorem Direct.passes (h : c.Direct) (hts : c.Passes ts c') : c'.Direct := by
  have h : Grammar.Direct (ts ++ c'.ahead) := hts.1 ▸ h
  exact h.right_of_append

/-- Behind a word in front of which a predicate starts is no parenthesis. -/
theorem Direct.startsDirect (h : c.Direct) (ht : c.Passes [t] c')
    (hopens : opensPredicate t.kind = true) : StartsDirect c'.current.kind := by
  have h : Grammar.Direct ([t] ++ c'.ahead) := ht.1 ▸ h
  cases hahead : c'.ahead with
  | nil =>
    rw [current_kind_eq_endOfFile hahead]
    simp [StartsDirect]
  | cons u us =>
    rw [hahead] at h
    rw [current, hahead]
    exact (List.isChain_cons_cons.mp h).1 hopens

end Cursor

namespace Parser

variable {α β ω : Type} {n : Nat} {c : Cursor} {p : Parser α} {L M : Language (Token Name)}
  {P : TokenKind Name → Prop}

/-- What a parser makes of a place depends on the tokens that it reads and on the one behind them.
What it reads is a phrase. If it goes wrong at the token behind them, they can be completed to a
phrase. -/
def PinpointsAt (c : Cursor) (p : Parser α) (L : Language (Token Name)) : Prop :=
  match p c with
  | .ok (a, c') => ∃ ts ∈ L, c.Passes ts c' ∧
      ∀ d, c.Meets ts c'.current d → ∃ d', d.Passes ts d' ∧ p d = .ok (a, d')
  | .error e => e.cause.BreaksRule ∨ ∃ ts c', c.Passes ts c' ∧ e.span = c'.current.span ∧
      (∃ us, ts ++ us ∈ L) ∧ ∀ d, c.Meets ts c'.current d → p d = .error e

/-- The same for all places with at most `n` tokens left, at a token that satisfies `P`. -/
def Pinpoints (n : Nat) (P : TokenKind Name → Prop) (p : Parser α) (L : Language (Token Name)) :
    Prop :=
  ∀ c, c.left ≤ n → c.Direct → P c.current.kind → PinpointsAt c p L

namespace PinpointsAt

theorem imp (h : PinpointsAt c p L) (himp : L ≤ M) : PinpointsAt c p M := by
  unfold PinpointsAt at h ⊢
  cases hp : p c with
  | ok r =>
    rw [hp] at h
    obtain ⟨ts, hts, hrest⟩ := h
    exact ⟨ts, himp hts, hrest⟩
  | error e =>
    rw [hp] at h
    refine h.imp_right ?_
    rintro ⟨ts, c', hpass, hspan, ⟨us, hus⟩, hd⟩
    exact ⟨ts, c', hpass, hspan, ⟨us, himp hus⟩, hd⟩

/-- A parser may be looked at once the current token is known. -/
theorem congr {q : Parser α} (h : PinpointsAt c q L)
    (hq : ∀ d, d.current = c.current → p d = q d) : PinpointsAt c p L := by
  unfold PinpointsAt at h ⊢
  rw [hq c rfl]
  cases hc : q c with
  | ok r =>
    obtain ⟨a, c'⟩ := r
    rw [hc] at h
    obtain ⟨ts, hts, hpass, hd⟩ := h
    exact ⟨ts, hts, hpass, fun d hm => hq d (hm.current_eq hpass) ▸ hd d hm⟩
  | error e =>
    rw [hc] at h
    refine h.imp_right ?_
    rintro ⟨ts, c', hpass, hspan, hus, hd⟩
    exact ⟨ts, c', hpass, hspan, hus, fun d hm => hq d (hm.current_eq hpass) ▸ hd d hm⟩

theorem current_bind {f : Token Name → Parser α} (h : PinpointsAt c (f c.current) L) :
    PinpointsAt c (current >>= f) L :=
  h.congr fun d hd => by rw [Parser.current_bind, hd]

theorem check_bind {k : TokenClass} {f : Bool → Parser α}
    (h : PinpointsAt c (f (c.current.toClass == k)) L) : PinpointsAt c (check k >>= f) L :=
  h.congr fun d hd => by rw [Parser.check_bind, hd]

theorem pure {a : α} : PinpointsAt c (pure a) 1 :=
  ⟨[], rfl, Cursor.passes_nil_iff.mpr rfl, fun d _ => ⟨d, Cursor.passes_nil_iff.mpr rfl, rfl⟩⟩

theorem throw {e : ParseError} (h : e.cause.BreaksRule) :
    PinpointsAt c (throw e : Parser α) L :=
  .inl h

/-- An unexpected token, where some phrase could start. -/
theorem unexpected {expected : String} [Productive L] :
    PinpointsAt c (unexpected expected : Parser α) L := by
  refine current_bind (f := fun token =>
    MonadExcept.throw (ParseError.unexpected expected token.toClass token.span)) ?_
  refine .inr ⟨[], c, Cursor.passes_nil_iff.mpr rfl, ?_, Productive.exists_mem, fun _ _ => rfl⟩
  unfold ParseError.unexpected
  split <;> rfl

theorem bind {f : α → Parser β} [Productive M] (hp : PinpointsAt c p L)
    (hf : ∀ a ts c', ts ∈ L → c.Passes ts c' → PinpointsAt c' (f a) M) :
    PinpointsAt c (p >>= f) (L * M) := by
  unfold PinpointsAt at hp ⊢
  cases hc : p c with
  | error e =>
    rw [hc] at hp
    rw [bind_eq_of_error hc]
    refine hp.imp_right ?_
    rintro ⟨ts, c', hpass, hspan, ⟨us, hus⟩, hd⟩
    obtain ⟨vs, hvs⟩ := Productive.exists_mem (L := M)
    refine ⟨ts, c', hpass, hspan, ⟨us ++ vs, ?_⟩, fun d hm => bind_eq_of_error (hd d hm)⟩
    rw [← List.append_assoc]
    exact Language.append_mem_mul hus hvs
  | ok r =>
    obtain ⟨a, c₁⟩ := r
    rw [hc] at hp
    obtain ⟨ts, hts, hpass, hd⟩ := hp
    have hnext := hf a ts c₁ hts hpass
    rw [bind_eq_of_ok hc]
    -- Where `p` has stopped, `f` has seen the token on which that depends.
    have hstop {us : List (Token Name)} {c' d : Cursor} (hus : c₁.Passes us c')
        (hm : c.Meets (ts ++ us) c'.current d) :
        ∃ d₁, d.Passes ts d₁ ∧ (p >>= f) d = f a d₁ ∧ c₁.Meets us c'.current d₁ := by
      obtain ⟨d₁, hd₁, hp⟩ := hd d (hm.first hus)
      exact ⟨d₁, hd₁, bind_eq_of_ok hp, hm.passes hpass hd₁⟩
    unfold PinpointsAt at hnext
    cases hr : f a c₁ with
    | error e =>
      rw [hr] at hnext
      refine hnext.imp_right ?_
      rintro ⟨us, c', hus, hspan, ⟨vs, hvs⟩, hd'⟩
      refine ⟨ts ++ us, c', hpass.append hus, hspan, ⟨vs, ?_⟩, fun d hm => ?_⟩
      · rw [List.append_assoc]
        exact Language.append_mem_mul hts hvs
      · obtain ⟨d₁, -, hbind, hm₁⟩ := hstop hus hm
        rw [hbind, hd' d₁ hm₁]
    | ok r =>
      obtain ⟨b, c'⟩ := r
      rw [hr] at hnext
      obtain ⟨us, hus, hpass', hd'⟩ := hnext
      refine ⟨ts ++ us, Language.append_mem_mul hts hus, hpass.append hpass', fun d hm => ?_⟩
      obtain ⟨d₁, hd₁, hbind, hm₁⟩ := hstop hpass' hm
      obtain ⟨d', hd₁', hf'⟩ := hd' d₁ hm₁
      exact ⟨d', hd₁.append hd₁', hbind.trans hf'⟩

/-- A token that is no end of file is stepped over. -/
theorem step {f : Unit → Parser α} (hc : c.current.isEndOfFile = false)
    (h : PinpointsAt c.advance (f ()) M) (hM : ∀ us ∈ M, c.current :: us ∈ L) :
    PinpointsAt c (advance >>= f) L := by
  have hpass : c.Passes [c.current] c.advance := Cursor.passes_current_of_not hc
  have hnext {us : List (Token Name)} {c' d : Cursor} (hus : c.advance.Passes us c')
      (hm : c.Meets ([c.current] ++ us) c'.current d) :
      d.Passes [c.current] d.advance ∧ c.advance.Meets us c'.current d.advance := by
    have hcur : d.current = c.current := hm.current_eq (hpass.append hus)
    have hd : d.Passes [c.current] d.advance := by
      rw [← hcur] at hc ⊢
      exact Cursor.passes_current_of_not hc
    exact ⟨hd, hm.passes hpass hd⟩
  unfold PinpointsAt at h ⊢
  rw [advance_bind]
  cases hr : f () c.advance with
  | error e =>
    rw [hr] at h
    refine h.imp_right ?_
    rintro ⟨us, c', hus, hspan, ⟨vs, hvs⟩, hd⟩
    refine ⟨c.current :: us, c', hpass.append hus, hspan, ⟨vs, hM _ hvs⟩, fun d hm => ?_⟩
    rw [advance_bind, hd _ (hnext hus hm).2]
  | ok r =>
    obtain ⟨a, c'⟩ := r
    rw [hr] at h
    obtain ⟨us, hus, hpass', hd⟩ := h
    refine ⟨c.current :: us, hM us hus, hpass.append hpass', fun d hm => ?_⟩
    obtain ⟨hd₁, hm₁⟩ := hnext hpass' hm
    obtain ⟨d', hd', hf⟩ := hd _ hm₁
    exact ⟨d', hd₁.append hd', by rw [advance_bind, hf]⟩

theorem lastSpan : PinpointsAt c lastSpan 1 := by
  refine ⟨[], rfl, Cursor.passes_nil_iff.mpr rfl, fun d hm => ?_⟩
  refine ⟨d, Cursor.passes_nil_iff.mpr rfl, ?_⟩
  have hspan : d.lastSpan = c.lastSpan := by rw [Cursor.lastSpan, hm.1, Cursor.lastSpan]
  exact congrArg (fun span => Except.ok (span, d)) hspan

end PinpointsAt

namespace Pinpoints

/-! ### Steps -/

section
variable {q : Parser α} {f : α → Parser β}

theorem imp (h : Pinpoints n P p L) (himp : L ≤ M) : Pinpoints n P p M :=
  fun c hleft hdirect hP => (h c hleft hdirect hP).imp himp

theorem of_anything (h : Pinpoints n Anything p L) : Pinpoints n P p L :=
  fun c hleft hdirect _ => h c hleft hdirect trivial

theorem mono (h : Pinpoints n P p L) {m : Nat} (hm : m ≤ n) : Pinpoints m P p L :=
  fun c hleft => h c (Nat.le_trans hleft hm)

theorem pure {a : α} : Pinpoints n P (pure a) 1 := fun _ _ _ _ => .pure

theorem throw {e : ParseError} (h : e.cause.BreaksRule) : Pinpoints n P (throw e : Parser α) L :=
  fun _ _ _ _ => .throw h

/-- A part that may take no token, and one behind it that needs a condition on its first token. -/
theorem andThenAt {Q : TokenKind Name → Prop} [Productive M] (hp : Pinpoints n P p L)
    (hQ : ∀ (c : Cursor) ts (c' : Cursor), c.Direct → P c.current.kind → ts ∈ L →
      c.Passes ts c' → Q c'.current.kind)
    (hf : ∀ a, Pinpoints n Q (f a) M) : Pinpoints n P (p >>= f) (L * M) := by
  refine fun c hleft hdirect hP => (hp c hleft hdirect hP).bind fun a ts c' hts hpass => ?_
  have hless := hpass.left_eq
  exact hf a c' (by omega) (hdirect.passes hpass) (hQ c ts c' hdirect hP hts hpass)

/-- A part that may take no token, and one behind it. -/
theorem andThen [Productive M] (hp : Pinpoints n P p L)
    (hf : ∀ a, Pinpoints n Anything (f a) M) : Pinpoints n P (p >>= f) (L * M) :=
  hp.andThenAt (fun _ _ _ _ _ _ _ => trivial) hf

/-- A part that takes a token, and one behind it with fewer tokens left. -/
theorem first [Productive M] (hL : [] ∉ L) (hp : Pinpoints n P p L)
    (hf : ∀ a, 1 ≤ n → Pinpoints (n - 1) Anything (f a) M) :
    Pinpoints n P (p >>= f) (L * M) := by
  refine fun c hleft hdirect hP => (hp c hleft hdirect hP).bind fun a ts c' hts hpass => ?_
  have hless := hpass.left_eq
  have hne : ts.length ≠ 0 := fun h => hL (List.eq_nil_of_length_eq_zero h ▸ hts)
  exact hf a (by omega) c' (by omega) (hdirect.passes hpass) trivial

/-- A part that takes no token, and ends the phrase. -/
theorem thenPure {γ : Type} {a : α → γ} (hp : Pinpoints n P p L) :
    Pinpoints n P (p >>= fun x => Pure.pure (a x)) L := by
  have h : Pinpoints n P (p >>= fun x => Pure.pure (a x)) (L * 1) :=
    hp.andThen fun _ => .pure
  rwa [mul_one] at h

theorem map (hp : Pinpoints n P p L) (f : α → β) : Pinpoints n P (f <$> p) L := by
  rw [← bind_pure_comp]
  exact hp.thenPure

theorem ite {b : Bool} (hp : Pinpoints n P p L) (hq : Pinpoints n P q L) :
    Pinpoints n P (if b then p else q) L := by
  cases b
  · exact hq
  · exact hp

end

/-! ### Tokens -/

theorem check_bind {k : TokenClass} {f : Bool → Parser α} (h : ∀ b, Pinpoints n P (f b) L) :
    Pinpoints n P (check k >>= f) L :=
  fun c hleft hdirect hP => (h _ c hleft hdirect hP).check_bind

theorem lastSpan : Pinpoints n P lastSpan 1 := fun _ _ _ _ => .lastSpan

theorem spanFrom (start : Span) : Pinpoints n P (spanFrom start) 1 := lastSpan.thenPure

theorem literal (negative : Bool) (magnitude : UInt32) (span : Span) :
    Pinpoints n P (liftM (literal negative magnitude span)) 1 := by
  unfold Parser.literal
  cases Decimal.fit? (if negative then -(magnitude.toNat : Int) else magnitude.toNat) with
  | some value => exact pure
  | none => exact throw trivial

/-- A token that must be of a class. -/
theorem expectAs {k : TokenClass} {expected : String} [Productive L] (hk : k ≠ .endOfFile)
    (hL : ∀ t, t.toClass = k → [t] ∈ L) :
    Pinpoints n P (expectAs k expected) L := by
  refine fun c _ _ _ => .current_bind ?_
  split
  · next h =>
    refine .step (M := 1) (by simpa [Token.isEndOfFile, h] using hk) .pure ?_
    rintro us rfl
    exact hL _ h
  · exact .unexpected

theorem keywordAs (k : Keyword) (expected : String) :
    Pinpoints n P (Parser.expectAs (.keyword k) expected) (tokenOf (.keyword k)) := by
  exact expectAs (by simp) fun t ht => mem_tokenOf (TokenKind.toClass_eq_keyword_iff.mp ht)

theorem symbolAs (k : Symbol) (expected : String) :
    Pinpoints n P (Parser.expectAs (.symbol k) expected) (tokenOf (.symbol k)) := by
  exact expectAs (by simp) fun t ht => mem_tokenOf (TokenKind.toClass_eq_symbol_iff.mp ht)

theorem keyword (k : Keyword) : Pinpoints n P (keyword k) (tokenOf (.keyword k)) := keywordAs k _

theorem symbol (k : Symbol) : Pinpoints n P (symbol k) (tokenOf (.symbol k)) := symbolAs k _

theorem identifier : Pinpoints n P identifier identifiers := by
  refine fun c _ _ _ => .current_bind ?_
  cases hk : c.current.kind with
  | identifier x =>
    refine .step (M := 1) (Tracks.isEndOfFile_of_kind (by simp [hk])) .pure ?_
    rintro us rfl
    exact ⟨x, c.current.span, by rw [identifierAt, ← hk]⟩
  | _ => exact .unexpected

theorem integer : Pinpoints n P integer integers := by
  refine fun c _ _ _ => .current_bind ?_
  cases hk : c.current.kind with
  | integer m =>
    refine .step (M := 1) (Tracks.isEndOfFile_of_kind (by simp [hk])) .pure ?_
    rintro us rfl
    exact ⟨m, c.current.span, by rw [integerAt, ← hk]⟩
  | _ => exact .unexpected

/-- The end of file is not stepped over. -/
theorem endOfFile {expected : String} : Pinpoints n P (Parser.expectAs .endOfFile expected) 1 := by
  refine fun c _ _ _ => .current_bind ?_
  split
  · next h =>
    have hstop (d : Cursor) (hd : d.current = c.current) :
        (Parser.advance >>= fun _ => Pure.pure c.current.span : Parser Span) d =
          (Pure.pure c.current.span : Parser Span) d := by
      rw [advance_bind, Cursor.advance_eq_self (by simpa [Token.isEndOfFile, hd] using h)]
    exact PinpointsAt.pure.congr hstop
  · exact .unexpected

theorem textLiteral : Pinpoints n P textLiteral texts := by
  refine fun c _ _ _ => .current_bind ?_
  cases hk : c.current.kind with
  | text x =>
    refine .step (M := 1) (Tracks.isEndOfFile_of_kind (by simp [hk])) .pure ?_
    rintro us rfl
    exact ⟨x, c.current.span, by rw [← hk]⟩
  | _ => exact .unexpected

/-! ### Combinations -/

/-- A token that is no end of file is stepped over, with fewer tokens left then. -/
theorem stepAt {Q : TokenKind Name → Prop} {f : Unit → Parser α} {kind : TokenKind Name}
    (hk : c.current.kind = kind) (hne : kind ≠ .endOfFile) (hleft : c.left ≤ n)
    (hdirect : c.Direct) (hQ : Q c.advance.current.kind) (hf : 1 ≤ n → Pinpoints (n - 1) Q (f ()) M)
    (hM : ∀ s, ∀ us ∈ M, ⟨kind, s⟩ :: us ∈ L) : PinpointsAt c (Parser.advance >>= f) L := by
  subst hk
  have hpass := passes_current hne
  have hless := hpass.left_eq
  rw [List.length_singleton] at hless
  exact .step (Tracks.isEndOfFile_of_kind hne)
    (hf (by omega) c.advance (by omega) (hdirect.passes hpass) hQ) (hM c.current.span)

/-- A parser that looks at the token after the current one, and steps over the current one in both
cases. -/
theorem nextAt {k : TokenClass} {f g : Unit → Parser α} {N : Language (Token Name)}
    {kind : TokenKind Name} (hk : c.current.kind = kind) (hne : kind ≠ .endOfFile)
    (hleft : c.left ≤ n) (hdirect : c.Direct)
    (hf : 1 ≤ n → Pinpoints (n - 1) Anything (f ()) M) (hM : ∀ s, ∀ us ∈ M, ⟨kind, s⟩ :: us ∈ L)
    (hg : 1 ≤ n → Pinpoints (n - 1) Anything (g ()) N) (hN : ∀ s, ∀ us ∈ N, ⟨kind, s⟩ :: us ∈ L) :
    PinpointsAt c (get >>= fun s => if s.nextClass = k then Parser.advance >>= f
      else Parser.advance >>= g) L := by
  have hlook : PinpointsAt c (Parser.advance >>= fun _ => Parser.current >>= fun t =>
      if t.toClass = k then f () else g ()) L := by
    refine stepAt (Q := Anything) (M := M + N) hk hne hleft hdirect trivial (fun hn => ?_) ?_
    · refine fun c hleft hdirect hQ => .current_bind ?_
      split
      · exact (hf hn c hleft hdirect hQ).imp le_sup_left
      · exact (hg hn c hleft hdirect hQ).imp le_sup_right
    · exact fun s us hus => hus.elim (hM s us) (hN s us)
  refine hlook.congr fun d hd => ?_
  have hnext : d.nextClass = d.advance.current.toClass :=
    (passes_current (by rwa [hd, hk])).nextClass_eq
  simp only [get_bind, hnext, advance_bind, Parser.current_bind]
  split
  · rw [advance_bind]
  · rw [advance_bind]

theorem nil_notMem_tokenOf (kind : TokenKind Name) : [] ∉ tokenOf kind := by
  rintro ⟨s, hs⟩
  cases hs

/-- A predicate behind a word that opens it. -/
theorem afterWord {k : Keyword} {f : Span → Parser α} [Productive M]
    (hk : opensPredicate (.keyword k) = true)
    (hf : ∀ s, 1 ≤ n → Pinpoints (n - 1) StartsDirect (f s) M) :
    Pinpoints n P (Parser.keyword k >>= f) (tokenOf (.keyword k) * M) := by
  refine fun c hleft hdirect hP => ((keyword (n := n) k) c hleft hdirect hP).bind ?_
  rintro s _ c' ⟨s', rfl⟩ hpass
  have hless := hpass.left_eq
  rw [List.length_singleton] at hless
  exact hf s (by omega) c' (by omega) (hdirect.passes hpass) (hdirect.startsDirect hpass hk)

theorem eat_bind {k : TokenClass} {kind : TokenKind Name} (hk : k ≠ .endOfFile)
    (hkind : ∀ t : Token Name, t.toClass = k → t.kind = kind) {f : Bool → Parser α}
    (ht : 1 ≤ n → Pinpoints (n - 1) Anything (f true) L) (hf : Pinpoints n P (f false) M) :
    Pinpoints n P (eat k >>= f) (tokenOf kind * L + M) := by
  intro c hleft hdirect hP
  have heq (d : Cursor) : (eat k >>= f) d =
      (Parser.current >>= fun t => if t.toClass = k then Parser.advance >>= fun _ => f true
        else f false) d := by
    rw [Parser.eat_bind, Parser.current_bind]
    split <;> rfl
  refine PinpointsAt.congr (.current_bind ?_) fun d _ => heq d
  split
  · next hc =>
    have hne : c.current.kind ≠ .endOfFile := fun h => hk (by rw [← hc, Token.toClass, h]; rfl)
    refine stepAt (f := fun _ => f true) (hkind _ hc) (hkind _ hc ▸ hne) hleft hdirect trivial ht ?_
    intro s us hus
    have hs : [⟨kind, s⟩] ∈ tokenOf kind := ⟨s, rfl⟩
    exact .inl (Language.append_mem_mul hs hus)
  · exact (hf c hleft hdirect hP).imp le_sup_right

section
variable {announces : TokenKind Name → Option ω}

theorem cons_mem_kstar {t : Token Name} {us vs : List (Token Name)}
    (ht : (announces t.kind).isSome) (hus : us ∈ M)
    (hvs : vs ∈ (announcing announces * M)∗) :
    t :: (us ++ vs) ∈ (announcing announces * M)∗ := by
  have ht : [t] ∈ announcing announces := ⟨t, rfl, ht⟩
  have hmore : t :: (us ++ vs) ∈ (announcing announces * M) * (announcing announces * M)∗ :=
    Language.append_mem_mul (Language.append_mem_mul ht hus) hvs
  exact Set.mem_of_mem_of_subset hmore (mul_kstar_le_kstar (a := announcing announces * M))

/-- Items that are read one after the other. `hP` is what holds at the first token of an item. -/
theorem many {item : ω → Parser α} {Q : TokenKind Name → Prop} (hann : announces .endOfFile = none)
    (htracks : ∀ b n, Tracks 0 n (item b) (item b))
    (hQ : ∀ c : Cursor, c.Direct → (announces c.current.kind).isSome → Q c.advance.current.kind)
    (h : ∀ b, 1 ≤ n → Pinpoints (n - 1) Q (item b) M) :
    Pinpoints n P (many announces item) (announcing announces * M)∗ := by
  induction n generalizing P with
  | zero =>
    intro c hleft _ _
    rw [many_eq hann htracks]
    refine .current_bind ?_
    rw [Cursor.kind_current_eq (Nat.le_zero.mp hleft), hann]
    exact PinpointsAt.pure.imp one_le_kstar
  | succ n ih =>
    intro c hleft hdirect _
    rw [many_eq hann htracks]
    refine .current_bind ?_
    cases ha : announces c.current.kind with
    | none => exact PinpointsAt.pure.imp one_le_kstar
    | some b =>
      have hne : c.current.kind ≠ .endOfFile := by
        intro hk
        rw [hk, hann] at ha
        cases ha
      have hrest : Pinpoints n Anything (Parser.many announces item) _ :=
        ih (P := Anything) fun b hn => (h b (by omega)).mono (Nat.sub_le n 1)
      have hnext : Pinpoints n Q (item b >>= fun a => Parser.many announces item >>= fun as =>
          Pure.pure (a :: as)) (M * (announcing announces * M)∗) :=
        (h b (by omega)).andThen fun _ => hrest.thenPure
      refine stepAt rfl hne hleft hdirect (hQ c hdirect (by simp [ha])) (fun _ => hnext) ?_
      rintro s _ ⟨us, hus, vs, hvs, rfl⟩
      exact cons_mem_kstar (by simp [ha]) hus hvs

/-- Announced phrases one after the other are a repetition of the grammar. -/
theorem kstar_le_phrases {φ : Type} {mark : TokenKind Name → ω → Prop}
    {phrase : List (Token Name) → φ → Prop}
    (hmark : ∀ kind b, announces kind = some b → mark kind b) :
    (announcing announces * phrases phrase)∗ ≤ phrases (Many mark phrase) := by
  intro ts hts
  obtain ⟨parts, rfl, hparts⟩ := Language.mem_kstar.mp hts
  clear hts
  induction parts with
  | nil => exact ⟨[], .nil⟩
  | cons part parts ih =>
    rw [List.forall_mem_cons] at hparts
    obtain ⟨rest, hrest⟩ := ih hparts.2
    obtain ⟨_, ⟨t, rfl, ht⟩, us, ⟨a, ha⟩, rfl⟩ := hparts.1
    obtain ⟨b, hb⟩ := Option.isSome_iff_exists.mp ht
    exact ⟨(b, a) :: rest, by simpa using Many.cons (hmark _ _ hb) ha hrest⟩

end

/-- Signs of one kind. -/
theorem signs {k : TokenClass} {kind : TokenKind Name} (hk : k ≠ .endOfFile)
    (hkind : ∀ other u, on k other = some u → other = kind) :
    Pinpoints n P (Parser.many (on k) fun _ => Parser.lastSpan) (signsOf kind) := by
  have hmany : Pinpoints n P (Parser.many (on k) fun _ => Parser.lastSpan)
      (announcing (on k) * 1)∗ :=
    many (Q := Anything) (on_endOfFile hk) (fun _ _ => Tracks.lastSpan) (fun _ _ _ => trivial)
      fun _ _ => lastSpan
  refine hmany.imp fun ts hts => ?_
  rw [mul_one] at hts
  obtain ⟨parts, rfl, hparts⟩ := Language.mem_kstar.mp hts
  clear hts
  induction parts with
  | nil => exact ⟨[], rfl⟩
  | cons part parts ih =>
    rw [List.forall_mem_cons] at hparts
    obtain ⟨spans, hspans⟩ := ih hparts.2
    obtain ⟨⟨other, s⟩, rfl, ht⟩ := hparts.1
    obtain ⟨u, hu⟩ := Option.isSome_iff_exists.mp ht
    obtain rfl := hkind _ _ hu
    exact ⟨s :: spans, by rw [List.flatten_cons, hspans]; rfl⟩

section
variable {φ : Type} {phrase : List (Token Name) → φ → Prop} {item : Parser α}

theorem sepBy {k : Symbol} (htracks : ∀ n, Tracks 1 n item item)
    (h : Pinpoints n Anything item (phrases phrase)) :
    Pinpoints n P (sepBy (.symbol k) item) (phrases (SepBy (.symbol k) phrase)) := by
  have hrest : Pinpoints n Anything (Parser.many (on (.symbol k)) fun _ => item)
      (announcing (on (.symbol k)) * phrases phrase)∗ :=
    many (Q := Anything) (on_endOfFile (by simp))
      (fun _ n => (htracks n).mono (Nat.zero_le 1) (Nat.le_refl n)) (fun _ _ _ => trivial)
      fun _ _ => h.mono (Nat.sub_le n 1)
  refine (h.of_anything.andThen fun _ => hrest.thenPure).imp ?_
  rintro _ ⟨us, ⟨a, ha⟩, vs, hvs, rfl⟩
  obtain ⟨rest, hrest⟩ := kstar_le_phrases (fun _ _ => on_symbol_eq_some_iff.mp) hvs
  exact ⟨_, .intro ha hrest⟩

/-- A list with commas that may be empty. -/
theorem listed {b : Bool} (htracks : ∀ n, Tracks 1 n item item)
    (h : Pinpoints n Anything item (phrases phrase)) :
    Pinpoints n P (if b then Pure.pure [] else Parser.sepBy (.symbol .comma) item : Parser (List α))
      (phrases (Listed phrase)) := by
  refine .ite (pure.imp ?_) ((sepBy htracks h).imp ?_)
  · rintro _ rfl
    exact ⟨[], .none⟩
  · rintro ts ⟨as, has⟩
    exact ⟨as, .some has⟩

theorem chainLeft {operator : TokenKind Name → Option ω} {mark : TokenKind Name → ω → Prop}
    {join : ω → α → α → α} {form : ω → φ → φ → φ} (hend : operator .endOfFile = none)
    (hmark : ∀ kind op, operator kind = some op → mark kind op)
    (hP : ∀ c : Cursor, c.Direct → (operator c.current.kind).isSome → P c.advance.current.kind)
    (htracks : ∀ n, Tracks 1 n item item) (h : Pinpoints n P item (phrases phrase)) :
    Pinpoints n P (chainLeft operator join item) (phrases (Chained mark phrase form)) := by
  have hrest : Pinpoints n Anything (Parser.many operator fun op => do return (op, ← item))
      (announcing operator * phrases phrase)∗ :=
    many hend (fun _ n => ((htracks n).mono (Nat.zero_le 1) (Nat.le_refl n)).andThen fun _ => .pure)
      hP fun _ _ => (h.mono (Nat.sub_le n 1)).thenPure
  refine (h.andThen fun _ => hrest.thenPure).imp ?_
  rintro _ ⟨us, ⟨a, ha⟩, vs, hvs, rfl⟩
  obtain ⟨rest, hrest⟩ := kstar_le_phrases hmark hvs
  exact ⟨_, us, vs, a, rest, rfl, ha, hrest, rfl⟩

end

end Pinpoints

end Parser

end Enquanto

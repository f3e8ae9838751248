import Enquanto.Program.Parser
import Enquanto.Proofs.ParserSteps

/-!
# Spans of errors

The span of an error is that of a token, or it runs from the span of one token to that of another.
So whatever holds of the spans of all tokens and of the span that has no place, and is kept by
`Span.merge`, holds of the span of every error.

* `Span.Closed`: what is kept in this way;
* `Parser.Locates`: the errors of a parser have such spans, and its results satisfy a condition;
  there is a rule for each way to put parsers together;
* `Program.span_of_parse_error`: the errors of `Program.parse`.
-/

namespace Enquanto

/-- The condition holds of the span without a place, and of all spans from one that satisfies it to
another. -/
structure Span.Closed (P : Span → Prop) : Prop where
  nowhere : P .nowhere
  merge : ∀ {s t}, P s → P t → P (s.merge t)

namespace Cursor

variable {P : Span → Prop} {c : Cursor}

/-- The spans of all tokens satisfy a condition. -/
def AllSpans (P : Span → Prop) (c : Cursor) : Prop := ∀ t ∈ c.tokens, P t.span

theorem AllSpans.advance (h : c.AllSpans P) : c.advance.AllSpans P := by
  unfold AllSpans
  rwa [tokens_advance]

theorem AllSpans.lastSpan (h : c.AllSpans P) (hP : Span.Closed P) : P c.lastSpan := by
  obtain ⟨_ | ⟨t, behind⟩, ahead⟩ := c
  · exact hP.nowhere
  · exact h t (by simp [tokens])

theorem AllSpans.current (h : c.AllSpans P) (hP : Span.Closed P) : P c.current.span := by
  obtain ⟨behind, _ | ⟨t, ahead⟩⟩ := c
  · unfold Cursor.current ending
    cases behind with
    | nil => exact hP.nowhere
    | cons t behind =>
      simp only
      split
      · exact h t (by simp [tokens])
      · exact hP.nowhere
  · exact h t (by simp [tokens])

end Cursor

namespace Parser

variable {α β ω : Type} {P : Span → Prop} {Q : α → Prop} {R : β → Prop}

/-- If the spans of all tokens satisfy `P`, then so does the span of an error, and the result
satisfies `Q`. -/
def Locates (P : Span → Prop) (Q : α → Prop) (p : Parser α) : Prop :=
  ∀ c, c.AllSpans P →
    match p c with
    | .ok (a, c') => Q a ∧ c'.AllSpans P
    | .error e => P e.span

namespace Locates

/-! ## Steps -/

theorem pure {a : α} (h : Q a) : Locates P Q (pure a) := fun _ hc => ⟨h, hc⟩

theorem bind {p : Parser α} {f : α → Parser β} (hp : Locates P Q p)
    (hf : ∀ a, Q a → Locates P R (f a)) : Locates P R (p >>= f) := by
  intro c hc
  have h := hp c hc
  cases hr : p c with
  | error e =>
    rw [hr] at h
    rw [bind_eq_of_error hr]
    exact h
  | ok r =>
    obtain ⟨a, c₁⟩ := r
    rw [hr] at h
    rw [bind_eq_of_ok hr]
    exact hf a h.1 c₁ h.2

/-- A part of which only the errors matter. -/
theorem andThen {p : Parser α} {f : α → Parser β} (hp : Locates P (fun _ => True) p)
    (hf : ∀ a, Locates P R (f a)) : Locates P R (p >>= f) :=
  hp.bind fun a _ => hf a

theorem map {p : Parser α} {f : α → β} (hp : Locates P (fun _ => True) p) :
    Locates P (fun _ => True) (f <$> p) := by
  rw [← bind_pure_comp]
  exact hp.andThen fun _ => .pure trivial

theorem ite {b : Bool} {p q : Parser α} (hp : Locates P Q p) (hq : Locates P Q q) :
    Locates P Q (if b then p else q) := by
  cases b
  · exact hq
  · exact hp

theorem throw {e : ParseError} (h : P e.span) : Locates P Q (throw e) := fun _ _ => h

theorem advance : Locates P (fun _ => True) advance := fun _ hc => ⟨trivial, hc.advance⟩

theorem get : Locates P (fun _ => True) (get : Parser Cursor) := fun _ hc => ⟨trivial, hc⟩

theorem check (k : TokenClass) : Locates P (fun _ => True) (check k) := fun _ hc => ⟨trivial, hc⟩

theorem eat (k : TokenClass) : Locates P (fun _ => True) (eat k) := by
  refine (check k).andThen fun b => ?_
  split
  · exact advance.andThen fun _ => .pure trivial
  · exact .pure trivial

section
variable (hP : Span.Closed P)
include hP

theorem current : Locates P (fun t => P t.span) current := fun _ hc => ⟨hc.current hP, hc⟩

theorem lastSpan : Locates P P lastSpan := fun _ hc => ⟨hc.lastSpan hP, hc⟩

theorem spanFrom {start : Span} (h : P start) : Locates P P (spanFrom start) :=
  (lastSpan hP).bind fun _ hs => .pure (hP.merge h hs)

theorem unexpected (expected : String) : Locates P Q (unexpected expected : Parser α) := by
  refine (current hP).bind fun t ht => .throw ?_
  unfold ParseError.unexpected
  split
  · exact ht
  · exact ht

theorem expectAs (k : TokenClass) (expected : String) : Locates P P (expectAs k expected) := by
  refine (current hP).bind fun t ht => ?_
  split
  · exact advance.andThen fun _ => .pure ht
  · exact unexpected hP expected

theorem keyword (k : Keyword) : Locates P P (keyword k) := expectAs hP _ _

theorem symbol (s : Symbol) : Locates P P (symbol s) := expectAs hP _ _

theorem identifier : Locates P (fun _ => True) identifier := by
  refine (current hP).bind fun t ht => ?_
  split
  · exact advance.andThen fun _ => .pure trivial
  · exact unexpected hP _

theorem integer : Locates P (fun _ => True) integer := by
  refine (current hP).bind fun t ht => ?_
  split
  · exact advance.andThen fun _ => .pure trivial
  · exact unexpected hP _

theorem textLiteral : Locates P (fun _ => True) textLiteral := by
  refine (current hP).bind fun t ht => ?_
  split
  · exact advance.andThen fun _ => .pure trivial
  · exact unexpected hP _

end

theorem literal (negative : Bool) (magnitude : UInt32) {span : Span} (h : P span) :
    Locates P (fun _ => True) (liftM (literal negative magnitude span)) := by
  intro c hc
  unfold Parser.literal
  cases Decimal.fit? (if negative then -(magnitude.toNat : Int) else magnitude.toNat) with
  | some value => exact ⟨trivial, hc⟩
  | none => exact h

/-! ## Combinations -/

section
variable (hP : Span.Closed P)
include hP

theorem manyUpTo {announces : TokenKind Name → Option β} {item : β → Parser α}
    (h : ∀ b, Locates P Q (item b)) (bound : List (Token Name)) :
    Locates P (fun as => ∀ a ∈ as, Q a) (manyUpTo announces item bound) := by
  induction bound with
  | nil => exact .pure (by simp)
  | cons t bound ih =>
    refine (current hP).bind fun t _ => ?_
    split
    · exact .pure (by simp)
    · refine advance.andThen fun _ => (h _).bind fun a ha => ih.bind fun as has => .pure ?_
      exact List.forall_mem_cons.mpr ⟨ha, has⟩

theorem many {announces : TokenKind Name → Option β} {item : β → Parser α}
    (h : ∀ b, Locates P Q (item b)) :
    Locates P (fun as => ∀ a ∈ as, Q a) (many announces item) :=
  get.andThen fun _ => manyUpTo hP h _

theorem sepBy {k : TokenClass} {item : Parser α} (h : Locates P (fun _ => True) item) :
    Locates P (fun _ => True) (sepBy k item) :=
  h.andThen fun _ => (many hP fun _ => h).bind fun _ _ => .pure trivial

theorem chainLeft {operator : TokenKind Name → Option ω} {join : ω → α → α → α}
    {operand : Parser α} (h : Locates P (fun _ => True) operand) :
    Locates P (fun _ => True) (chainLeft operator join operand) :=
  h.andThen fun _ => (many (Q := fun _ => True) hP fun _ => h.andThen fun _ => .pure trivial).bind
    fun _ _ => .pure trivial

end

theorem orElse {first second : Parser α} (h : Locates P Q first) (h' : Locates P Q second) :
    Locates P Q (orElse first second) := by
  intro c hc
  have hfirst := h c hc
  unfold Parser.orElse
  cases hr : first c with
  | ok r =>
    rw [hr] at hfirst
    exact hfirst
  | error e => exact h' c hc

end Locates

end Parser

open Enquanto.Parser

section
variable {P : Span → Prop} (hP : Span.Closed P) (ctx : Context)
include hP

/-! ## Expressions -/

namespace Expr

variable {nested : Parser Expr}

theorem callParser_locates (hnested : Locates P (fun _ => True) nested) (name : Name) {start : Span}
    (hstart : P start) : Locates P (fun _ => True) (callParser ctx nested name start) := by
  refine Locates.advance.andThen fun _ => ?_
  split
  · exact .throw hstart
  · refine (Locates.symbol hP _).bind fun _ _ => (Locates.check _).andThen fun b => ?_
    rw [bind_ite]
    refine (Locates.ite (.pure trivial) (.sepBy hP hnested)).andThen fun args => ?_
    refine (Locates.expectAs hP _ _).bind fun _ _ => ?_
    refine (Locates.spanFrom hP hstart).bind fun s hs => ?_
    split
    · exact .pure trivial
    · exact .throw hs

theorem operand_locates (hnested : Locates P (fun _ => True) nested) :
    Locates P (fun _ => True) (operand ctx nested) := by
  refine (Locates.current hP).bind fun t ht => ?_
  obtain ⟨kind, s⟩ := t
  cases kind with
  | integer m =>
    exact Locates.advance.andThen fun _ => (Locates.literal _ _ ht).andThen fun _ => .pure trivial
  | identifier x =>
    refine Locates.get.andThen fun c => ?_
    split
    · exact callParser_locates hP ctx hnested _ ht
    · exact Locates.advance.andThen fun _ => .pure trivial
  | keyword k =>
    cases k with
    | leia => exact Locates.advance.andThen fun _ => .pure trivial
    | _ => exact .unexpected hP _
  | symbol k =>
    cases k with
    | openParen =>
      exact Locates.advance.andThen fun _ => hnested.andThen fun _ =>
        (Locates.symbol hP _).bind fun _ _ => .pure trivial
    | _ => exact .unexpected hP _
  | _ => exact .unexpected hP _

theorem signed_locates (hnested : Locates P (fun _ => True) nested) :
    Locates P (fun _ => True) (signed ctx nested) := by
  refine (Locates.many hP fun _ => .lastSpan hP).bind fun signs _ => ?_
  refine (Locates.current hP).bind fun t ht => ?_
  have hend (signs : List Span) (inner : Expr) : Locates P (fun _ => True) (do
      let stop ← Parser.lastSpan
      return signs.foldr (fun sign e => Expr.neg e (sign.merge stop)) inner) :=
    (Locates.lastSpan hP).bind fun _ _ => .pure trivial
  have hoperand := operand_locates hP ctx hnested
  split
  · split
    · exact Locates.advance.andThen fun _ => hend _ _
    · exact hoperand.andThen fun _ => hend _ _
  · exact hoperand.andThen fun _ => hend _ _

theorem parserUpTo_locates (bound : List (Token Name)) :
    Locates P (fun _ => True) (parserUpTo ctx bound) := by
  induction bound with
  | nil => exact .unexpected hP _
  | cons _ bound ih =>
    exact .chainLeft hP (.chainLeft hP (.chainLeft hP (signed_locates hP ctx ih)))

theorem parser_locates : Locates P (fun _ => True) (parser ctx) :=
  Locates.get.andThen fun _ => parserUpTo_locates hP ctx _

end Expr

/-! ## Predicates -/

namespace Pred

variable {nested : Parser Pred}

theorem relationParser_locates : Locates P (fun _ => True) (relationParser ctx) := by
  refine (Expr.parser_locates hP ctx).andThen fun _ => (Locates.current hP).bind fun _ _ => ?_
  split
  · exact .unexpected hP _
  · exact Locates.advance.andThen fun _ => (Expr.parser_locates hP ctx).andThen fun _ =>
      .pure trivial

theorem atom_locates (hnested : Locates P (fun _ => True) nested) :
    Locates P (fun _ => True) (atom ctx nested) := by
  have hrelation := relationParser_locates hP ctx
  refine (Locates.current hP).bind fun _ _ => ?_
  split
  · exact Locates.advance.andThen fun _ => .pure trivial
  · exact Locates.advance.andThen fun _ => .pure trivial
  · refine Locates.orElse ?_ hrelation
    exact (Locates.symbol hP _).bind fun _ _ => hnested.andThen fun _ =>
      (Locates.symbol hP _).bind fun _ _ => .pure trivial
  · exact hrelation

theorem negated_locates (hnested : Locates P (fun _ => True) nested) :
    Locates P (fun _ => True) (negated ctx nested) :=
  (Locates.many hP fun _ => .lastSpan hP).bind fun _ _ => (atom_locates hP ctx hnested).andThen
    fun _ => (Locates.lastSpan hP).bind fun _ _ => .pure trivial

theorem parserUpTo_locates (bound : List (Token Name)) :
    Locates P (fun _ => True) (parserUpTo ctx bound) := by
  induction bound with
  | nil => exact .unexpected hP _
  | cons _ bound ih =>
    exact .chainLeft hP (.chainLeft hP (.chainLeft hP (negated_locates hP ctx ih)))

theorem parser_locates : Locates P (fun _ => True) (parser ctx) :=
  Locates.get.andThen fun _ => parserUpTo_locates hP ctx _

end Pred

/-! ## Commands -/

namespace Command

variable {nested : Parser Command}

theorem hereSpan_locates : Locates P (fun _ => True) hereSpan :=
  (Locates.lastSpan hP).bind fun _ _ => .pure trivial

theorem assignParser_locates : Locates P (fun _ => True) (assignParser ctx) :=
  (Locates.identifier hP).andThen fun _ => (Locates.symbol hP _).bind fun _ _ =>
    (Expr.parser_locates hP ctx).andThen fun _ => .pure trivial

theorem blockParser_locates (hnested : Locates P (fun _ => True) nested) :
    Locates P (fun _ => True) (blockParser nested) :=
  (Locates.symbol hP _).bind fun _ _ => (Locates.sepBy hP hnested).andThen fun _ =>
    (Locates.expectAs hP _ _).bind fun _ _ => .pure trivial

theorem branchParser_locates (hnested : Locates P (fun _ => True) nested) :
    Locates P (fun _ => True) (branchParser ctx nested) :=
  (Pred.parser_locates hP ctx).andThen fun _ => (Locates.keyword hP _).bind fun _ _ =>
    hnested.andThen fun _ => .pure trivial

theorem condParser_locates (hnested : Locates P (fun _ => True) nested) :
    Locates P (fun _ => True) (condParser ctx nested) := by
  have hbranch := branchParser_locates hP ctx hnested
  refine (Locates.keyword hP _).bind fun _ _ => hbranch.andThen fun _ => ?_
  refine (Locates.many hP fun _ => hbranch).bind fun _ _ => (Locates.eat _).andThen fun b => ?_
  rw [bind_ite]
  exact (Locates.ite hnested (hereSpan_locates hP).map).andThen fun _ => .pure trivial

theorem loopParser_locates (hnested : Locates P (fun _ => True) nested) :
    Locates P (fun _ => True) (loopParser ctx nested) :=
  (Locates.keyword hP _).bind fun _ _ => (Pred.parser_locates hP ctx).andThen fun _ =>
    (Locates.keyword hP _).bind fun _ _ => hnested.andThen fun _ => .pure trivial

theorem countParser_locates (hnested : Locates P (fun _ => True) nested) :
    Locates P (fun _ => True) (countParser ctx nested) := by
  have hexpr := Expr.parser_locates hP ctx
  refine (Locates.keyword hP _).bind fun _ _ => (Locates.identifier hP).andThen fun _ => ?_
  refine (Locates.keyword hP _).bind fun _ _ => hexpr.andThen fun _ => ?_
  refine (Locates.keyword hP _).bind fun _ _ => hexpr.andThen fun _ => ?_
  refine (Locates.eat _).andThen fun b => ?_
  rw [bind_ite]
  refine (Locates.ite hexpr (hereSpan_locates hP).map).andThen fun _ => ?_
  exact (Locates.keyword hP _).bind fun _ _ => hnested.andThen fun _ => .pure trivial

theorem caseParser_locates (hnested : Locates P (fun _ => True) nested) :
    Locates P (fun _ => True) (caseParser nested) := by
  refine (Locates.current hP).bind fun t ht => (Locates.eat _).andThen fun _ => ?_
  refine (Locates.integer hP).andThen fun _ => (Locates.spanFrom hP ht).bind fun _ hs => ?_
  exact (Locates.literal _ _ hs).andThen fun _ => (Locates.symbol hP _).bind fun _ _ =>
    hnested.andThen fun _ => .pure trivial

theorem switchParser_locates (hnested : Locates P (fun _ => True) nested) :
    Locates P (fun _ => True) (switchParser ctx nested) := by
  refine (Locates.keyword hP _).bind fun _ _ => (Expr.parser_locates hP ctx).andThen fun _ => ?_
  refine (Locates.many hP fun _ => caseParser_locates hP hnested).bind fun _ _ => ?_
  exact (Locates.expectAs hP _ _).bind fun _ _ => (Locates.symbol hP _).bind fun _ _ =>
    hnested.andThen fun _ => .pure trivial

theorem shapeParser_locates (hnested : Locates P (fun _ => True) nested) :
    Locates P (fun _ => True) (shapeParser ctx nested) := by
  refine (Locates.current hP).bind fun _ _ => ?_
  split
  · exact assignParser_locates hP ctx
  · exact Locates.advance.andThen fun _ => .pure trivial
  · exact condParser_locates hP ctx hnested
  · exact loopParser_locates hP ctx hnested
  · exact countParser_locates hP ctx hnested
  · exact switchParser_locates hP ctx hnested
  · exact Locates.advance.andThen fun _ => (Expr.parser_locates hP ctx).andThen fun _ =>
      .pure trivial
  · exact Locates.advance.andThen fun _ => (Locates.textLiteral hP).andThen fun _ => .pure trivial
  · exact blockParser_locates hP hnested
  · exact .unexpected hP _

theorem parserUpTo_locates (bound : List (Token Name)) :
    Locates P (fun _ => True) (parserUpTo ctx bound) := by
  induction bound with
  | nil => exact .unexpected hP _
  | cons _ bound ih =>
    exact (Locates.current hP).bind fun _ ht => (shapeParser_locates hP ctx ih).andThen fun _ =>
      (Locates.spanFrom hP ht).bind fun _ _ => .pure trivial

theorem parser_locates : Locates P (fun _ => True) (parser ctx) :=
  Locates.get.andThen fun _ => parserUpTo_locates hP ctx _

end Command

/-! ## Programs -/

namespace Program

omit ctx

theorem headerParser_locates : Locates P (fun _ => True) headerParser := by
  refine (Locates.keyword hP _).bind fun _ hstart => (Locates.identifier hP).andThen fun _ => ?_
  refine (Locates.symbol hP _).bind fun _ _ => (Locates.check _).andThen fun b => ?_
  rw [bind_ite]
  refine (Locates.ite (.pure trivial) (.sepBy hP (Locates.identifier hP).map)).andThen fun _ => ?_
  exact (Locates.symbol hP _).bind fun _ _ => (Locates.symbol hP _).bind fun _ _ =>
    (Locates.spanFrom hP hstart).bind fun _ _ => .pure trivial

theorem instructionParser_locates (ctx : Context) :
    Locates P (fun _ => True) (instructionParser ctx) := by
  refine (Locates.check _).andThen fun b => .ite ?_ ?_
  · exact (headerParser_locates hP).andThen fun _ => (Expr.parser_locates hP _).andThen fun _ =>
      .pure trivial
  · exact (Command.parser_locates hP ctx).andThen fun _ => .pure trivial

theorem instructionsUpTo_locates (ctx : Context) (bound : List (Token Name)) :
    Locates P (fun _ => True) (instructionsUpTo ctx bound) := by
  induction bound generalizing ctx with
  | nil => exact .unexpected hP _
  | cons _ bound ih =>
    refine (instructionParser_locates hP ctx).andThen fun x => ?_
    refine (Locates.eat _).andThen fun b => .ite ?_ (.pure trivial)
    exact (ih x.2).andThen fun _ => .pure trivial

theorem parser_locates (names : Names) : Locates P (fun _ => True) (parser names) := by
  refine Locates.get.andThen fun _ => .ite (.pure trivial) (Locates.get.andThen fun _ => ?_)
  exact (instructionsUpTo_locates hP _ _).andThen fun _ => (Locates.expectAs hP _ _).bind fun _ _ =>
    .pure trivial

/-- What holds of the spans of all tokens holds of the span of an error. -/
theorem span_of_parse_error {names : Names} {tokens : List (Token Name)} {e : ParseError}
    (htokens : ∀ t ∈ tokens, P t.span) (h : parse names tokens = .error e) : P e.span := by
  have hspans : (Cursor.ofTokens tokens).AllSpans P := by
    simpa [Cursor.AllSpans, Cursor.tokens, Cursor.ofTokens] using htokens
  have hlocates := parser_locates hP names _ hspans
  rw [parse, StateT.run', map_eq_pure_bind] at h
  rcases hr : parser names (.ofTokens tokens) with e' | ⟨program, c'⟩
  · rw [hr] at hlocates h
    cases h
    exact hlocates
  · rw [hr] at h
    cases h

end Program

end

end Enquanto

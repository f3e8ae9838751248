import Enquanto.Program.Parser
import Enquanto.Proofs.ParserSteps
import Enquanto.Proofs.Translation

/-!
# Reading translated tokens

A parser looks at the class of a token and at the payload of a literal; names and spans it only
hands on. So from two token lists that are translations of each other it reads trees that are, or
fails on both for the same reason, at places that are translations of each other.

* `Parser.Parallel`: two parsers do so; there is a rule for each way to put parsers together;
* `Context.Translates`: the functions declared so far correspond;
* `Program.parse_translates`: programs.
-/

namespace Enquanto

/-- The same cause at places that are translations of each other. -/
structure ParseError.Translates (τ : Translation) (e e' : ParseError) : Prop where
  cause : e.cause = e'.cause
  span : τ.span e.span e'.span

/-- Related results, or errors that are translations of each other. -/
inductive ParseError.Outcomes {α β : Type} (τ : Translation) (R : α → β → Prop) :
    Except ParseError α → Except ParseError β → Prop
  | ok {a : α} {b : β} : R a b → Outcomes τ R (.ok a) (.ok b)
  | error {e e' : ParseError} : e.Translates τ e' → Outcomes τ R (.error e) (.error e')

/-! ## Cursors -/

section
variable {τ : Translation}

theorem Token.Translates.toClass_eq {t t' : Token Name} (h : t.Translates τ t') :
    t.toClass = t'.toClass :=
  h.kind.toClass_eq

theorem Token.Translates.isEndOfFile_eq {t t' : Token Name} (h : t.Translates τ t') :
    t.isEndOfFile = t'.isEndOfFile := by
  unfold Token.isEndOfFile
  rw [h.toClass_eq]

/-- The tokens behind and ahead are translations of each other. -/
structure Cursor.Translates (τ : Translation) (c c' : Cursor) : Prop where
  behind : List.Forall₂ (Token.Translates τ) c.behind c'.behind
  ahead : List.Forall₂ (Token.Translates τ) c.ahead c'.ahead

namespace Cursor.Translates

variable {c c' : Cursor}

theorem advance (h : c.Translates τ c') : c.advance.Translates τ c'.advance := by
  obtain ⟨behind, ahead⟩ := c
  obtain ⟨behind', ahead'⟩ := c'
  obtain ⟨hb, ha⟩ := h
  cases ha with
  | nil => exact ⟨hb, .nil⟩
  | @cons t t' _ _ ht ha =>
    simp only [Cursor.advance, ← ht.isEndOfFile_eq]
    split
    · exact ⟨hb, .cons ht ha⟩
    · exact ⟨.cons ht hb, ha⟩

theorem nextClass_eq (h : c.Translates τ c') : c.nextClass = c'.nextClass := by
  obtain ⟨behind, ahead⟩ := c
  obtain ⟨behind', ahead'⟩ := c'
  obtain ⟨-, ha⟩ := h
  rcases ha with _ | ⟨_, _ | ⟨ht, _⟩⟩
  · rfl
  · rfl
  · exact ht.toClass_eq

theorem lastSpan (h : c.Translates τ c') (hτ : τ.Reads) : τ.span c.lastSpan c'.lastSpan := by
  obtain ⟨behind, ahead⟩ := c
  obtain ⟨behind', ahead'⟩ := c'
  obtain ⟨hb, -⟩ := h
  cases hb with
  | nil => exact hτ.nowhere
  | cons ht _ => exact ht.span

theorem current (h : c.Translates τ c') (hτ : τ.Reads) : c.current.Translates τ c'.current := by
  have hend : Token.Translates τ ⟨.endOfFile, .nowhere⟩ ⟨.endOfFile, .nowhere⟩ :=
    ⟨.endOfFile, hτ.nowhere⟩
  obtain ⟨behind, ahead⟩ := c
  obtain ⟨behind', ahead'⟩ := c'
  obtain ⟨hb, ha⟩ := h
  cases ha with
  | cons ht _ => exact ht
  | nil =>
    cases hb with
    | nil => exact hend
    | @cons t t' _ _ ht _ =>
      simp only [Cursor.current, ending, ← ht.isEndOfFile_eq]
      split
      · exact ht
      · exact hend

theorem check_eq (h : c.Translates τ c') (hτ : τ.Reads) (k : TokenClass) :
    c.check k = c'.check k := by
  unfold Cursor.check
  rw [(h.current hτ).toClass_eq]

theorem isAtEnd_eq (h : c.Translates τ c') (hτ : τ.Reads) : c.isAtEnd = c'.isAtEnd :=
  (h.current hτ).isEndOfFile_eq

end Cursor.Translates

end

/-! ## Parsers -/

namespace Parser

variable {α α' β β' ω : Type} {τ : Translation} {Q : α → α' → Prop} {R : β → β' → Prop}

/-- From cursors that are translations of each other, the parsers give related results and such
cursors again, or errors that are translations of each other. -/
def Parallel (τ : Translation) (Q : α → α' → Prop) (p : Parser α) (p' : Parser α') : Prop :=
  ∀ c c', c.Translates τ c' →
    ParseError.Outcomes τ (fun r r' => Q r.1 r'.1 ∧ r.2.Translates τ r'.2) (p c) (p' c')

namespace Parallel

/-! ## Steps -/

theorem pure {a : α} {a' : α'} (h : Q a a') : Parallel τ Q (pure a) (pure a') :=
  fun _ _ hc => .ok ⟨h, hc⟩

theorem bind {p : Parser α} {p' : Parser α'} {f : α → Parser β} {f' : α' → Parser β'}
    (hp : Parallel τ Q p p') (hf : ∀ a a', Q a a' → Parallel τ R (f a) (f' a')) :
    Parallel τ R (p >>= f) (p' >>= f') := by
  intro c c' hc
  have h := hp c c' hc
  generalize hx : p c = x at h
  generalize hy : p' c' = y at h
  cases h with
  | ok h =>
    rw [bind_eq_of_ok hx, bind_eq_of_ok hy]
    exact hf _ _ h.1 _ _ h.2
  | error h =>
    rw [bind_eq_of_error hx, bind_eq_of_error hy]
    exact .error h

/-- The first parsers give the same result. -/
theorem bind_eq {p p' : Parser α} {f : α → Parser β} {f' : α → Parser β'}
    (hp : Parallel τ Eq p p') (hf : ∀ a, Parallel τ R (f a) (f' a)) :
    Parallel τ R (p >>= f) (p' >>= f') := by
  refine hp.bind fun a a' h => ?_
  subst h
  exact hf a

theorem map {p : Parser α} {p' : Parser α'} {f : α → β} {f' : α' → β'} (hp : Parallel τ Q p p')
    (hf : ∀ a a', Q a a' → R (f a) (f' a')) : Parallel τ R (f <$> p) (f' <$> p') := by
  rw [← bind_pure_comp, ← bind_pure_comp]
  exact hp.bind fun a a' h => .pure (hf a a' h)

theorem ite {b : Prop} [Decidable b] {p q : Parser α} {p' q' : Parser α'}
    (hp : Parallel τ Q p p') (hq : Parallel τ Q q q') :
    Parallel τ Q (if b then p else q) (if b then p' else q') := by
  split
  · exact hp
  · exact hq

theorem throw {e e' : ParseError} (h : e.Translates τ e') :
    Parallel τ Q (throw e) (throw e') :=
  fun _ _ _ => .error h

theorem advance : Parallel τ Eq advance advance := fun _ _ hc => .ok ⟨rfl, hc.advance⟩

theorem get : Parallel τ (Cursor.Translates τ) (get : Parser Cursor) get :=
  fun _ _ hc => .ok ⟨hc, hc⟩

theorem literal (negative : Bool) (magnitude : UInt32) {s s' : Span} (h : τ.span s s') :
    Parallel τ Eq (liftM (literal negative magnitude s))
      (liftM (literal negative magnitude s')) := by
  intro c c' hc
  unfold Parser.literal
  cases Decimal.fit? (if negative then -(magnitude.toNat : Int) else magnitude.toNat) with
  | some value => exact .ok ⟨rfl, hc⟩
  | none => exact .error ⟨rfl, h⟩

theorem on_eq (k : TokenClass) (kind kind' : TokenKind Name) (h : kind.Translates τ kind') :
    on k kind = on k kind' := by
  unfold on
  rw [h.toClass_eq]

section
variable (hτ : τ.Reads)
include hτ

theorem check (k : TokenClass) : Parallel τ Eq (check k) (check k) :=
  fun _ _ hc => .ok ⟨hc.check_eq hτ k, hc⟩

theorem eat (k : TokenClass) : Parallel τ Eq (eat k) (eat k) :=
  (check hτ k).bind_eq fun _ => .ite (advance.bind_eq fun _ => .pure rfl) (.pure rfl)

theorem current : Parallel τ (Token.Translates τ) current current :=
  fun _ _ hc => .ok ⟨hc.current hτ, hc⟩

theorem lastSpan : Parallel τ τ.span lastSpan lastSpan :=
  fun _ _ hc => .ok ⟨hc.lastSpan hτ, hc⟩

theorem spanFrom {s s' : Span} (h : τ.span s s') :
    Parallel τ τ.span (spanFrom s) (spanFrom s') :=
  (lastSpan hτ).bind fun _ _ hs => .pure (hτ.merge h hs)

theorem unexpected (expected : String) :
    Parallel τ Q (unexpected expected) (unexpected expected) := by
  refine (current hτ).bind fun t t' ht => .throw ?_
  unfold ParseError.unexpected
  rw [ht.toClass_eq]
  split
  · exact ⟨rfl, ht.span⟩
  · exact ⟨rfl, ht.span⟩

theorem expectAs (k : TokenClass) (expected : String) :
    Parallel τ τ.span (expectAs k expected) (expectAs k expected) := by
  refine (current hτ).bind fun t t' ht => ?_
  rw [ht.toClass_eq]
  exact .ite (advance.bind_eq fun _ => .pure ht.span) (unexpected hτ expected)

theorem keyword (k : Keyword) : Parallel τ τ.span (keyword k) (keyword k) := expectAs hτ _ _

theorem symbol (s : Symbol) : Parallel τ τ.span (symbol s) (symbol s) := expectAs hτ _ _

theorem identifier : Parallel τ (fun a b => τ.name a.1 b.1 ∧ τ.span a.2 b.2) identifier
    identifier := by
  refine (current hτ).bind fun t t' ht => ?_
  obtain ⟨kind, s⟩ := t
  obtain ⟨kind', s'⟩ := t'
  obtain ⟨hk, hs⟩ := ht
  cases hk with
  | identifier hx => exact advance.bind_eq fun _ => .pure ⟨hx, hs⟩
  | _ => exact unexpected hτ _

theorem integer : Parallel τ (fun a b => a.1 = b.1 ∧ τ.span a.2 b.2) integer integer := by
  refine (current hτ).bind fun t t' ht => ?_
  obtain ⟨kind, s⟩ := t
  obtain ⟨kind', s'⟩ := t'
  obtain ⟨hk, hs⟩ := ht
  cases hk with
  | integer m => exact advance.bind_eq fun _ => .pure ⟨rfl, hs⟩
  | _ => exact unexpected hτ _

theorem textLiteral : Parallel τ (fun a b => τ.name a.1 b.1 ∧ τ.span a.2 b.2) textLiteral
    textLiteral := by
  refine (current hτ).bind fun t t' ht => ?_
  obtain ⟨kind, s⟩ := t
  obtain ⟨kind', s'⟩ := t'
  obtain ⟨hk, hs⟩ := ht
  cases hk with
  | text hx => exact advance.bind_eq fun _ => .pure ⟨hx, hs⟩
  | _ => exact unexpected hτ _

/-! ## Combinations -/

theorem manyUpTo {announces : TokenKind Name → Option ω}
    (hann : ∀ k k', TokenKind.Translates τ k k' → announces k = announces k')
    {item : ω → Parser α} {item' : ω → Parser α'} (h : ∀ b, Parallel τ Q (item b) (item' b))
    {bound bound' : List (Token Name)} (hb : List.Forall₂ (Token.Translates τ) bound bound') :
    Parallel τ (List.Forall₂ Q) (manyUpTo announces item bound)
      (manyUpTo announces item' bound') := by
  induction hb with
  | nil => exact .pure .nil
  | cons _ _ ih =>
    refine (current hτ).bind fun t t' ht => ?_
    rw [hann _ _ ht.kind]
    cases announces t'.kind with
    | none => exact .pure .nil
    | some b =>
      exact advance.bind_eq fun _ => (h b).bind fun a a' ha => ih.bind fun as as' has =>
        .pure (.cons ha has)

theorem many {announces : TokenKind Name → Option ω}
    (hann : ∀ k k', TokenKind.Translates τ k k' → announces k = announces k')
    {item : ω → Parser α} {item' : ω → Parser α'} (h : ∀ b, Parallel τ Q (item b) (item' b)) :
    Parallel τ (List.Forall₂ Q) (many announces item) (many announces item') :=
  get.bind fun _ _ hc => manyUpTo hτ hann h hc.ahead

theorem sepBy {k : TokenClass} {item : Parser α} {item' : Parser α'} (h : Parallel τ Q item item') :
    Parallel τ (List.Forall₂ Q) (sepBy k item) (sepBy k item') :=
  h.bind fun _ _ ha => (many hτ (on_eq k) fun _ => h).bind fun _ _ has => .pure (.cons ha has)

theorem chainLeft {operator : TokenKind Name → Option ω}
    (hop : ∀ k k', TokenKind.Translates τ k k' → operator k = operator k')
    {join : ω → α → α → α} {join' : ω → α' → α' → α'}
    (hjoin : ∀ op l l' r r', Q l l' → Q r r' → Q (join op l r) (join' op l' r'))
    {operand : Parser α} {operand' : Parser α'} (h : Parallel τ Q operand operand') :
    Parallel τ Q (chainLeft operator join operand) (chainLeft operator join' operand') := by
  refine h.bind fun first first' hfirst => ?_
  have hitem : ∀ op, Parallel τ (fun (a : ω × α) (b : ω × α') => a.1 = b.1 ∧ Q a.2 b.2)
      (do return (op, ← operand)) (do return (op, ← operand')) :=
    fun op => h.bind fun _ _ ha => .pure ⟨rfl, ha⟩
  refine (many hτ hop hitem).bind fun rest rest' hrest => .pure ?_
  clear hitem
  induction hrest generalizing first first' with
  | nil => exact hfirst
  | @cons x x' _ _ hr _ ih =>
    obtain ⟨op, right⟩ := x
    obtain ⟨op', right'⟩ := x'
    obtain ⟨rfl, hr⟩ := hr
    exact ih _ _ (hjoin op _ _ _ _ hfirst hr)

end

theorem orElse {first second : Parser α} {first' second' : Parser α'}
    (h : Parallel τ Q first first') (h' : Parallel τ Q second second') :
    Parallel τ Q (orElse first second) (orElse first' second') := by
  intro c c' hc
  have hfirst := h c c' hc
  unfold Parser.orElse
  generalize first c = x at hfirst
  generalize first' c' = y at hfirst
  cases hfirst with
  | ok hr => exact .ok hr
  | error _ => exact h' c c' hc

end Parallel

end Parser

/-! ## Contexts -/

/-- A declared name may stand for the other, with as many parameters. -/
structure Signature.Translates (τ : Translation) (s s' : Signature) : Prop where
  name : τ.name s.name s'.name
  arity : s.arity = s'.arity

/-- Names that may stand for each other have the same text, and the functions declared so far
correspond. -/
structure Context.Translates (τ : Translation) (ctx ctx' : Context) : Prop where
  text : ∀ {x x'}, τ.name x x' → ctx.names.text x = ctx'.names.text x'
  declared : List.Forall₂ (Signature.Translates τ) ctx.declared ctx'.declared

namespace Context.Translates

variable {τ : Translation} {ctx ctx' : Context}

theorem declare (h : ctx.Translates τ ctx') {s s' : Signature} (hs : s.Translates τ s') :
    (ctx.declare s).Translates τ (ctx'.declare s') :=
  ⟨h.text, .cons hs h.declared⟩

theorem resolve_eq (h : ctx.Translates τ ctx') (hτ : τ.Reads) {x x' : Name} (hx : τ.name x x') :
    ctx.resolve x = ctx'.resolve x' := by
  have hdeclared := h.declared
  unfold Context.resolve
  generalize ctx.declared = declared at hdeclared
  generalize ctx'.declared = declared' at hdeclared
  induction hdeclared with
  | nil => rfl
  | cons hs hrest ih =>
    simp only [Context.resolve.go, hτ.name_iff hs.name hx, hs.arity, hrest.length_eq, ih]

end Context.Translates

open Enquanto.Parser

section
variable {τ : Translation} {ctx ctx' : Context} (hτ : τ.Reads)
include hτ

/-! ## Expressions -/

namespace Expr

theorem Translates.binary {op : ArithOp} {l l' r r' : Expr} (hl : l.Translates τ l')
    (hr : r.Translates τ r') : (Expr.binary op l r).Translates τ (Expr.binary op l' r') :=
  .arith hl hr (hτ.merge hl.span hr.span)

variable {nested nested' : Parser Expr} (hctx : ctx.Translates τ ctx')
include hctx

theorem callParser_parallel (hnested : Parallel τ (Translates τ) nested nested') {x x' : Name}
    (hx : τ.name x x') {s s' : Span} (hs : τ.span s s') :
    Parallel τ (Translates τ) (callParser ctx nested x s) (callParser ctx' nested' x' s') := by
  refine Parallel.advance.bind_eq fun _ => ?_
  rw [hctx.resolve_eq hτ hx, hctx.text hx]
  cases ctx'.resolve x' with
  | none => exact .throw ⟨rfl, hs⟩
  | some callee =>
    obtain ⟨f, arity⟩ := callee
    refine (Parallel.symbol hτ _).bind fun _ _ _ => (Parallel.check hτ _).bind_eq fun b => ?_
    rw [bind_ite, bind_ite]
    refine (Parallel.ite (.pure .nil) (.sepBy hτ hnested)).bind fun args args' hargs => ?_
    refine (Parallel.expectAs hτ _ _).bind fun _ _ _ => ?_
    refine (Parallel.spanFrom hτ hs).bind fun _ _ hspan => ?_
    rw [hargs.length_eq]
    exact .ite (.pure (.call (hτ.function f) hargs hspan)) (.throw ⟨rfl, hspan⟩)

theorem operand_parallel (hnested : Parallel τ (Translates τ) nested nested') :
    Parallel τ (Translates τ) (operand ctx nested) (operand ctx' nested') := by
  refine (Parallel.current hτ).bind fun t t' ht => ?_
  obtain ⟨kind, s⟩ := t
  obtain ⟨kind', s'⟩ := t'
  obtain ⟨hk, hs⟩ := ht
  cases hk with
  | integer m =>
    exact Parallel.advance.bind_eq fun _ => (Parallel.literal _ _ hs).bind_eq fun _ =>
      .pure (.int hs)
  | identifier hx =>
    refine Parallel.get.bind fun c c' hc => ?_
    rw [hc.nextClass_eq]
    exact .ite (callParser_parallel hτ hctx hnested hx hs)
      (Parallel.advance.bind_eq fun _ => .pure (.var hx hs))
  | keyword k =>
    cases k with
    | leia => exact Parallel.advance.bind_eq fun _ => .pure (.read hs)
    | _ => exact .unexpected hτ _
  | symbol k =>
    cases k with
    | openParen =>
      exact Parallel.advance.bind_eq fun _ => hnested.bind fun _ _ he =>
        (Parallel.symbol hτ _).bind fun _ _ _ => .pure he
    | _ => exact .unexpected hτ _
  | _ => exact .unexpected hτ _

end Expr

end

/-- The last elements of related lists are related, and so are the lists without them. -/
theorem getLast?_of_forall₂ {α β : Type} {R : α → β → Prop} {as : List α} {bs : List β}
    (h : List.Forall₂ R as bs) : Option.Rel R as.getLast? bs.getLast? ∧
      List.Forall₂ R as.dropLast bs.dropLast := by
  induction h with
  | nil => exact ⟨.none, .nil⟩
  | @cons a b as bs hab hrest ih =>
    cases hrest with
    | nil => exact ⟨.some hab, .nil⟩
    | cons _ _ => exact ⟨by simpa using ih.1, .cons hab ih.2⟩

section
variable {τ : Translation} {ctx ctx' : Context} (hτ : τ.Reads)
include hτ

namespace Expr

variable {nested nested' : Parser Expr} (hctx : ctx.Translates τ ctx')
include hctx

theorem signed_parallel (hnested : Parallel τ (Translates τ) nested nested') :
    Parallel τ (Translates τ) (signed ctx nested) (signed ctx' nested') := by
  refine (Parallel.many hτ (Parallel.on_eq _) fun _ => .lastSpan hτ).bind
    fun signs signs' hsigns => ?_
  refine (Parallel.current hτ).bind fun t t' ht => ?_
  have hend {signs signs' : List Span} {inner inner' : Expr} (hsigns : List.Forall₂ τ.span signs
      signs') (hinner : inner.Translates τ inner') : Parallel τ (Translates τ)
      (do
        let stop ← Parser.lastSpan
        return signs.foldr (fun sign e => Expr.neg e (sign.merge stop)) inner)
      (do
        let stop ← Parser.lastSpan
        return signs'.foldr (fun sign e => Expr.neg e (sign.merge stop)) inner') := by
    refine (Parallel.lastSpan hτ).bind fun stop stop' hstop => .pure ?_
    induction hsigns with
    | nil => exact hinner
    | cons hs _ ih => exact .neg ih (hτ.merge hs hstop)
  have hoperand : Parallel τ (Translates τ) _ _ :=
    (operand_parallel hτ hctx hnested).bind fun _ _ he => hend hsigns he
  obtain ⟨kind, s⟩ := t
  obtain ⟨kind', s'⟩ := t'
  obtain ⟨hk, hs⟩ := ht
  obtain ⟨hlast, hinit⟩ := getLast?_of_forall₂ hsigns
  generalize signs.getLast? = last at hlast ⊢
  generalize signs'.getLast? = last' at hlast ⊢
  cases hlast with
  | none => exact hoperand
  | some hsign =>
    cases hk with
    | integer m =>
      simp only
      split
      · exact Parallel.advance.bind_eq fun _ => hend hinit (.int (hτ.merge hsign hs))
      · exact hoperand
    | _ => exact hoperand

theorem parserUpTo_parallel {bound bound' : List (Token Name)}
    (hb : List.Forall₂ (Token.Translates τ) bound bound') :
    Parallel τ (Translates τ) (parserUpTo ctx bound) (parserUpTo ctx' bound') := by
  have hjoin : ∀ op l l' r r', Translates τ l l' → Translates τ r r' →
      Translates τ (binary op l r) (binary op l' r') := fun _ _ _ _ _ => Translates.binary hτ
  have hpower : ∀ k k', TokenKind.Translates τ k k' → powerOp k = powerOp k' := by
    rintro _ _ ⟨⟩ <;> rfl
  have hproduct : ∀ k k', TokenKind.Translates τ k k' → productOp k = productOp k' := by
    rintro _ _ ⟨⟩ <;> rfl
  have hsum : ∀ k k', TokenKind.Translates τ k k' → sumOp k = sumOp k' := by
    rintro _ _ ⟨⟩ <;> rfl
  induction hb with
  | nil => exact .unexpected hτ _
  | cons _ _ ih =>
    exact .chainLeft hτ hsum hjoin (.chainLeft hτ hproduct hjoin
      (.chainLeft hτ hpower hjoin (signed_parallel hτ hctx ih)))

theorem parser_parallel : Parallel τ (Translates τ) (parser ctx) (parser ctx') :=
  Parallel.get.bind fun _ _ hc => parserUpTo_parallel hτ hctx hc.ahead

end Expr

/-! ## Predicates -/

namespace Pred

variable {nested nested' : Parser Pred} (hctx : ctx.Translates τ ctx')
include hctx

theorem relationParser_parallel :
    Parallel τ (Translates τ) (relationParser ctx) (relationParser ctx') := by
  refine (Expr.parser_parallel hτ hctx).bind fun l l' hl => ?_
  refine (Parallel.current hτ).bind fun t t' ht => ?_
  have hop : ∀ k k', TokenKind.Translates τ k k' → relOp k = relOp k' := by
    rintro _ _ ⟨⟩ <;> rfl
  rw [hop _ _ ht.kind]
  cases relOp t'.kind with
  | none => exact .unexpected hτ _
  | some op =>
    exact Parallel.advance.bind_eq fun _ => (Expr.parser_parallel hτ hctx).bind fun r r' hr =>
      .pure (.rel hl hr (hτ.merge hl.span hr.span))

theorem atom_parallel (hnested : Parallel τ (Translates τ) nested nested') :
    Parallel τ (Translates τ) (atom ctx nested) (atom ctx' nested') := by
  have hrelation := relationParser_parallel hτ hctx
  refine (Parallel.current hτ).bind fun t t' ht => ?_
  obtain ⟨kind, s⟩ := t
  obtain ⟨kind', s'⟩ := t'
  obtain ⟨hk, hs⟩ := ht
  cases hk with
  | keyword k =>
    cases k with
    | verdadeiro => exact Parallel.advance.bind_eq fun _ => .pure (.lit hs)
    | falso => exact Parallel.advance.bind_eq fun _ => .pure (.lit hs)
    | _ => exact hrelation
  | symbol k =>
    cases k with
    | openParen =>
      refine Parallel.orElse ?_ hrelation
      exact (Parallel.symbol hτ _).bind fun _ _ _ => hnested.bind fun _ _ hp =>
        (Parallel.symbol hτ _).bind fun _ _ _ => .pure hp
    | _ => exact hrelation
  | _ => exact hrelation

theorem negated_parallel (hnested : Parallel τ (Translates τ) nested nested') :
    Parallel τ (Translates τ) (negated ctx nested) (negated ctx' nested') := by
  refine (Parallel.many hτ (Parallel.on_eq _) fun _ => .lastSpan hτ).bind
    fun signs signs' hsigns => (atom_parallel hτ hctx hnested).bind fun p p' hp => ?_
  refine (Parallel.lastSpan hτ).bind fun stop stop' hstop => .pure ?_
  induction hsigns with
  | nil => exact hp
  | cons hs _ ih => exact .not ih (hτ.merge hs hstop)

theorem parserUpTo_parallel {bound bound' : List (Token Name)}
    (hb : List.Forall₂ (Token.Translates τ) bound bound') :
    Parallel τ (Translates τ) (parserUpTo ctx bound) (parserUpTo ctx' bound') := by
  have hjoin : ∀ op l l' r r', Translates τ l l' → Translates τ r r' →
      Translates τ (binary op l r) (binary op l' r') :=
    fun _ _ _ _ _ hl hr => .logic hl hr (hτ.merge hl.span hr.span)
  have hand : ∀ k k', TokenKind.Translates τ k k' → andOp k = andOp k' := by
    rintro _ _ ⟨⟩ <;> rfl
  have hxor : ∀ k k', TokenKind.Translates τ k k' → xorOp k = xorOp k' := by
    rintro _ _ ⟨⟩ <;> rfl
  have hor : ∀ k k', TokenKind.Translates τ k k' → orOp k = orOp k' := by
    rintro _ _ ⟨⟩ <;> rfl
  induction hb with
  | nil => exact .unexpected hτ _
  | cons _ _ ih =>
    exact .chainLeft hτ hor hjoin (.chainLeft hτ hxor hjoin
      (.chainLeft hτ hand hjoin (negated_parallel hτ hctx ih)))

theorem parser_parallel : Parallel τ (Translates τ) (parser ctx) (parser ctx') :=
  Parallel.get.bind fun _ _ hc => parserUpTo_parallel hτ hctx hc.ahead

end Pred

/-! ## Commands -/

namespace Command

/-- Commands without their spans: with related spans they are translations of each other. -/
def ShapeTranslates (τ : Translation) (shape shape' : Span → Command) : Prop :=
  ∀ s s', τ.span s s' → (shape s).Translates τ (shape' s')

theorem hereSpan_parallel : Parallel τ τ.span hereSpan hereSpan :=
  (Parallel.lastSpan hτ).bind fun _ _ hs => .pure (hτ.point hs)

variable {nested nested' : Parser Command}

theorem blockParser_parallel (hnested : Parallel τ (Translates τ) nested nested') :
    Parallel τ (ShapeTranslates τ) (blockParser nested) (blockParser nested') :=
  (Parallel.symbol hτ _).bind fun _ _ _ => (Parallel.sepBy hτ hnested).bind fun _ _ hbody =>
    (Parallel.expectAs hτ _ _).bind fun _ _ _ => .pure fun _ _ hs => .block hbody hs

theorem caseParser_parallel (hnested : Parallel τ (Translates τ) nested nested') :
    Parallel τ (CaseTranslates τ) (caseParser nested) (caseParser nested') := by
  refine (Parallel.current hτ).bind fun t t' ht => (Parallel.eat hτ _).bind_eq fun negative => ?_
  refine (Parallel.integer hτ).bind fun m m' hm => ?_
  obtain ⟨magnitude, s⟩ := m
  obtain ⟨magnitude', s'⟩ := m'
  obtain ⟨rfl, -⟩ := hm
  refine (Parallel.spanFrom hτ ht.span).bind fun _ _ hs => ?_
  exact (Parallel.literal _ _ hs).bind_eq fun _ => (Parallel.symbol hτ _).bind fun _ _ _ =>
    hnested.bind fun _ _ hbody => .pure (.intro hbody)

variable (hctx : ctx.Translates τ ctx')
include hctx

theorem assignParser_parallel :
    Parallel τ (ShapeTranslates τ) (assignParser ctx) (assignParser ctx') :=
  (Parallel.identifier hτ).bind fun _ _ hx => (Parallel.symbol hτ _).bind fun _ _ _ =>
    (Expr.parser_parallel hτ hctx).bind fun _ _ he => .pure fun _ _ hs => .assign hx.1 he hs

theorem branchParser_parallel (hnested : Parallel τ (Translates τ) nested nested') :
    Parallel τ (BranchTranslates τ) (branchParser ctx nested) (branchParser ctx' nested') :=
  (Pred.parser_parallel hτ hctx).bind fun _ _ ht => (Parallel.keyword hτ _).bind fun _ _ _ =>
    hnested.bind fun _ _ hb => .pure (.intro ht hb)

theorem condParser_parallel (hnested : Parallel τ (Translates τ) nested nested') :
    Parallel τ (ShapeTranslates τ) (condParser ctx nested) (condParser ctx' nested') := by
  have hbranch := branchParser_parallel hτ hctx hnested
  refine (Parallel.keyword hτ _).bind fun _ _ _ => hbranch.bind fun first first' hfirst => ?_
  cases hfirst with
  | intro ht hb =>
    refine (Parallel.many hτ (Parallel.on_eq _) fun _ => hbranch).bind fun os os' hos => ?_
    refine (Parallel.eat hτ _).bind_eq fun b => ?_
    rw [bind_ite, bind_ite]
    have hskip : Parallel τ (Translates τ) (Command.skip <$> hereSpan)
        (Command.skip <$> hereSpan) := (hereSpan_parallel hτ).map fun _ _ hs => .skip hs
    exact (Parallel.ite hnested hskip).bind fun _ _ hl => .pure fun _ _ hs => .cond ht hb hos hl hs

theorem loopParser_parallel (hnested : Parallel τ (Translates τ) nested nested') :
    Parallel τ (ShapeTranslates τ) (loopParser ctx nested) (loopParser ctx' nested') :=
  (Parallel.keyword hτ _).bind fun _ _ _ => (Pred.parser_parallel hτ hctx).bind fun _ _ ht =>
    (Parallel.keyword hτ _).bind fun _ _ _ => hnested.bind fun _ _ hb =>
      .pure fun _ _ hs => .loop ht hb hs

theorem countParser_parallel (hnested : Parallel τ (Translates τ) nested nested') :
    Parallel τ (ShapeTranslates τ) (countParser ctx nested) (countParser ctx' nested') := by
  have hexpr := Expr.parser_parallel hτ hctx
  refine (Parallel.keyword hτ _).bind fun _ _ _ => (Parallel.identifier hτ).bind fun _ _ hx => ?_
  refine (Parallel.keyword hτ _).bind fun _ _ _ => hexpr.bind fun _ _ hi => ?_
  refine (Parallel.keyword hτ _).bind fun _ _ _ => hexpr.bind fun _ _ hj => ?_
  refine (Parallel.eat hτ _).bind_eq fun b => ?_
  rw [bind_ite, bind_ite]
  have hone : Parallel τ (Expr.Translates τ) (Expr.int 1 <$> hereSpan) (Expr.int 1 <$> hereSpan) :=
    (hereSpan_parallel hτ).map fun _ _ hs => .int hs
  refine (Parallel.ite hexpr hone).bind fun _ _ hk => ?_
  exact (Parallel.keyword hτ _).bind fun _ _ _ => hnested.bind fun _ _ hb =>
    .pure fun _ _ hs => .count hx.1 hi hj hk hb hs

theorem switchParser_parallel (hnested : Parallel τ (Translates τ) nested nested') :
    Parallel τ (ShapeTranslates τ) (switchParser ctx nested) (switchParser ctx' nested') := by
  refine (Parallel.keyword hτ _).bind fun _ _ _ => ?_
  refine (Expr.parser_parallel hτ hctx).bind fun _ _ he => ?_
  refine (Parallel.many hτ (Parallel.on_eq _) fun _ => caseParser_parallel hτ hnested).bind
    fun _ _ hcs => ?_
  exact (Parallel.expectAs hτ _ _).bind fun _ _ _ => (Parallel.symbol hτ _).bind fun _ _ _ =>
    hnested.bind fun _ _ hd => .pure fun _ _ hs => .switch he hcs hd hs

theorem shapeParser_parallel (hnested : Parallel τ (Translates τ) nested nested') :
    Parallel τ (ShapeTranslates τ) (shapeParser ctx nested) (shapeParser ctx' nested') := by
  refine (Parallel.current hτ).bind fun t t' ht => ?_
  obtain ⟨kind, s⟩ := t
  obtain ⟨kind', s'⟩ := t'
  obtain ⟨hk, -⟩ := ht
  cases hk with
  | identifier _ => exact assignParser_parallel hτ hctx
  | keyword k =>
    cases k with
    | skip => exact Parallel.advance.bind_eq fun _ => .pure fun _ _ hs => .skip hs
    | se => exact condParser_parallel hτ hctx hnested
    | enquanto => exact loopParser_parallel hτ hctx hnested
    | para => exact countParser_parallel hτ hctx hnested
    | escolha => exact switchParser_parallel hτ hctx hnested
    | escreva =>
      exact Parallel.advance.bind_eq fun _ => (Expr.parser_parallel hτ hctx).bind fun _ _ he =>
        .pure fun _ _ hs => .printInt he hs
    | exiba =>
      exact Parallel.advance.bind_eq fun _ => (Parallel.textLiteral hτ).bind fun _ _ hx =>
        .pure fun _ _ hs => .printText hx.1 hs
    | _ => exact .unexpected hτ _
  | symbol k =>
    cases k with
    | openBrace => exact blockParser_parallel hτ hnested
    | _ => exact .unexpected hτ _
  | _ => exact .unexpected hτ _

theorem parserUpTo_parallel {bound bound' : List (Token Name)}
    (hb : List.Forall₂ (Token.Translates τ) bound bound') :
    Parallel τ (Translates τ) (parserUpTo ctx bound) (parserUpTo ctx' bound') := by
  induction hb with
  | nil => exact .unexpected hτ _
  | cons _ _ ih =>
    exact (Parallel.current hτ).bind fun _ _ ht => (shapeParser_parallel hτ hctx ih).bind
      fun _ _ hshape => (Parallel.spanFrom hτ ht.span).bind fun _ _ hs => .pure (hshape _ _ hs)

theorem parser_parallel : Parallel τ (Translates τ) (parser ctx) (parser ctx') :=
  Parallel.get.bind fun _ _ hc => parserUpTo_parallel hτ hctx hc.ahead

end Command

/-! ## Programs -/

namespace Program

theorem headerParser_parallel : Parallel τ
    (fun h h' => τ.name h.1 h'.1 ∧ List.Forall₂ τ.name h.2.1 h'.2.1 ∧ τ.span h.2.2 h'.2.2)
    headerParser headerParser := by
  refine (Parallel.keyword hτ _).bind fun _ _ hs => (Parallel.identifier hτ).bind fun _ _ hx => ?_
  refine (Parallel.symbol hτ _).bind fun _ _ _ => (Parallel.check hτ _).bind_eq fun b => ?_
  rw [bind_ite, bind_ite]
  have hparam : Parallel τ τ.name (Prod.fst <$> identifier) (Prod.fst <$> identifier) :=
    (Parallel.identifier hτ).map fun _ _ hx => hx.1
  refine (Parallel.ite (.pure .nil) (.sepBy hτ hparam)).bind fun _ _ hps => ?_
  exact (Parallel.symbol hτ _).bind fun _ _ _ => (Parallel.symbol hτ _).bind fun _ _ _ =>
    (Parallel.spanFrom hτ hs).bind fun _ _ hs => .pure ⟨hx.1, hps, hs⟩

theorem instructionParser_parallel (hctx : ctx.Translates τ ctx') : Parallel τ
    (fun i i' => i.1.Translates τ i'.1 ∧ i.2.Translates τ i'.2)
    (instructionParser ctx) (instructionParser ctx') := by
  refine (Parallel.check hτ _).bind_eq fun b => .ite ?_ ?_
  · refine (headerParser_parallel hτ).bind fun h h' hh => ?_
    obtain ⟨hx, hps, hs⟩ := hh
    have hsignature : Signature.Translates τ ⟨h.1, h.2.1.length⟩ ⟨h'.1, h'.2.1.length⟩ :=
      ⟨hx, hps.length_eq⟩
    have hctx := hctx.declare hsignature
    exact (Expr.parser_parallel hτ hctx).bind fun _ _ he => .pure ⟨.declare ⟨hx, hps, he, hs⟩, hctx⟩
  · exact (Command.parser_parallel hτ hctx).bind fun _ _ hc => .pure ⟨.command hc, hctx⟩

theorem instructionsUpTo_parallel (hctx : ctx.Translates τ ctx') {bound bound' : List (Token Name)}
    (hb : List.Forall₂ (Token.Translates τ) bound bound') :
    Parallel τ (List.Forall₂ (Instruction.Translates τ)) (instructionsUpTo ctx bound)
      (instructionsUpTo ctx' bound') := by
  induction hb generalizing ctx ctx' with
  | nil => exact .unexpected hτ _
  | cons _ _ ih =>
    refine (instructionParser_parallel hτ hctx).bind fun i i' hi => ?_
    refine (Parallel.eat hτ _).bind_eq fun b => Parallel.ite ?_ (.pure (.cons hi.1 .nil))
    exact (ih hi.2).bind fun _ _ hrest => .pure (.cons hi.1 hrest)

/-- Token lists that are translations of each other are read as programs that are, or fail alike. -/
theorem parse_translates {names names' : Names}
    (htext : ∀ {x x'}, τ.name x x' → names.text x = names'.text x')
    {tokens tokens' : List (Token Name)}
    (htokens : List.Forall₂ (Token.Translates τ) tokens tokens') :
    ParseError.Outcomes τ (List.Forall₂ (Instruction.Translates τ)) (parse names tokens)
      (parse names' tokens') := by
  have hctx : Context.Translates τ ⟨names, []⟩ ⟨names', []⟩ := ⟨htext, .nil⟩
  have hparser : Parallel τ (List.Forall₂ (Instruction.Translates τ)) (parser names)
      (parser names') := by
    refine Parallel.get.bind fun c c' hc => ?_
    rw [hc.isAtEnd_eq hτ]
    refine Parallel.ite (b := c'.isAtEnd = true) (.pure .nil) (Parallel.get.bind fun _ _ hc => ?_)
    exact (instructionsUpTo_parallel hτ hctx hc.ahead).bind fun _ _ hp =>
      (Parallel.expectAs hτ _ _).bind fun _ _ _ => .pure hp
  have h := hparser (.ofTokens tokens) (.ofTokens tokens') ⟨.nil, htokens⟩
  unfold parse StateT.run'
  generalize parser names (.ofTokens tokens) = x at h ⊢
  generalize parser names' (.ofTokens tokens') = y at h ⊢
  cases h with
  | ok h => exact .ok h.1
  | error h => exact .error h

/-- If the tokens are a program, so are their translations. -/
theorem exists_parse_translates {names names' : Names}
    (htext : ∀ {x x'}, τ.name x x' → names.text x = names'.text x')
    {tokens tokens' : List (Token Name)}
    (htokens : List.Forall₂ (Token.Translates τ) tokens tokens') {program : Program}
    (h : parse names tokens = .ok program) : ∃ program', parse names' tokens' = .ok program' ∧
      List.Forall₂ (Instruction.Translates τ) program program' := by
  have hparse := parse_translates hτ htext htokens
  rw [h] at hparse
  generalize parse names' tokens' = result at hparse
  cases hparse with
  | ok hp => exact ⟨_, rfl, hp⟩

end Program

end

end Enquanto

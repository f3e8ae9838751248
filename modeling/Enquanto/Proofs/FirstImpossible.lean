import Enquanto.Proofs.Lookahead
import Enquanto.Proofs.ParserProgress
import Enquanto.Proofs.Vocabulary

/-!
# The first impossible token

The parser goes wrong, against the grammar, at the first token that cannot be there: some program
starts with the tokens before it, and none with these and the token itself. This is so unless a
parenthesis stands where a predicate starts, since what stands in it may be read twice.

The first half is read off the productions: each of them depends on one token behind those that it
takes, and what it has taken when it goes wrong can be completed to a phrase. For the second half, a
program that started with the token would be recast without a masked offence. The parser would go
wrong in it as it did before, but all that it reports there is an offence or nothing at all.

* `Expr.parser_pinpoints`, `Pred.parser_pinpoints`, `Command.parser_pinpoints` and
  `Program.parser_pinpoints`: the productions of the grammar;
* `Program.parse_error_pinpointed`: where the parser goes wrong in a token list;
* `Program.parse_error_first_impossible`: there is the first impossible token.
-/

namespace Enquanto

open Grammar Enquanto.Parser
open scoped Computability

/-! ## Expressions -/

namespace ExprForm

instance : Productive (phrases (Derives .operand)) := ⟨_, _, .read (s := .nowhere)⟩

instance : Productive (phrases (Derives .sum)) := ⟨_, _, .of_operand (.read (s := .nowhere))⟩

/-- The arguments of a call, with their parentheses. -/
def argumentLists : Language (Token Name) :=
  tokenOf (.symbol .openParen) * (phrases (Listed (Derives .sum)) * tokenOf (.symbol .closeParen))

end ExprForm

section
variable (ctx : Context) {n : Nat} {P : TokenKind Name → Prop}

namespace Expr

open ExprForm

/-- A chain of one level of operators, over operands of the level below. -/
theorem chain_pinpoints {l l' : ExprLevel} {ops : List ArithOp}
    {operator : TokenKind Name → Option ArithOp} {p : Parser Expr}
    (hend : operator .endOfFile = none)
    (hop : ∀ kind op, operator kind = some op ↔ ExprForm.operator ops kind op)
    (hderives : ∀ ts f, Derives l ts f ↔ Chained (ExprForm.operator ops) (Derives l') .arith ts f)
    (htracks : ∀ n, Tracks 1 n p p) (hp : Pinpoints n Anything p (phrases (Derives l'))) :
    Pinpoints n Anything (chainLeft operator binary p) (phrases (Derives l)) :=
  (Pinpoints.chainLeft hend (fun kind op => (hop kind op).mp) (fun _ _ _ => trivial) htracks hp).imp
    fun ts ⟨f, hf⟩ => ⟨f, (hderives ts f).mpr hf⟩

section
variable (h : ∀ m < n, Pinpoints m Anything (parser ctx) (phrases (Derives .sum)))
include h

/-- What follows the name of a function in a call of it. -/
theorem arguments_pinpoint (hn : 1 ≤ n) (name : Name) (start : Span) (function : FunctionId)
    (arity : Nat) : Pinpoints (n - 1) Anything (do
      let _ ← symbol .openParen
      let args ← if ← check (.symbol .closeParen) then pure []
        else sepBy (.symbol .comma) (parser ctx)
      let _ ← expectAs (.symbol .closeParen) "`,` or `)`"
      let span ← spanFrom start
      if args.length = arity then return .call function args span
      else throw ⟨.arity ⟨ctx.names.text name, arity, args.length⟩, span⟩ : Parser Expr)
      argumentLists := by
  have hnested := h (n - 1) (by omega)
  refine (Pinpoints.symbol _).andThen fun _ => .check_bind fun b => ?_
  rw [bind_ite]
  refine (Pinpoints.listed (fun _ => parser_tracks ctx) hnested).andThen fun args => ?_
  refine Pinpoints.imp (L := _ * (1 * 1)) ((Pinpoints.symbolAs _ _).andThen fun _ =>
    (Pinpoints.spanFrom _).andThen fun _ => ?_) (by rw [mul_one, mul_one])
  split
  · exact .pure
  · exact .throw trivial

theorem operand_pinpoints :
    Pinpoints n P (operand ctx (parser ctx)) (phrases (Derives .operand)) := by
  refine fun c hleft hdirect _ => .current_bind ?_
  cases hk : c.current.kind with
  | integer m =>
    refine Pinpoints.stepAt (Q := Anything) hk nofun hleft hdirect trivial
      (fun _ => (Pinpoints.literal _ _ _).thenPure) ?_
    rintro s us rfl
    exact ⟨_, .int⟩
  | identifier x =>
    refine Pinpoints.nextAt (M := argumentLists) (N := 1) hk nofun hleft hdirect
      (fun hn => ?_) ?_ (fun _ => .pure) ?_
    · split
      · exact .throw trivial
      · exact arguments_pinpoint ctx h hn _ _ _ _
    · rintro s _ ⟨_, ⟨s₁, rfl⟩, _, ⟨ts, ⟨args, hargs⟩, _, ⟨s₂, rfl⟩, rfl⟩, rfl⟩
      exact ⟨_, .call hargs⟩
    · rintro s us rfl
      exact ⟨_, .var⟩
  | keyword k =>
    cases k with
    | leia =>
      refine Pinpoints.stepAt (Q := Anything) hk nofun hleft hdirect trivial
        (fun _ => .pure) ?_
      rintro s us rfl
      exact ⟨_, .read⟩
    | _ => exact .unexpected
  | symbol k =>
    cases k with
    | openParen =>
      refine Pinpoints.stepAt (Q := Anything) hk nofun hleft hdirect trivial
        (fun _ => (h (n - 1) (by omega)).andThen fun _ => (Pinpoints.symbol _).thenPure) ?_
      rintro s _ ⟨us, ⟨f, hf⟩, _, ⟨s₁, rfl⟩, rfl⟩
      exact ⟨_, .paren hf⟩
    | _ => exact .unexpected
  | _ => exact .unexpected

theorem signed_pinpoints :
    Pinpoints n P (signed ctx (parser ctx)) (phrases (Derives .signed)) := by
  have hend (signs : List Span) (inner : Expr) : Pinpoints n Anything (do
      let stop ← Parser.lastSpan
      return signs.foldr (fun sign e => Expr.neg e (sign.merge stop)) inner) 1 :=
    Pinpoints.lastSpan.thenPure
  have hoperand (signs : List Span) : Pinpoints n Anything (do
      let inner ← operand ctx (parser ctx)
      let stop ← Parser.lastSpan
      return signs.foldr (fun sign e => Expr.neg e (sign.merge stop)) inner)
      (phrases (Derives .operand)) := by
    have hall := (operand_pinpoints ctx h (P := Anything)).andThen fun inner => hend signs inner
    rwa [mul_one] at hall
  refine Pinpoints.imp (L := signsOf (.symbol .minus) * phrases (Derives .operand))
    ((Pinpoints.signs (by simp) fun _ _ => on_symbol_eq_some_iff.mp).andThen fun signs => ?_) ?_
  · refine fun c hleft hdirect hP => .current_bind ?_
    cases signs.getLast? with
    | none => exact hoperand signs c hleft hdirect hP
    | some sign =>
      cases hk : c.current.kind with
      | integer m =>
        by_cases hm : m = leastMagnitude
        · simp only [if_pos hm]
          refine Pinpoints.stepAt (Q := Anything) hk nofun hleft hdirect trivial
            (fun _ => (hend _ _).mono (Nat.sub_le n 1)) ?_
          rintro s us rfl
          exact ⟨_, .int⟩
        · simp only [if_neg hm]
          exact hoperand signs c hleft hdirect hP
      | _ => exact hoperand signs c hleft hdirect hP
  · rintro _ ⟨_, ⟨signs, rfl⟩, us, ⟨f, hf⟩, rfl⟩
    exact ⟨_, derives_signed_iff.mpr ⟨signs, us, f, rfl, hf, rfl⟩⟩

theorem sum_pinpoints : Pinpoints n Anything (sum ctx (parser ctx)) (phrases (Derives .sum)) := by
  have hpower := chain_pinpoints rfl powerOp_eq_some_iff derives_power_iff
    (@Production.signed ctx).tracks (signed_pinpoints ctx h)
  have hproduct := chain_pinpoints rfl productOp_eq_some_iff derives_product_iff
    (@Production.power ctx).tracks hpower
  exact chain_pinpoints rfl sumOp_eq_some_iff derives_sum_iff
    (@Production.product ctx).tracks hproduct

end

theorem parser_pinpoints : Pinpoints n P (parser ctx) (phrases (Derives .sum)) := by
  refine Pinpoints.of_anything ?_
  induction n using Nat.strongRecOn with
  | ind n ih =>
    rw [parser_recursion.unfolds]
    exact sum_pinpoints ctx ih

end Expr

end

/-! ## Predicates -/

namespace PredForm

instance : Productive (phrases (Derives .atom)) := ⟨_, _, .true (s := .nowhere)⟩

theorem derives_or {ts : List (Token Name)} {f : PredForm} (h : Derives .atom ts f) :
    Derives .or ts f := by
  have hand : Derives .and (ts ++ []) f := .and (.plain h) .nil
  have hxor : Derives .xor (ts ++ [] ++ []) f := .xor hand .nil
  have hor : Derives .or (ts ++ [] ++ [] ++ []) f := .or hxor .nil
  simpa using hor

instance : Productive (phrases (Derives .or)) := ⟨_, _, derives_or (.true (s := .nowhere))⟩

/-- The right side of a relation, with its operator. -/
def rightSides : Language (Token Name) :=
  {ts | ∃ op s us, ts = symbolAt (RelOp.symbol op) s :: us ∧ us ∈ phrases (ExprForm.Derives .sum)}

instance : Productive rightSides := by
  obtain ⟨us, hus⟩ := Productive.exists_mem (L := phrases (ExprForm.Derives .sum))
  exact ⟨_, .eq, .nowhere, us, rfl, hus⟩

end PredForm

namespace Pred

open PredForm

variable (ctx : Context) {n : Nat}

theorem relationParser_pinpoints {P : TokenKind Name → Prop} :
    Pinpoints n P (relationParser ctx) (phrases (Derives .atom)) := by
  refine Pinpoints.imp (L := phrases (ExprForm.Derives .sum) * rightSides)
    ((Expr.parser_pinpoints ctx).andThen fun left => ?_) ?_
  · refine fun c hleft hdirect _ => .current_bind ?_
    cases hop : relOp c.current.kind with
    | none => exact .unexpected
    | some op =>
      have hk : c.current.kind = .symbol op.symbol := (relOp_eq_some_iff _ _).mp hop
      refine Pinpoints.stepAt (Q := Anything) hk nofun hleft hdirect trivial
        (fun _ => (Expr.parser_pinpoints ctx).thenPure) ?_
      exact fun s us hus => ⟨op, s, us, rfl, hus⟩
  · rintro _ ⟨ts, ⟨l, hl⟩, _, ⟨op, s, us, rfl, r, hr⟩, rfl⟩
    exact ⟨_, .rel hl hr⟩

/-- Where no parenthesis stands, an atom is read once. -/
theorem atom_pinpoints :
    Pinpoints n StartsDirect (atom ctx (parser ctx)) (phrases (Derives .atom)) := by
  refine fun c hleft hdirect hstarts => .current_bind ?_
  have hrelation := relationParser_pinpoints ctx (P := StartsDirect) c hleft hdirect hstarts
  cases hk : c.current.kind with
  | keyword k =>
    cases k with
    | verdadeiro =>
      refine Pinpoints.stepAt (Q := Anything) hk nofun hleft hdirect trivial
        (fun _ => .pure) ?_
      rintro s us rfl
      exact ⟨_, .true⟩
    | falso =>
      refine Pinpoints.stepAt (Q := Anything) hk nofun hleft hdirect trivial
        (fun _ => .pure) ?_
      rintro s us rfl
      exact ⟨_, .false⟩
    | _ => exact hrelation
  | symbol k =>
    cases k with
    | openParen => exact absurd hk hstarts
    | _ => exact hrelation
  | _ => exact hrelation

theorem startsDirect_behind {c : Cursor} (hdirect : c.Direct)
    (hopens : opensPredicate c.current.kind = true) : StartsDirect c.advance.current.kind := by
  have hne : c.current.kind ≠ .endOfFile := by
    intro hk
    rw [hk] at hopens
    cases hopens
  exact hdirect.startsDirect (passes_current hne) hopens

theorem negated_pinpoints :
    Pinpoints n StartsDirect (negated ctx (parser ctx)) (phrases (Derives .negated)) := by
  refine Pinpoints.imp (L := signsOf (.keyword .nao) * phrases (Derives .atom))
    ((Pinpoints.signs (by simp) fun _ _ => on_keyword_eq_some_iff.mp).andThenAt (Q := StartsDirect)
      ?_ fun signs => ?_) ?_
  · rintro c _ c' hdirect hstarts ⟨signs, rfl⟩ hpass
    rcases List.eq_nil_or_concat signs with rfl | ⟨init, s, rfl⟩
    · obtain rfl := Cursor.passes_nil_iff.mp hpass
      exact hstarts
    · rw [List.concat_eq_append, List.map_append] at hpass
      obtain ⟨c₁, hinit, hlast⟩ := Cursor.passes_append_iff.mp hpass
      exact (hdirect.passes hinit).startsDirect hlast rfl
  · have hall := (atom_pinpoints ctx (n := n)).andThen fun inner =>
      (Pinpoints.lastSpan (n := n)).thenPure (a := fun stop =>
        signs.foldr (fun sign p => Pred.not p (sign.merge stop)) inner)
    rwa [mul_one] at hall
  · rintro _ ⟨_, ⟨signs, rfl⟩, us, ⟨f, hf⟩, rfl⟩
    exact ⟨_, derives_negated_iff.mpr ⟨signs, us, f, rfl, hf, rfl⟩⟩

/-- A chain of one connective, over operands of the level below. -/
theorem chain_pinpoints {l l' : PredLevel} {op : LogicOp}
    {operator : TokenKind Name → Option LogicOp} {p : Parser Pred}
    (hend : operator .endOfFile = none)
    (hop : ∀ kind o, operator kind = some o ↔ connective op kind o)
    (hderives : ∀ ts f, Derives l ts f ↔ Chained (connective op) (Derives l') .logic ts f)
    (htracks : ∀ n, Tracks 1 n p p) (hp : Pinpoints n StartsDirect p (phrases (Derives l'))) :
    Pinpoints n StartsDirect (chainLeft operator binary p) (phrases (Derives l)) := by
  refine (Pinpoints.chainLeft hend (fun kind o => (hop kind o).mp) (fun c hdirect ho => ?_) htracks
    hp).imp fun ts ⟨f, hf⟩ => ⟨f, (hderives ts f).mpr hf⟩
  obtain ⟨o, ho⟩ := Option.isSome_iff_exists.mp ho
  obtain ⟨-, hk⟩ := (hop _ _).mp ho
  refine startsDirect_behind hdirect ?_
  rw [hk]
  cases o <;> rfl

theorem parser_pinpoints : Pinpoints n StartsDirect (parser ctx) (phrases (Derives .or)) := by
  have hand := chain_pinpoints rfl andOp_eq_some_iff derives_and_iff
    (@Production.negated ctx).tracks (negated_pinpoints ctx (n := n))
  have hxor := chain_pinpoints rfl xorOp_eq_some_iff derives_xor_iff
    (@Production.conjunction ctx).tracks hand
  rw [parser_recursion.unfolds]
  exact chain_pinpoints rfl orOp_eq_some_iff derives_or_iff
    (@Production.exclusive ctx).tracks hxor

end Pred

/-! ## Commands -/

namespace CommandForm

theorem derives_skip (s : Span) :
    Derives [keywordAt .skip s] (.skip (wholeSpan [keywordAt .skip s])) :=
  .intro .skip

instance : Productive (phrases Derives) := ⟨_, _, derives_skip .nowhere⟩

instance : Productive (phrases Shape) := ⟨_, _, .skip (s := .nowhere)⟩

instance : Productive (phrases Branch) := by
  obtain ⟨ts, f, hf⟩ := Productive.exists_mem (L := phrases (PredForm.Derives .or))
  exact ⟨_, _, .intro (s := .nowhere) hf (derives_skip .nowhere)⟩

instance : Productive (phrases (SepBy (.symbol .semicolon) Derives)) :=
  ⟨_, _, .intro (derives_skip .nowhere) .nil⟩

end CommandForm

namespace Command

open CommandForm

variable (ctx : Context) {n : Nat} {P : TokenKind Name → Prop}

theorem hereSpan_pinpoints : Pinpoints n P hereSpan 1 := Pinpoints.lastSpan.thenPure

theorem assignParser_pinpoints : Pinpoints n P (assignParser ctx) (phrases Shape) := by
  refine Pinpoints.imp (L := identifiers * (tokenOf _ * phrases (ExprForm.Derives .sum)))
    (Pinpoints.identifier.andThen fun _ => (Pinpoints.symbol _).andThen fun _ =>
      (Expr.parser_pinpoints ctx).thenPure) ?_
  rintro _ ⟨_, ⟨x, s, rfl⟩, _, ⟨_, ⟨s₁, rfl⟩, ts, ⟨e, he⟩, rfl⟩, rfl⟩
  exact ⟨_, .assign he⟩

section
variable (h : Pinpoints n Anything (parser ctx) (phrases Derives))
include h

theorem branchParser_pinpoints :
    Pinpoints n StartsDirect (branchParser ctx (parser ctx)) (phrases Branch) := by
  refine Pinpoints.imp (L := phrases (PredForm.Derives .or) * (tokenOf _ * phrases Derives))
    ((Pred.parser_pinpoints ctx).andThen fun _ => (Pinpoints.keyword _).andThen fun _ =>
      h.thenPure) ?_
  rintro _ ⟨ts, ⟨p, hp⟩, _, ⟨_, ⟨s, rfl⟩, us, ⟨f, hf⟩, rfl⟩, rfl⟩
  exact ⟨_, .intro hp hf⟩

theorem caseParser_pinpoints : Pinpoints n P (caseParser (parser ctx)) (phrases Case) := by
  have hrest (negative : Bool) (start : Span) : Pinpoints n Anything (do
      let magnitude ← integer
      let value ← literal negative magnitude.1 (← spanFrom start)
      let _ ← symbol .colon
      let body ← parser ctx
      return (value, body))
      (integers * (tokenOf (.symbol .colon) * phrases Derives)) := by
    refine Pinpoints.imp (L := integers * (1 * (1 * (tokenOf _ * phrases Derives))))
      (Pinpoints.integer.andThen fun _ => (Pinpoints.spanFrom _).andThen fun _ =>
        (Pinpoints.literal _ _ _).andThen fun _ => (Pinpoints.symbol _).andThen fun _ =>
          h.thenPure) (by rw [one_mul, one_mul])
  have hsign (t : Token Name) (ht : t.toClass = .symbol .minus) : t.kind = .symbol .minus :=
    TokenKind.toClass_eq_symbol_iff.mp ht
  refine fun c hleft hdirect _ => .current_bind ?_
  refine PinpointsAt.imp (Pinpoints.eat_bind (by simp) hsign
    (fun _ => (hrest _ _).mono (Nat.sub_le n 1)) (hrest _ _) c hleft hdirect trivial) ?_
  have hlabel {label : CaseLabel} {ts us : List (Token Name)} (hts : CaseLabel.Derives ts label)
      (hus : us ∈ tokenOf (.symbol .colon) * phrases Derives) : ts ++ us ∈ phrases Case := by
    obtain ⟨_, ⟨s, rfl⟩, us, ⟨f, hf⟩, rfl⟩ := hus
    exact ⟨_, .intro hts hf⟩
  rintro _ (⟨_, ⟨s, rfl⟩, _, ⟨_, ⟨m, s₁, rfl⟩, us, hus, rfl⟩, rfl⟩ | ⟨_, ⟨m, s, rfl⟩, us, hus, rfl⟩)
  · show [symbolAt .minus s, integerAt m s₁] ++ us ∈ phrases Case
    exact hlabel .negative hus
  · exact hlabel .positive hus

end

section
variable (h : ∀ m < n, Pinpoints m Anything (parser ctx) (phrases Derives))
include h

theorem blockParser_pinpoints : Pinpoints n P (blockParser (parser ctx)) (phrases Shape) := by
  refine Pinpoints.imp (L := tokenOf _ * (phrases (SepBy (.symbol .semicolon) Derives) * tokenOf _))
    ((Pinpoints.symbol _).first (Pinpoints.nil_notMem_tokenOf _) fun _ hn =>
      (Pinpoints.sepBy (fun _ => parser_tracks ctx) (h (n - 1) (by omega))).andThen fun _ =>
        (Pinpoints.symbolAs _ _).thenPure) ?_
  rintro _ ⟨_, ⟨s, rfl⟩, _, ⟨ts, ⟨body, hbody⟩, _, ⟨s₁, rfl⟩, rfl⟩, rfl⟩
  exact ⟨_, .block hbody⟩

theorem condParser_pinpoints : Pinpoints n P (condParser ctx (parser ctx)) (phrases Shape) := by
  have hsplit : Pinpoints n P (condParser ctx (parser ctx)) (tokenOf (.keyword .se) *
      (phrases Branch * ((announcing (on (.keyword .senaose)) * phrases Branch)∗ *
        (tokenOf (.keyword .senao) * phrases Derives + 1)))) := by
    refine Pinpoints.afterWord rfl fun _ hn => ?_
    have hnested := h (n - 1) (by omega)
    have hbranch := branchParser_pinpoints ctx hnested
    refine hbranch.andThen fun _ => (Pinpoints.many (on_endOfFile (by simp)) (fun _ m =>
      (Production.branch.tracks m).mono (Nat.zero_le 1) (Nat.le_refl m)) (fun c hdirect hk => ?_)
      fun _ _ => hbranch.mono (Nat.sub_le _ 1)).andThen fun _ => ?_
    · obtain ⟨u, hu⟩ := Option.isSome_iff_exists.mp hk
      have hkind : c.current.kind = .keyword .senaose := on_keyword_eq_some_iff.mp hu
      exact Pred.startsDirect_behind hdirect (by rw [hkind]; rfl)
    · exact Pinpoints.eat_bind (by simp) (fun t ht => TokenKind.toClass_eq_keyword_iff.mp ht)
        (fun _ => (hnested.mono (Nat.sub_le _ 1)).thenPure) (hereSpan_pinpoints.map _).thenPure
  refine hsplit.imp ?_
  rintro _ ⟨_, ⟨s, rfl⟩, _, ⟨ts, ⟨⟨test, body⟩, hbranch⟩, _, ⟨us, hus, vs, hvs, rfl⟩, rfl⟩, rfl⟩
  obtain ⟨others, hothers⟩ :=
    Pinpoints.kstar_le_phrases (fun _ _ => on_keyword_eq_some_iff.mp) hus
  rcases hvs with ⟨_, ⟨s₁, rfl⟩, vs, ⟨last, hlast⟩, rfl⟩ | rfl
  · exact ⟨_, .cond hbranch hothers hlast⟩
  · show keywordAt .se s :: (ts ++ (us ++ [])) ∈ phrases Shape
    rw [List.append_nil]
    exact ⟨_, .condOnly hbranch hothers⟩

theorem loopParser_pinpoints : Pinpoints n P (loopParser ctx (parser ctx)) (phrases Shape) := by
  refine Pinpoints.imp
    (L := tokenOf _ * (phrases (PredForm.Derives .or) * (tokenOf _ * phrases Derives)))
    (Pinpoints.afterWord rfl fun _ hn => (Pred.parser_pinpoints ctx).andThen fun _ =>
      (Pinpoints.keyword _).andThen fun _ => (h (n - 1) (by omega)).thenPure) ?_
  rintro _ ⟨_, ⟨s, rfl⟩, _, ⟨ts, ⟨p, hp⟩, _, ⟨_, ⟨s₁, rfl⟩, us, ⟨f, hf⟩, rfl⟩, rfl⟩, rfl⟩
  exact ⟨_, .loop hp hf⟩

/-- What follows the start of a counting loop: its end, its step if it has one, and its body. -/
theorem countParser_pinpoints : Pinpoints n P (countParser ctx (parser ctx)) (phrases Shape) := by
  have hexpr (m : Nat) := Expr.parser_pinpoints ctx (n := m) (P := Anything)
  have hsplit : Pinpoints n P (countParser ctx (parser ctx)) (tokenOf (.keyword .para) *
      (identifiers * (tokenOf (.keyword .de) * (phrases (ExprForm.Derives .sum) *
        (tokenOf (.keyword .ate) * (phrases (ExprForm.Derives .sum) *
          (tokenOf (.keyword .passo) * (phrases (ExprForm.Derives .sum) *
              (tokenOf (.keyword .faca) * phrases Derives)) +
            1 * (tokenOf (.keyword .faca) * phrases Derives)))))))) := by
    refine (Pinpoints.keyword _).first (Pinpoints.nil_notMem_tokenOf _) fun _ hn => ?_
    have hnested := h (n - 1) (by omega)
    refine Pinpoints.identifier.andThen fun _ => (Pinpoints.keyword _).andThen fun _ => ?_
    refine (hexpr _).andThen fun _ => (Pinpoints.keyword _).andThen fun _ => ?_
    refine (hexpr _).andThen fun _ => Pinpoints.eat_bind (by simp)
      (fun t ht => TokenKind.toClass_eq_keyword_iff.mp ht) (fun _ => ?_) ?_
    · exact (hexpr _).andThen fun _ => (Pinpoints.keyword _).andThen fun _ =>
        (hnested.mono (Nat.sub_le _ 1)).thenPure
    · exact (hereSpan_pinpoints.map _).andThen fun _ => (Pinpoints.keyword _).andThen fun _ =>
        hnested.thenPure
  refine hsplit.imp ?_
  rintro _ ⟨_, ⟨s, rfl⟩, _, ⟨_, ⟨x, s₁, rfl⟩, _, ⟨_, ⟨s₂, rfl⟩, _, ⟨ts, ⟨start, hstart⟩, _,
    ⟨_, ⟨s₃, rfl⟩, _, ⟨us, ⟨stop, hstop⟩, ws, hws, rfl⟩, rfl⟩, rfl⟩, rfl⟩, rfl⟩, rfl⟩
  rcases hws with ⟨_, ⟨s₄, rfl⟩, _, ⟨vs, ⟨step, hstep⟩, _, ⟨_, ⟨s₅, rfl⟩, ws, ⟨f, hf⟩, rfl⟩, rfl⟩,
    rfl⟩ | ⟨_, rfl, _, ⟨_, ⟨s₄, rfl⟩, ws, ⟨f, hf⟩, rfl⟩, rfl⟩
  · exact ⟨_, .count hstart hstop hstep hf⟩
  · exact ⟨_, .countOnes hstart hstop hf⟩

theorem switchParser_pinpoints :
    Pinpoints n P (switchParser ctx (parser ctx)) (phrases Shape) := by
  have hsplit : Pinpoints n P (switchParser ctx (parser ctx)) (tokenOf (.keyword .escolha) *
      (phrases (ExprForm.Derives .sum) * ((announcing (on (.keyword .caso)) * phrases Case)∗ *
        (tokenOf (.keyword .outro) * (tokenOf (.symbol .colon) * phrases Derives))))) := by
    refine (Pinpoints.keyword _).first (Pinpoints.nil_notMem_tokenOf _) fun _ hn => ?_
    have hnested := h (n - 1) (by omega)
    refine (Expr.parser_pinpoints ctx).andThen fun _ => (Pinpoints.many (Q := Anything)
      (on_endOfFile (by simp)) (fun _ m => ((@Production.case ctx).tracks m).mono
        (Nat.zero_le 1) (Nat.le_refl m)) (fun _ _ _ => trivial) fun _ _ =>
      (caseParser_pinpoints ctx hnested).mono (Nat.sub_le _ 1)).andThen fun _ => ?_
    exact (Pinpoints.keywordAs _ _).andThen fun _ => (Pinpoints.symbol _).andThen fun _ =>
      hnested.thenPure
  refine hsplit.imp ?_
  rintro _ ⟨_, ⟨s, rfl⟩, _, ⟨ts, ⟨e, he⟩, _, ⟨us, hus, _, ⟨_, ⟨s₁, rfl⟩, _, ⟨_, ⟨s₂, rfl⟩, vs,
    ⟨f, hf⟩, rfl⟩, rfl⟩, rfl⟩, rfl⟩, rfl⟩
  obtain ⟨cases, hcases⟩ := Pinpoints.kstar_le_phrases (fun _ _ => on_keyword_eq_some_iff.mp) hus
  exact ⟨_, .switch he hcases hf⟩

theorem shapeParser_pinpoints :
    Pinpoints n P (shapeParser ctx (parser ctx)) (phrases Shape) := by
  refine fun c hleft hdirect hP => .current_bind ?_
  cases hk : c.current.kind with
  | identifier x => exact assignParser_pinpoints ctx c hleft hdirect hP
  | keyword k =>
    cases k with
    | skip =>
      refine Pinpoints.stepAt (Q := Anything) hk nofun hleft hdirect trivial (fun _ => .pure) ?_
      rintro s us rfl
      exact ⟨_, .skip⟩
    | se => exact condParser_pinpoints ctx h c hleft hdirect hP
    | enquanto => exact loopParser_pinpoints ctx h c hleft hdirect hP
    | para => exact countParser_pinpoints ctx h c hleft hdirect hP
    | escolha => exact switchParser_pinpoints ctx h c hleft hdirect hP
    | escreva =>
      refine Pinpoints.stepAt (Q := Anything) hk nofun hleft hdirect trivial
        (fun _ => (Expr.parser_pinpoints ctx).thenPure) ?_
      rintro s us ⟨e, he⟩
      exact ⟨_, .printInt he⟩
    | exiba =>
      refine Pinpoints.stepAt (Q := Anything) hk nofun hleft hdirect trivial
        (fun _ => Pinpoints.textLiteral.thenPure) ?_
      rintro s _ ⟨x, s₁, rfl⟩
      exact ⟨_, .printText⟩
    | _ => exact .unexpected
  | symbol k =>
    cases k with
    | openBrace => exact blockParser_pinpoints ctx h c hleft hdirect hP
    | _ => exact .unexpected
  | _ => exact .unexpected

end

theorem parser_pinpoints : Pinpoints n P (parser ctx) (phrases Derives) := by
  refine Pinpoints.of_anything ?_
  induction n using Nat.strongRecOn with
  | ind n ih =>
    rw [parser_recursion.unfolds]
    refine fun c hleft hdirect hP => .current_bind ?_
    refine PinpointsAt.imp (L := phrases Shape * 1) (((shapeParser_pinpoints ctx ih).andThen
      fun shape => (Pinpoints.spanFrom _).thenPure) c hleft hdirect hP) ?_
    rw [mul_one]
    rintro ts ⟨shape, hshape⟩
    exact ⟨_, .intro hshape⟩

end Command

/-! ## Programs -/

namespace Program

instance : Productive (phrases ProgramForm.Derives) :=
  ⟨_, _, .intro (.command (CommandForm.derives_skip .nowhere)) .nil⟩

variable (ctx : Context) {n : Nat} {P : TokenKind Name → Prop}

/-- The header of a function. -/
def headerPhrases : Language (Token Name) :=
  tokenOf (.keyword .definition) * (identifiers * (tokenOf (.symbol .openParen) *
    (phrases (Listed Identifier) * (tokenOf (.symbol .closeParen) * tokenOf (.symbol .equal)))))

theorem headerParser_pinpoints : Pinpoints n P headerParser headerPhrases := by
  have hname : Pinpoints n Anything (Prod.fst <$> identifier) (phrases Identifier) := by
    refine (Pinpoints.identifier.map _).imp ?_
    rintro _ ⟨x, s, rfl⟩
    exact ⟨x, .intro⟩
  refine (Pinpoints.keyword _).andThen fun _ => Pinpoints.identifier.andThen fun _ => ?_
  refine (Pinpoints.symbol _).andThen fun _ => .check_bind fun b => ?_
  rw [bind_ite]
  refine (Pinpoints.listed (fun _ => Tracks.identifier.map _) hname).andThen fun _ => ?_
  refine (Pinpoints.symbol _).andThen fun _ => ?_
  exact Pinpoints.imp (L := _ * 1) ((Pinpoints.symbol _).andThen fun _ =>
    (Pinpoints.spanFrom _).thenPure) (by rw [mul_one])

theorem instructionParser_pinpoints :
    Pinpoints n P (instructionParser ctx) (phrases InstructionForm.Derives) := by
  refine .check_bind fun b => .ite ?_ ?_
  · refine Pinpoints.imp (L := headerPhrases * phrases (ExprForm.Derives .sum))
      (headerParser_pinpoints.andThen fun _ => (Expr.parser_pinpoints _).thenPure) ?_
    rintro _ ⟨_, ⟨_, ⟨s, rfl⟩, _, ⟨_, ⟨x, s₁, rfl⟩, _, ⟨_, ⟨s₂, rfl⟩, _, ⟨ts, ⟨params, hparams⟩, _,
      ⟨_, ⟨s₃, rfl⟩, _, ⟨s₄, rfl⟩, rfl⟩, rfl⟩, rfl⟩, rfl⟩, rfl⟩, us, ⟨e, he⟩, rfl⟩
    have hd : InstructionForm.Derives (keywordAt .definition s :: identifierAt x s₁ ::
        symbolAt .openParen s₂ :: (ts ++ symbolAt .closeParen s₃ :: symbolAt .equal s₄ :: us))
        (.declare x params e (s.merge s₄)) := .declare hparams he
    exact ⟨_, by simpa only [List.append_assoc, List.cons_append, List.nil_append] using hd⟩
  · refine (Command.parser_pinpoints ctx).thenPure.imp ?_
    rintro ts ⟨f, hf⟩
    exact ⟨_, .command hf⟩

theorem instructions_pinpoints :
    Pinpoints n P (instructions ctx) (phrases ProgramForm.Derives) := by
  refine Pinpoints.of_anything ?_
  induction n using Nat.strongRecOn generalizing ctx with
  | ind n ih =>
    rw [instructions_recursion.unfolds]
    refine Pinpoints.imp (L := phrases InstructionForm.Derives *
      (tokenOf (.symbol .semicolon) * phrases ProgramForm.Derives + 1))
      ((instructionParser_pinpoints ctx).first ?_ fun r hn => ?_) ?_
    · rintro ⟨form, hform⟩
      exact InstructionForm.Derives.ne_nil hform rfl
    · refine Pinpoints.eat_bind (by simp) (fun t ht => TokenKind.toClass_eq_symbol_iff.mp ht)
        (fun _ => ?_) .pure
      exact ((ih (n - 1) (by omega) r.2).mono (Nat.sub_le _ 1)).thenPure
    · rintro _ ⟨ts, ⟨i, hi⟩, us, hus, rfl⟩
      rcases hus with ⟨_, ⟨s, rfl⟩, us, ⟨form, hform⟩, rfl⟩ | rfl
      · exact ⟨i :: form, sepBy_cons_iff.mpr (.inr ⟨ts, _, us, rfl, hi, rfl, hform⟩)⟩
      · show ts ++ [] ∈ phrases ProgramForm.Derives
        rw [List.append_nil]
        exact ⟨[i], sepBy_cons_iff.mpr (.inl ⟨rfl, hi⟩)⟩

/-- A program may be empty. -/
theorem parser_pinpoints (names : Names) :
    Pinpoints n P (parser names) (1 + phrases ProgramForm.Derives) := by
  rw [parser_eq_toEnd]
  refine .check_bind fun b => .ite (Pinpoints.pure.imp le_sup_left) (Pinpoints.imp ?_ le_sup_right)
  refine Pinpoints.imp (L := _ * 1) ((instructions_pinpoints _).andThen fun _ =>
    Pinpoints.endOfFile.thenPure) (by rw [mul_one])

variable {names : Names} {tokens ts : List (Token Name)} {t : Token Name} {e : ParseError}

theorem parse_eq_error_iff :
    parse names tokens = .error e ↔ parser names (.ofTokens tokens) = .error e := by
  rw [parse, StateT.run', map_eq_pure_bind]
  rcases parser names (.ofTokens tokens) with e' | ⟨program, c'⟩
  · simp [bind, Except.bind]
  · simp [bind, Except.bind, pure, Except.pure]

/-- An error against the grammar is at a token. The tokens before it can be completed, and whatever
has the same tokens up to that one has the same error. -/
theorem parse_error_pinpointed {last : Token Name} (hlast : tokens.getLast? = some last)
    (hend : last.isEndOfFile = true) (hdirect : Grammar.Direct tokens)
    (h : parse names tokens = .error e) (hcause : ¬ e.cause.BreaksRule) :
    ∃ ts t rest, tokens = ts ++ t :: rest ∧ e.span = t.span ∧
      (∃ us, ts ++ us ∈ 1 + phrases ProgramForm.Derives) ∧
      ∀ tokens', ts ++ [t] <+: tokens' → parse names tokens' = .error e := by
  have hpin : PinpointsAt (.ofTokens tokens) (parser names) _ :=
    parser_pinpoints (P := Anything) names _ (Nat.le_refl _) hdirect trivial
  rw [PinpointsAt, parse_eq_error_iff.mp h] at hpin
  obtain ⟨ts, c', hpass, hspan, hcomplete, hd⟩ := hpin.resolve_left hcause
  have htokens : tokens = ts ++ c'.ahead := hpass.1
  cases hahead : c'.ahead with
  | nil =>
    -- The end of file is not passed, so it is ahead.
    rw [hahead, List.append_nil] at htokens
    have hmem : last ∈ ts := htokens ▸ List.mem_of_getLast? hlast
    rw [hpass.2.2 last hmem] at hend
    cases hend
  | cons t rest =>
    have hcurrent : c'.current = t := by rw [Cursor.current, hahead]
    rw [hcurrent] at hspan hd
    exact ⟨ts, t, rest, hahead ▸ htokens, hspan, hcomplete,
      fun tokens' hpre => parse_eq_error_iff.mpr (hd _ ⟨rfl, hpre⟩)⟩

/-- No program starts with tokens that decide on an error against the grammar. -/
theorem not_prefix_of_decided (hdirect : Grammar.Direct (ts ++ [t]))
    (h : ∀ tokens', ts ++ [t] <+: tokens' → parse names tokens' = .error e)
    (hcause : ¬ e.cause.BreaksRule) {q : List (Token Name)} {last : Token Name}
    (hq : q = [] ∨ ∃ form, ProgramForm.Derives q form) (hend : last.isEndOfFile = true) :
    ¬ ts ++ [t] <+: q ++ [last] := by
  intro hpre
  obtain rfl | ⟨form, hd⟩ := hq
  · have hok : parse names [last] = .ok [] := parse_eq_ok_nil (by simp [readable, hend])
    cases hok.symm.trans (h _ hpre)
  -- No offence of the recast program hides what the parser makes of it.
  obtain ⟨q', form', hd', hrecast, hunmasked⟩ := ProgramForm.exists_recast hd
  have hpre' : ts ++ [t] <+: q' ++ [last] := (hrecast.append (.refl [last])).front hpre hdirect
  obtain ⟨form'', hd'', hnear, ho⟩ := exists_nearest hd'
  have hreport := parse_reports names (hd'.readable_append hend ▸ hd'') hnear
  rw [h _ hpre', ho] at hreport
  cases hoffence : ProgramForm.offence ⟨names, []⟩ form' with
  | none =>
    rw [hoffence] at hreport
    cases hreport
  | some o =>
    rw [hoffence] at hreport
    obtain ⟨_, ⟨⟩, hshows⟩ := hreport
    rw [Offence.Shows, hunmasked _ o hoffence] at hshows
    obtain rfl : e = o.error := hshows
    exact hcause o.breaksRule

/-- Where no predicate starts with a parenthesis, an error against the grammar is at the first token
that cannot be there: some program starts with the tokens before it, and none with these and the
token itself. -/
theorem parse_error_first_impossible {last : Token Name} {i : Nat}
    (hlast : tokens.getLast? = some last) (hend : last.isEndOfFile = true)
    (hspans : (tokens.map Token.span).Nodup)
    (hdirect : Grammar.Direct tokens) (h : parse names tokens = .error e)
    (hcause : e.cause = .invalidToken ∨ ∃ expected found, e.cause = .unexpected expected found)
    (ht : tokens[i]? = some t) (hspan : e.span = t.span) :
    (∃ q form, ProgramForm.Derives q form ∧ tokens.take i <+: q) ∧
      ∀ q last, (q = [] ∨ ∃ form, ProgramForm.Derives q form) → last.isEndOfFile = true →
        ¬ tokens.take (i + 1) <+: q ++ [last] := by
  have hbreaks : ¬ e.cause.BreaksRule := by
    rcases hcause with hc | ⟨expected, found, hc⟩
    · rw [hc]
      exact not_false
    · rw [hc]
      exact not_false
  obtain ⟨ts, t', rest, hsplit, hspan', ⟨us, hus⟩, hdecided⟩ :=
    parse_error_pinpointed hlast hend hdirect h hbreaks
  -- Both tokens have the span of the error, so they are the same one.
  have hi : i = ts.length := by
    have hlt : i < (tokens.map Token.span).length := by
      rw [List.length_map]
      exact (List.getElem?_eq_some_iff.mp ht).1
    refine (List.getElem?_inj hlt hspans).mp ?_
    rw [List.getElem?_map, ht, hsplit, Option.map_some, ← hspan, hspan']
    simp
  subst hi
  have hbefore : tokens.take ts.length = ts := by simp [hsplit]
  have hupto : tokens.take (ts.length + 1) = ts ++ [t'] := by simp [hsplit, List.take_append]
  rw [hbefore, hupto]
  refine ⟨?_, fun q last hq hend => not_prefix_of_decided ?_ hdecided hbreaks hq hend⟩
  · obtain hnil | ⟨form, hd⟩ := hus
    · obtain ⟨rfl, -⟩ := List.append_eq_nil_iff.mp hnil
      obtain ⟨q, form, hd⟩ := Productive.exists_mem (L := phrases ProgramForm.Derives)
      exact ⟨q, form, hd, List.nil_prefix⟩
    · exact ⟨_, form, hd, List.prefix_append ts us⟩
  · have hdirect : Grammar.Direct (ts ++ [t'] ++ rest) := by simpa [hsplit] using hdirect
    exact hdirect.left_of_append

/-- The tokens of `se x > 1 entao skip; senao`. -/
def strayElse : List (Token Name) :=
  [keywordAt .se ⟨0, 2⟩, identifierAt ⟨1⟩ ⟨3, 4⟩, symbolAt .greater ⟨5, 6⟩, integerAt 1 ⟨7, 8⟩,
    keywordAt .entao ⟨9, 14⟩, keywordAt .skip ⟨15, 19⟩, symbolAt .semicolon ⟨19, 20⟩,
    keywordAt .senao ⟨21, 26⟩, ⟨.endOfFile, ⟨26, 26⟩⟩]

/-- The semicolon ends the conditional, so `senao` cannot follow it. -/
theorem parse_error_first_impossible_senao : ∃ names e,
    lex "se x > 1 entao skip; senao" .initial = (strayElse, names) ∧
    parse names strayElse = .error e ∧ e.span = ⟨21, 26⟩ ∧
    (∃ q form, ProgramForm.Derives q form ∧ strayElse.take 7 <+: q) ∧
      ∀ q last, (q = [] ∨ ∃ form, ProgramForm.Derives q form) → last.isEndOfFile = true →
        ¬ strayElse.take 8 <+: q ++ [last] := by
  have hlex : lex "se x > 1 entao skip; senao" .initial = (strayElse, ⟨#["", "x"]⟩) := by
    decide +kernel
  have hparse : parse ⟨#["", "x"]⟩ strayElse =
      .error ⟨.unexpected "command" (.keyword .senao), ⟨21, 26⟩⟩ :=
    rfl
  exact ⟨_, _, hlex, hparse, rfl, parse_error_first_impossible rfl rfl (by decide)
    (by decide : strayElse.IsChain OpensNoParen) hparse (.inr ⟨_, _, rfl⟩) (i := 7) rfl rfl⟩

end Program

end Enquanto

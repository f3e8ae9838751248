import Enquanto.Proofs.InPlaceRules
import Enquanto.Proofs.Nodes

/-!
# What is parsed in place

Each production on drafts against the production on trees of the same name. A failed first reading
leaves no trace, so what comes after it adds the nodes that it would have added first.

* `Drafting.expr_lays`, `Drafting.pred_lays` and `Drafting.command_lays`: what is parsed in place is
  laid out as its tree is;
* `Drafting.parse_eq`: a token list is parsed in place as the module of its program, or fails with
  the same error;
* `Drafting.tryParse_exact`: a first reading that fails leaves the draft that was there before, and
  one that succeeds only adds to it;
* `Module.parse_isFlattening`: so what is parsed in place is the post-order of a program, with no
  node left over from a reading that was given up.
-/

namespace Enquanto

open Enquanto.Parser

namespace Drafting

/-! ## Expressions -/

section
variable {scope : ScopeId} {a a₁ a₂ : Arena}

/-- The span that is recorded with an expression is its own. -/
theorem exprSpan_of_holds {e : Expr} {id : ExprId} (h : a.HoldsExpr scope e id) :
    a.exprSpan id = e.span := by
  have hn : (a.expr? id).map Located.span = some e.span := h.node.1
  rw [Arena.exprSpan, hn, Option.getD_some]

/-- Two expressions that were laid out one behind the other have their spans. -/
theorem exprSpans_eq {left right : Expr} {l r : ExprId} (hl : Arena.layExpr scope left a = (l, a₁))
    (hr : Arena.layExpr scope right a₁ = (r, a₂)) :
    a₂.exprSpan l = left.span ∧ a₂.exprSpan r = right.span := by
  have hleft := Arena.layExpr_laid scope left a
  have hright := Arena.layExpr_laid scope right a₁
  rw [hl] at hleft
  rw [hr] at hright
  exact ⟨exprSpan_of_holds (hleft.holds.mono hright.laid.growth), exprSpan_of_holds hright.holds⟩

theorem arith_joins : Joins Arena.layExpr Expr.binary arith := by
  intro op d left right l r a₀ a₁ hl hr
  refine mirrors_add ?_
  obtain ⟨hsl, hsr⟩ := exprSpans_eq hl hr
  rw [Expr.binary, Arena.layExpr, hl, hsl, hsr]
  simp only [hr]

end

/-- Signs before an operand that was laid out. -/
theorem negs_lay {d : Draft} {inner : Expr} {id : ExprId} {a₀ : Arena}
    (h : Arena.layExpr d.scope inner a₀ = (id, d.arena)) (signs : List Span) :
    Mirrors d
      (do let stop ← lastSpan; return signs.foldr (fun sign e => .neg e (sign.merge stop)) inner)
      (do let stop ← read lastSpan
          signs.foldrM (fun sign id => add fun a => a.addExpr (.neg id) (sign.merge stop)) id)
      fun e id arena => Arena.layExpr d.scope e a₀ = (id, arena) := by
  refine Mirrors.read_bind fun stop c _ =>
    mirrors_foldrM (d := { d with cursor := c }) (fun sign d' e id he => mirrors_add ?_) h signs
  rw [Arena.layExpr, he]

section
variable {ctx : Context} {nested : Parser Expr} {nested' : Drafting ExprId}
  (h : Lays ctx Arena.layExpr nested nested')
include h

theorem call_lays (name : Name) (start : Span) :
    Lays ctx Arena.layExpr (Expr.callParser ctx nested name start)
      (call ctx.names nested' name start) := by
  intro d hd
  refine mirrors_advance_bind (mirrors_get ?_)
  rw [Functions.resolve_eq hd]
  cases d.functions.resolve name with
  | none => exact mirrors_throw
  | some function =>
    refine Mirrors.read_bind fun _ c₁ _ => ?_
    rw [arguments, bind_assoc]
    refine mirrors_check_bind ?_
    rw [bind_ite]
    refine (h.listed _ _).bind hd fun args ids c₂ a₂ hargs => ?_
    refine Mirrors.read_bind fun _ c₃ _ => Mirrors.read_bind fun span c₄ _ => mirrors_get ?_
    have hlen := length_layAll hargs
    by_cases harity : args.length = d.functions.arity function
    · simp only [hlen, harity, if_true]
      refine mirrors_add ?_
      rw [Arena.layExpr, layExprs_eq, hargs]
    · simp only [hlen, harity, if_false]
      exact mirrors_throw

theorem operand_lays : Lays ctx Arena.layExpr (Expr.operand ctx nested)
    (operand ctx.names nested') := by
  intro d hd
  refine mirrors_current_bind ?_
  rcases d.cursor.current with ⟨kind, span⟩
  cases kind with
  | integer magnitude =>
    refine mirrors_advance_bind (Mirrors.read_bind fun value c _ => mirrors_add ?_)
    rw [Arena.layExpr]
  | identifier name =>
    refine mirrors_get_bind ?_
    by_cases hnext : d.cursor.nextClass = .symbol .openParen
    · simp only [hnext, if_true]
      exact call_lays h name span d hd
    · simp only [hnext, if_false]
      refine mirrors_advance_bind (mirrors_get (mirrors_add ?_))
      rw [Arena.layExpr]
  | keyword k =>
    cases k with
    | leia =>
      refine mirrors_advance_bind (mirrors_add ?_)
      rw [Arena.layExpr]
    | _ => exact mirrors_unexpected
  | symbol k =>
    cases k with
    | openParen =>
      refine mirrors_advance_bind (h.bind hd fun inner id c₁ a₁ hinner => ?_)
      exact Mirrors.read_bind fun _ c₂ _ => mirrors_pure hinner
    | _ => exact mirrors_unexpected
  | _ => exact mirrors_unexpected

/-- An operand behind signs that have been read. -/
theorem operand_lays_negs (signs : List Span) : Lays ctx Arena.layExpr
    (do let inner ← Expr.operand ctx nested
        let stop ← lastSpan
        return signs.foldr (fun sign e => .neg e (sign.merge stop)) inner)
    (do let inner ← operand ctx.names nested'
        let stop ← read lastSpan
        signs.foldrM (fun sign id => add fun a => a.addExpr (.neg id) (sign.merge stop)) inner) :=
  fun _ hd => (operand_lays h).bind hd fun _ _ _ _ hinner => negs_lay hinner signs

theorem signed_lays : Lays ctx Arena.layExpr (Expr.signed ctx nested)
    (signed ctx.names nested') := by
  intro d hd
  refine Mirrors.read_bind fun signs c₁ _ => ?_
  rw [innermost, bind_assoc]
  refine mirrors_current_bind ?_
  have hplain := operand_lays_negs h signs { d with cursor := c₁ } hd
  cases signs.getLast? with
  | none =>
    dsimp only
    simpa only [bind_assoc, pure_bind] using hplain
  | some sign =>
    cases c₁.current.kind with
    | integer magnitude =>
      by_cases hleast : magnitude = Expr.leastMagnitude
      · -- The innermost sign joins the literal, the others stand before it.
        simp only [hleast, if_true, bind_assoc, pure_bind]
        exact mirrors_advance_bind (mirrors_add_bind (negs_lay (by rw [Arena.layExpr]) _))
      · simpa only [hleast, if_false, bind_assoc, pure_bind] using hplain
    | _ => simpa only [bind_assoc, pure_bind] using hplain

theorem sum_lays : Lays ctx Arena.layExpr (Expr.sum ctx nested) (sum ctx.names nested') :=
  arith_joins.chainLeft <| arith_joins.chainLeft <| arith_joins.chainLeft <| signed_lays h

end

theorem exprUpTo_lays (ctx : Context) (bound : List (Token Name)) :
    Lays ctx Arena.layExpr (Expr.parserUpTo ctx bound) (exprUpTo ctx.names bound) := by
  induction bound with
  | nil => exact fun d _ => mirrors_unexpected
  | cons _ bound ih => exact sum_lays ih

theorem expr_lays (ctx : Context) :
    Lays ctx Arena.layExpr (Expr.parser ctx) (expr ctx.names) :=
  fun d hd => mirrors_get_bind (exprUpTo_lays ctx d.cursor.ahead d hd)

/-! ## Predicates -/

section
variable {scope : ScopeId} {a a₁ a₂ : Arena}

/-- The span that is recorded with a predicate is its own. -/
theorem predSpan_of_holds {p : Pred} {id : PredId} (h : a.HoldsPred scope p id) :
    a.predSpan id = p.span := by
  have hn : (a.pred? id).map Located.span = some p.span := h.node.1
  rw [Arena.predSpan, hn, Option.getD_some]

theorem predSpans_eq {left right : Pred} {l r : PredId} (hl : Arena.layPred scope left a = (l, a₁))
    (hr : Arena.layPred scope right a₁ = (r, a₂)) :
    a₂.predSpan l = left.span ∧ a₂.predSpan r = right.span := by
  have hleft := Arena.layPred_laid scope left a
  have hright := Arena.layPred_laid scope right a₁
  rw [hl] at hleft
  rw [hr] at hright
  exact ⟨predSpan_of_holds (hleft.holds.mono hright.laid.growth), predSpan_of_holds hright.holds⟩

theorem logic_joins : Joins Arena.layPred Pred.binary logic := by
  intro op d left right l r a₀ a₁ hl hr
  refine mirrors_add ?_
  obtain ⟨hsl, hsr⟩ := predSpans_eq hl hr
  rw [Pred.binary, Arena.layPred, hl, hsl, hsr]
  simp only [hr]

end

theorem relation_lays (ctx : Context) :
    Lays ctx Arena.layPred (Pred.relationParser ctx) (relation ctx.names) := by
  intro d hd
  refine (expr_lays ctx).bind hd fun left l c₁ a₁ hl => mirrors_current_bind ?_
  cases Pred.relOp c₁.current.kind with
  | none => exact mirrors_unexpected
  | some op =>
    refine mirrors_advance_bind ((expr_lays ctx).bind hd fun right r c₂ a₂ hr => mirrors_add ?_)
    obtain ⟨hsl, hsr⟩ := exprSpans_eq hl hr
    rw [Pred.relation, Arena.layPred, hl, hsl, hsr]
    simp only [hr]

section
variable {ctx : Context} {nested : Parser Pred} {nested' : Drafting PredId}
  (h : Lays ctx Arena.layPred nested nested')
include h

theorem parenthesised_lays :
    Lays ctx Arena.layPred (Pred.parenthesised nested) (parenthesised nested') := by
  intro d hd
  refine Mirrors.read_bind fun _ c₁ _ => h.bind hd fun inner id c₂ a₂ hinner => ?_
  exact Mirrors.read_bind fun _ c₃ _ => mirrors_pure hinner

variable (hgrow : Growing nested')
include hgrow

theorem atom_lays : Lays ctx Arena.layPred (Pred.atom ctx nested) (atom ctx.names nested') := by
  intro d hd
  refine mirrors_current_bind ?_
  rcases d.cursor.current with ⟨kind, span⟩
  cases kind with
  | keyword k =>
    cases k with
    | verdadeiro | falso =>
      refine mirrors_advance_bind (mirrors_add ?_)
      rw [Arena.layPred]
    | _ => exact relation_lays ctx d hd
  | symbol s =>
    cases s with
    | openParen =>
      exact (parenthesised_lays h d hd).orElse (parenthesised_growing hgrow)
        (fun _ _ _ hinner => .of_pure hinner) (relation_lays ctx d hd)
    | _ => exact relation_lays ctx d hd
  | _ => exact relation_lays ctx d hd

theorem negated_lays :
    Lays ctx Arena.layPred (Pred.negated ctx nested) (negated ctx.names nested') := by
  intro d hd
  refine Mirrors.read_bind fun signs c₁ _ => (atom_lays h hgrow).bind hd fun inner id c₂ a₂ hi => ?_
  refine Mirrors.read_bind fun stop c₃ _ =>
    mirrors_foldrM (d := { d with cursor := c₃, arena := a₂ }) (fun sign d' p id hp => ?_) hi signs
  refine mirrors_add ?_
  rw [Arena.layPred, hp]

theorem disjunction_lays :
    Lays ctx Arena.layPred (Pred.disjunction ctx nested) (disjunction ctx.names nested') :=
  logic_joins.chainLeft <| logic_joins.chainLeft <| logic_joins.chainLeft <| negated_lays h hgrow

end

theorem predUpTo_lays (ctx : Context) (bound : List (Token Name)) :
    Lays ctx Arena.layPred (Pred.parserUpTo ctx bound) (predUpTo ctx.names bound) := by
  induction bound with
  | nil => exact fun d _ => mirrors_unexpected
  | cons _ bound ih => exact disjunction_lays ih (predUpTo_growing ctx.names bound)

theorem pred_lays (ctx : Context) :
    Lays ctx Arena.layPred (Pred.parser ctx) (pred ctx.names) :=
  fun d hd => mirrors_get_bind (predUpTo_lays ctx d.cursor.ahead d hd)

/-! ## Commands -/

theorem layCommands_eq (scope : ScopeId) (cs : List Command) (a : Arena) :
    Arena.layCommands scope cs a = layAll (Arena.layCommand scope) cs a := by
  induction cs generalizing a with
  | nil => rfl
  | cons c cs ih => simp only [Arena.layCommands, layAll, ih]

/-- Appends the test of a branch, and then its command. -/
def layBranch (scope : ScopeId) (branch : Pred × Command) (a : Arena) :
    (PredId × CommandId) × Arena :=
  let (test, a) := Arena.layPred scope branch.1 a
  let (body, a) := Arena.layCommand scope branch.2 a
  ((test, body), a)

theorem layBranches_eq (scope : ScopeId) (bs : List (Pred × Command)) (a : Arena) :
    Arena.layBranches scope bs a = layAll (layBranch scope) bs a := by
  induction bs generalizing a with
  | nil => rfl
  | cons b bs ih => simp only [Arena.layBranches, layAll, layBranch, ih]

/-- Appends the command of a case. -/
def layCase (scope : ScopeId) (case : Int32 × Command) (a : Arena) : (Int32 × CommandId) × Arena :=
  let (body, a) := Arena.layCommand scope case.2 a
  ((case.1, body), a)

theorem layCases_eq (scope : ScopeId) (cs : List (Int32 × Command)) (a : Arena) :
    Arena.layCases scope cs a = layAll (layCase scope) cs a := by
  induction cs generalizing a with
  | nil => rfl
  | cons c cs ih => simp only [Arena.layCases, layAll, layCase, ih]

/-- The work gives what is added for the command once its span is known, behind its parts. -/
def Shapes (ctx : Context) (p : Parser (Span → Command)) (work : Drafting Shape) : Prop :=
  ∀ d : Draft, d.functions.signatures = ctx.declared → Mirrors d p work fun shape lay arena =>
    ∀ span, Arena.layCommand d.scope (shape span) d.arena = lay span arena

theorem assign_shapes (ctx : Context) :
    Shapes ctx (Command.assignParser ctx) (assign ctx.names) := by
  intro d hd
  refine Mirrors.read_bind fun target c₁ _ => Mirrors.read_bind fun _ c₂ _ => ?_
  refine (expr_lays ctx).bind hd fun value id c₃ a₃ hvalue => mirrors_get ?_
  refine mirrors_pure fun span => ?_
  rw [Arena.layCommand, hvalue]

theorem implicitSkip_lays {ctx : Context} :
    Lays ctx Arena.layCommand (Command.skip <$> Command.hereSpan) implicitSkip := by
  intro d _
  rw [map_eq_pure_bind]
  refine Mirrors.read_bind fun span c _ => mirrors_add ?_
  rw [Arena.layCommand]

theorem implicitOne_lays {ctx : Context} :
    Lays ctx Arena.layExpr (Expr.int 1 <$> Command.hereSpan) implicitOne := by
  intro d _
  rw [map_eq_pure_bind]
  refine Mirrors.read_bind fun span c _ => mirrors_add ?_
  rw [Arena.layExpr]

section
variable {ctx : Context} {nested : Parser Command} {nested' : Drafting CommandId}
  (h : Lays ctx Arena.layCommand nested nested')
include h

theorem block_shapes : Shapes ctx (Command.blockParser nested) (block nested') := by
  intro d hd
  refine Mirrors.read_bind fun _ c₁ _ => (h.sepBy _).bind hd fun body ids c₂ a₂ hbody => ?_
  refine Mirrors.read_bind fun _ c₃ _ => mirrors_pure fun span => ?_
  rw [Arena.layCommand, layCommands_eq, hbody]

theorem branch_lays :
    Lays ctx layBranch (Command.branchParser ctx nested) (branch ctx.names nested') := by
  intro d hd
  refine (pred_lays ctx).bind hd fun test t c₁ a₁ ht => Mirrors.read_bind fun _ c₂ _ => ?_
  refine h.bind hd fun body b c₃ a₃ hb => mirrors_pure ?_
  rw [layBranch, ht]
  simp only [hb]

theorem switchCase_lays : Lays ctx layCase (Command.caseParser nested) (switchCase nested') := by
  intro d hd
  refine mirrors_current_bind (Mirrors.read_bind fun negative c₁ _ => ?_)
  refine Mirrors.read_bind fun magnitude c₂ _ => Mirrors.read_bind fun span c₃ _ => ?_
  refine Mirrors.read_bind fun value c₄ _ => Mirrors.read_bind fun _ c₅ _ => ?_
  refine h.bind hd fun body b c₆ a₆ hb => mirrors_pure ?_
  rw [layCase, hb]

theorem loop_shapes :
    Shapes ctx (Command.loopParser ctx nested) (loop ctx.names nested') := by
  intro d hd
  refine Mirrors.read_bind fun _ c₁ _ => (pred_lays ctx).bind hd fun test t c₂ a₂ ht => ?_
  refine Mirrors.read_bind fun _ c₃ _ => h.bind hd fun body b c₄ a₄ hb => ?_
  refine mirrors_pure fun span => ?_
  rw [Arena.layCommand, ht]
  simp only [hb]

theorem switch_shapes :
    Shapes ctx (Command.switchParser ctx nested) (switch ctx.names nested') := by
  intro d hd
  refine Mirrors.read_bind fun _ c₁ _ => (expr_lays ctx).bind hd fun selector s c₂ a₂ hs => ?_
  refine (Lays.many (fun _ => switchCase_lays h) _).bind hd fun cases ids c₃ a₃ hcases => ?_
  refine Mirrors.read_bind fun _ c₄ _ => Mirrors.read_bind fun _ c₅ _ => ?_
  refine h.bind hd fun default b c₆ a₆ hb => mirrors_pure fun span => ?_
  rw [Arena.layCommand, hs]
  simp only [layCases_eq, hcases, hb]

theorem cond_shapes : Shapes ctx (Command.condParser ctx nested) (cond ctx.names nested') := by
  intro d hd
  refine Mirrors.read_bind fun _ c₁ _ => (branch_lays h).bind hd fun first b c₂ a₂ hb => ?_
  refine (Lays.many (fun _ => branch_lays h) _).bind hd fun others ids c₃ a₃ hothers => ?_
  refine h.optional_bind implicitSkip_lays hd fun last l c₄ a₄ hl => mirrors_pure fun span => ?_
  rw [layBranch] at hb
  rw [Arena.layCommand]
  cases hb
  simp only [layBranches_eq, hothers, hl]

theorem count_shapes :
    Shapes ctx (Command.countParser ctx nested) (count ctx.names nested') := by
  intro d hd
  refine Mirrors.read_bind fun _ c₁ _ => Mirrors.read_bind fun var c₂ _ => ?_
  refine Mirrors.read_bind fun _ c₃ _ => (expr_lays ctx).bind hd fun start i c₄ a₄ hi => ?_
  refine Mirrors.read_bind fun _ c₅ _ => (expr_lays ctx).bind hd fun stop j c₆ a₆ hj => ?_
  refine (expr_lays ctx).optional_bind implicitOne_lays hd fun step k c₇ a₇ hk => ?_
  refine Mirrors.read_bind fun _ c₈ _ => h.bind hd fun body b c₉ a₉ hb => ?_
  refine mirrors_get (mirrors_pure fun span => ?_)
  rw [Arena.layCommand, hi]
  simp only [hj, hk, hb]

theorem shape_shapes :
    Shapes ctx (Command.shapeParser ctx nested) (shape ctx.names nested') := by
  intro d hd
  refine mirrors_current_bind ?_
  rcases d.cursor.current with ⟨kind, span⟩
  cases kind with
  | identifier _ => exact assign_shapes ctx d hd
  | keyword k =>
    cases k with
    | skip =>
      refine mirrors_advance_bind (mirrors_pure fun span => ?_)
      rw [Arena.layCommand]
    | se => exact cond_shapes h d hd
    | enquanto => exact loop_shapes h d hd
    | para => exact count_shapes h d hd
    | escolha => exact switch_shapes h d hd
    | escreva =>
      refine mirrors_advance_bind ((expr_lays ctx).bind hd fun value id c a hvalue => ?_)
      refine mirrors_pure fun span => ?_
      rw [Arena.layCommand, hvalue]
    | exiba =>
      refine mirrors_advance_bind (Mirrors.read_bind fun text c _ => mirrors_pure fun span => ?_)
      rw [Arena.layCommand]
    | _ => exact mirrors_unexpected
  | symbol s =>
    cases s with
    | openBrace => exact block_shapes h d hd
    | _ => exact mirrors_unexpected
  | _ => exact mirrors_unexpected

end

theorem commandUpTo_lays (ctx : Context) (bound : List (Token Name)) :
    Lays ctx Arena.layCommand (Command.parserUpTo ctx bound) (commandUpTo ctx.names bound) := by
  induction bound with
  | nil => exact fun d _ => mirrors_unexpected
  | cons _ bound ih =>
    intro d hd
    refine mirrors_current_bind ((shape_shapes ih d hd).bind fun shape lay c₁ a₁ _ hshape => ?_)
    exact Mirrors.read_bind fun span c₂ _ => mirrors_add (hshape span)

theorem command_lays (ctx : Context) :
    Lays ctx Arena.layCommand (Command.parser ctx) (command ctx.names) :=
  fun d hd => mirrors_get_bind (commandUpTo_lays ctx d.cursor.ahead d hd)

end Drafting

/-! ## Programs -/

namespace Functions

variable {fs : Functions}

theorem signatures_declare (name : Name) (params : List Name) (scope : ScopeId) (span : Span) :
    (fs.declare name params scope span).2.signatures = ⟨name, params.length⟩ :: fs.signatures := by
  simp [signatures, declare, Function.arity]

theorem signatures_setBody (id : FunctionId) (body : ExprId) :
    (fs.setBody id body).signatures = fs.signatures := by
  refine congrArg List.reverse (List.ext_getElem? fun i => ?_)
  simp only [setBody, List.getElem?_map, Array.getElem?_toList, Array.getElem?_modify]
  split
  · cases fs.entries[i]? <;> rfl
  · rfl

end Functions

/-- The module that a draft has come to, with the steps so far. -/
def Draft.module (d : Draft) (steps : Array Step) : Module :=
  ⟨d.arena, d.functions, d.scopes, steps⟩

namespace Drafting

variable {α β : Type}

/-- The work may change the draft, but not its cursor, where the parser does nothing. -/
theorem Simulates.work_bind {d d' : Draft} {work : Drafting β} {b : β} {γ : Type} {p : Parser α}
    {next : β → Drafting γ} {post : α → γ → Draft → Prop} (hw : work d = .ok b d')
    (hc : d'.cursor = d.cursor) (h : Simulates d' p (next b) post) :
    Simulates d p (work >>= next) post := by
  unfold Simulates at h ⊢
  rw [← hc, bind_of_ok hw]
  exact h

theorem Simulates.inScope {d : Draft} {scope : ScopeId} {p : Parser α} {work : Drafting β}
    {post : α → β → Draft → Prop} (h : Simulates { d with scope } p work post) :
    Simulates d p (inScope scope work) fun a b d' =>
      ∃ d₁, post a b d₁ ∧ d' = { d₁ with scope := d.scope } := by
  unfold Simulates at h ⊢
  cases hr : p d.cursor with
  | ok x =>
    rw [hr] at h
    obtain ⟨b, d', hw, hc, hpost⟩ := h
    refine ⟨b, { d' with scope := d.scope }, ?_, hc, d', hpost, rfl⟩
    rw [Drafting.inScope, hw]
  | error e =>
    rw [hr] at h
    obtain ⟨d', hw⟩ := h
    refine ⟨{ d' with scope := d.scope }, ?_⟩
    rw [Drafting.inScope, hw]

/-- The module grows by the instruction that is read, and the next one is read with the functions
that it has then. -/
theorem instruction_simulates {ctx : Context} {d : Draft}
    (hd : d.functions.signatures = ctx.declared) (hroot : d.scope = .root) :
    Simulates d (Program.instructionParser ctx) (instruction ctx.names) fun read step d' =>
      (read.2.names = ctx.names ∧ d'.functions.signatures = read.2.declared ∧ d'.scope = .root) ∧
        ∀ steps, (d.module steps).add read.1 = d'.module (steps.push step) := by
  refine Simulates.read_bind fun declares c₁ _ => ?_
  cases declares with
  | false =>
    refine Simulates.bind (command_lays ctx { d with cursor := c₁ } hd) fun command id d' _ hc => ?_
    obtain ⟨hd', hlay⟩ := hc
    rw [hroot] at hlay
    refine .of_pure ⟨?_, fun steps => ?_⟩
    · rw [hd']
      exact ⟨rfl, hd, hroot⟩
    · rw [Module.add, Draft.module, hlay, hd', Draft.module]
  | true =>
    simp only [if_true, declaration, bind_assoc]
    refine Simulates.read_bind fun header c₂ _ => ?_
    obtain ⟨name, params, span⟩ := header
    -- The body is read with the function in the table, and with variables of its own scope.
    have hdeclared : (d.functions.declare name params ⟨d.scopes.size⟩ span).2.signatures =
        (ctx.declare ⟨name, params.length⟩).declared := by
      rw [Functions.signatures_declare, hd]
      rfl
    refine Simulates.work_bind rfl rfl (Simulates.work_bind rfl rfl ?_)
    refine (expr_lays _ _ hdeclared).inScope.bind fun body id d' _ hbody => ?_
    obtain ⟨d₁, ⟨hd₁, hlay⟩, rfl⟩ := hbody
    have hfunctions : d₁.functions = (d.functions.declare name params ⟨d.scopes.size⟩ span).2 :=
      congrArg Draft.functions hd₁
    have hscopes : d₁.scopes = (d.scopes.add .root).2 :=
      (congrArg Draft.scopes hd₁).trans (congrArg (fun scope => (d.scopes.add scope).2) hroot)
    have hbody : Arena.layExpr (d.scopes.add .root).1 body d.arena = (id, d₁.arena) := hlay
    refine Simulates.work_bind rfl rfl (.of_pure ⟨⟨rfl, ?_, hroot⟩, fun steps => ?_⟩)
    · exact (Functions.signatures_setBody _ _).trans (by rw [hfunctions, hdeclared])
    · simp only [Module.add, Draft.module, hbody, hfunctions, hscopes]
      rfl

/-- The module grows by all instructions that are read, one by one. -/
theorem instructionsUpTo_simulates (bound : List (Token Name)) :
    ∀ (ctx : Context) (d : Draft), d.functions.signatures = ctx.declared → d.scope = .root →
      Simulates d (Program.instructionsUpTo ctx bound) (instructionsUpTo ctx.names bound)
        fun program steps d' => ∀ before,
          program.foldl Module.add (d.module before) = d'.module (before ++ steps.toArray) := by
  induction bound with
  | nil => exact fun _ _ _ _ => ⟨_, rfl⟩
  | cons _ bound ih =>
    intro ctx d hd hroot
    refine (instruction_simulates hd hroot).bind fun read step d₁ _ hfirst => ?_
    obtain ⟨first, ctx₁⟩ := read
    obtain ⟨⟨hnames, hd₁, hroot₁⟩, hadd⟩ := hfirst
    refine Simulates.read_bind fun more c₂ _ => ?_
    cases more with
    | false =>
      refine Simulates.of_pure fun before => ?_
      exact hadd before
    | true =>
      rw [← hnames]
      refine (ih ctx₁ { d₁ with cursor := c₂ } hd₁ hroot₁).bind
        fun rest steps d₂ _ hrest => Simulates.of_pure fun before => ?_
      rw [List.foldl_cons, hadd before]
      refine (hrest (before.push step)).trans ?_
      simp

/-- The module of the program that is read is what the draft has come to. -/
theorem program_simulates (names : Names) (c : Cursor) :
    Simulates { cursor := c } (Program.parser names) (program names)
      fun program steps d' => Module.ofProgram program = d'.module steps.toArray := by
  refine Simulates.get_bind ?_
  cases c.isAtEnd with
  | true => exact .of_pure rfl
  | false =>
    refine Simulates.get_bind ?_
    refine (instructionsUpTo_simulates c.ahead ⟨names, []⟩ { cursor := c } rfl rfl).bind
      fun program steps d' _ hsteps => Simulates.read_bind fun _ c' _ => .of_pure ?_
    refine (hsteps #[]).trans ?_
    rw [Array.empty_append]
    rfl

/-- Read in place, a token list has the module of its program, or the same error. -/
theorem parse_eq (names : Names) (tokens : List (Token Name)) :
    parse names tokens = (Program.parse names tokens).map Module.ofProgram := by
  have h := program_simulates names (.ofTokens tokens)
  unfold Simulates at h
  unfold parse Program.parse StateT.run'
  cases hp : Program.parser names (.ofTokens tokens) with
  | ok x =>
    rw [hp] at h
    obtain ⟨steps, d', hw, -, hm⟩ := h
    rw [hw]
    exact congrArg _ hm.symm
  | error e =>
    rw [hp] at h
    obtain ⟨d', hw⟩ := h
    rw [hw]
    rfl

/-- A first reading of a predicate in parentheses is exact, whatever is tried inside it. If it
fails, the draft is the one that was there before; if not, that one has grown. The parser that tries
it reads every token list as its program is read and laid out. -/
theorem tryParse_exact (names : Names) (tokens : List (Token Name)) :
    parse names tokens = (Program.parse names tokens).map Module.ofProgram ∧
      ∀ (bound : List (Token Name)) (d : Draft),
        match parenthesised (predUpTo names bound) d with
        | .ok id d' =>
          tryParse (parenthesised (predUpTo names bound)) d = .ok (some id) d' ∧ d.Grows d'
        | .error _ _ => tryParse (parenthesised (predUpTo names bound)) d = .ok none d := by
  refine ⟨parse_eq names tokens, fun bound d => ?_⟩
  have hgrows := parenthesised_growing (predUpTo_growing names bound) d
  unfold tryParse
  cases hfirst : parenthesised (predUpTo names bound) d with
  | ok id d' =>
    rw [hfirst] at hgrows
    exact ⟨rfl, hgrows⟩
  | error e d' =>
    rw [hfirst] at hgrows
    exact congrArg _ hgrows.restore

end Drafting

namespace Module

/-- The module of every token list that is parsed in place is exactly the post-order of its
program. -/
theorem parse_isFlattening (names : Names) (tokens : List (Token Name)) (m : Module)
    (h : Drafting.parse names tokens = .ok m) :
    ∃ program, Program.parse names tokens = .ok program ∧ m = ofProgram program ∧
      m.IsFlattening program := by
  rw [Drafting.parse_eq] at h
  cases hp : Program.parse names tokens with
  | error e =>
    rw [hp] at h
    cases h
  | ok program =>
    rw [hp] at h
    cases h
    exact ⟨program, rfl, rfl, ofProgram_isFlattening program⟩

/-- The tokens of `se (1) > 0 entao skip`. The parenthesis is first taken for one around a
predicate. -/
def comparison : List (Token Name) :=
  [⟨.keyword .se, ⟨0, 2⟩⟩, ⟨.symbol .openParen, ⟨3, 4⟩⟩, ⟨.integer 1, ⟨4, 5⟩⟩,
    ⟨.symbol .closeParen, ⟨5, 6⟩⟩, ⟨.symbol .greater, ⟨7, 8⟩⟩, ⟨.integer 0, ⟨9, 10⟩⟩,
    ⟨.keyword .entao, ⟨11, 16⟩⟩, ⟨.keyword .skip, ⟨17, 21⟩⟩]

/-- The first reading leaves no node behind. -/
theorem parse_isFlattening_comparison : ∃ m : Module,
    Drafting.parse .initial comparison = .ok m ∧
    (m.arena.exprs.size, m.arena.preds.size, m.arena.commands.size) = (2, 1, 3) ∧
    ∃ program, Program.parse .initial comparison = .ok program ∧ m = ofProgram program ∧
      m.IsFlattening program := by
  have h : Drafting.parse .initial comparison = .ok (ofProgram
      [.command (.cond (.rel .gt (.int 1 ⟨4, 5⟩) (.int 0 ⟨9, 10⟩) ⟨4, 10⟩) (.skip ⟨17, 21⟩) []
        (.skip ⟨21, 21⟩) ⟨0, 21⟩)]) := by
    decide +kernel
  exact ⟨_, h, rfl, parse_isFlattening .initial comparison _ h⟩

end Module

end Enquanto

import Enquanto.Program.Parser
import Enquanto.Proofs.ParserDescent

/-!
# Reading ends

Every production of the grammar takes at least one token, and calls a production that it nests only
after it has taken one. So the recursion of the parsers descends: the tokens left go down, and where
they do not, as from one level of the operators to the next, the level does. A second reading of the
same tokens, at a `(` in a predicate, has as many left as the first had. Nothing behind the first
end of file is ever looked at.

* `Grammar.Production`: the productions, and `Grammar.Production.takes`: each takes a token;
* `Program.parse_ends`: reading a token list.
-/

namespace Enquanto

open Grammar

open Enquanto.Parser

/-! ## What the parsers take -/

section
variable (ctx : Context) {n : Nat}

namespace Expr

variable {f g : Parser Expr} (h : ∀ m < n, Tracks 1 m f g)
include h

theorem callParser_tracks (name : Name) (start : Span) :
    Tracks 1 n (callParser ctx f name start) (callParser ctx g name start) := by
  refine Tracks.advance.before fun _ => ?_
  split
  · exact .throw
  · refine (Tracks.symbol _).first fun _ _ => (Tracks.check _).andThen fun b => ?_
    rw [bind_ite, bind_ite]
    have hargs := Tracks.sepBy (k := .symbol .comma) (by simp) (h (n - 1) (by omega))
    refine Tracks.andThen (.ite .pure (hargs.mono (Nat.zero_le 1) (Nat.le_refl _))) fun args => ?_
    refine (Tracks.expectAs (by simp) _).andThen fun _ => (Tracks.spanFrom _).andThen fun _ => ?_
    split
    · exact .pure
    · exact .throw

theorem operand_tracks : Tracks 1 n (operand ctx f) (operand ctx g) := by
  refine Tracks.current_bind fun c d hcd hleft => ?_
  cases hk : c.current.kind with
  | integer m =>
    exact Tracks.step (l := 0) hcd (Tracks.isEndOfFile_of_kind (by simp [hk])) hleft fun _ =>
      (Tracks.literal _ _ _).andThen fun _ => .pure
  | identifier name =>
    have hc := Tracks.isEndOfFile_of_kind (t := c.current) (by simp [hk])
    simp only [get_bind, ← hcd.nextClass_eq hc]
    split
    · exact callParser_tracks ctx h _ _ c d hcd hleft
    · exact Tracks.step_pure hcd hc
  | keyword k =>
    cases k with
    | leia => exact Tracks.step_pure hcd (Tracks.isEndOfFile_of_kind (by simp [hk]))
    | _ => exact Tracks.unexpected _ c d hcd hleft
  | symbol k =>
    cases k with
    | openParen =>
      exact Tracks.step (l := 0) hcd (Tracks.isEndOfFile_of_kind (by simp [hk])) hleft fun _ =>
        (h (n - 1) (by omega)).andThen fun _ => (Tracks.symbol _).andThen fun _ => .pure
    | _ => exact Tracks.unexpected _ c d hcd hleft
  | _ => exact Tracks.unexpected _ c d hcd hleft

theorem signed_tracks : Tracks 1 n (signed ctx f) (signed ctx g) := by
  refine (Tracks.signs (by simp)).before fun signs => ?_
  have hend (m : Nat) (signs : List Span) (inner : Expr) :
      Tracks 0 m (do
        let stop ← Parser.lastSpan
        return signs.foldr (fun sign e => Expr.neg e (sign.merge stop)) inner) (do
        let stop ← Parser.lastSpan
        return signs.foldr (fun sign e => Expr.neg e (sign.merge stop)) inner) :=
    Tracks.lastSpan.andThen fun _ => .pure
  have hoperand := (operand_tracks ctx h).first fun inner _ => hend _ signs inner
  refine Tracks.current_bind fun c d hcd hleft => ?_
  cases signs.getLast? with
  | none => exact hoperand c d hcd hleft
  | some sign =>
    cases hk : c.current.kind with
    | integer m =>
      by_cases hm : m = leastMagnitude
      · simp only [if_pos hm]
        exact Tracks.step (l := 0) hcd (Tracks.isEndOfFile_of_kind (by simp [hk])) hleft fun _ =>
          hend _ _ _
      · simp only [if_neg hm]
        exact hoperand c d hcd hleft
    | _ => exact hoperand c d hcd hleft

theorem sum_tracks : Tracks 1 n (sum ctx f) (sum ctx g) :=
  .chainLeft rfl _ (.chainLeft rfl _ (.chainLeft rfl _ (signed_tracks ctx h)))

omit h in
theorem operand_asksFor : AsksFor "expression" (operand ctx f) :=
  .current_bind fun c hc hk => by
    rw [hk]
    exact AsksFor.unexpected _ c hc

omit h in
theorem sum_asksFor : AsksFor "expression" (sum ctx f) := by
  have hsigned : AsksFor "expression" (signed ctx f) := by
    refine .many_bind (on_endOfFile (by simp)) (.current_bind fun c hc hk => ?_)
    rw [hk]
    exact (operand_asksFor ctx).bind _ c hc
  exact ((hsigned.bind _).bind _).bind _

omit h in
/-- An expression nests one that stands behind a `(` at least. -/
theorem parser_recursion : Recursion (fun nested ctx => sum ctx (nested ctx)) parser :=
  .of_bounded (fun _ _ _ h ctx => sum_tracks ctx fun m hm => h m hm ctx)
    (fun _ ctx => sum_asksFor ctx) (fun _ => rfl) (fun _ _ _ => rfl) (fun _ _ => rfl)

omit h in
theorem parser_tracks : Tracks 1 n (parser ctx) (parser ctx) := parser_recursion.tracks n ctx

omit h in
theorem parser_asksFor : AsksFor "expression" (parser ctx) := by
  rw [parser_recursion.unfolds]
  exact sum_asksFor ctx

end Expr

/-! ### Predicates -/

namespace Pred

theorem relationParser_tracks : Tracks 1 n (relationParser ctx) (relationParser ctx) := by
  refine (Expr.parser_tracks ctx).first fun left _ => Tracks.current_bind fun c d hcd hleft => ?_
  cases ho : relOp c.current.kind with
  | none => exact Tracks.unexpected _ c d hcd hleft
  | some op =>
    have hne : c.current.kind ≠ .endOfFile := by
      intro hk
      rw [hk] at ho
      cases ho
    refine (Tracks.step hcd (Tracks.isEndOfFile_of_kind hne) hleft fun _ => ?_).mono
      (Nat.zero_le (1 + 0))
    exact (Expr.parser_tracks ctx).andThen fun _ => .pure

variable {f g : Parser Pred}

theorem atom_asksFor : AsksFor "expression" (atom ctx f) :=
  .current_bind fun c hc hk => by
    rw [hk]
    exact (Expr.parser_asksFor ctx).bind _ c hc

theorem disjunction_asksFor : AsksFor "expression" (disjunction ctx f) := by
  have hnegated : AsksFor "expression" (negated ctx f) :=
    .many_bind (on_endOfFile (by simp)) ((atom_asksFor ctx).bind _)
  exact ((hnegated.bind _).bind _).bind _

section
variable (h : ∀ m < n, Tracks 1 m f g)
include h

theorem parenthesised_tracks : Tracks 1 n (parenthesised f) (parenthesised g) :=
  (Tracks.symbol _).first fun _ _ => (h (n - 1) (by omega)).andThen fun _ =>
    (Tracks.symbol _).andThen fun _ => .pure

theorem atom_tracks : Tracks 1 n (atom ctx f) (atom ctx g) := by
  have hrelation := relationParser_tracks ctx (n := n)
  refine Tracks.current_bind fun c d hcd hleft => ?_
  cases hk : c.current.kind with
  | keyword k =>
    cases k with
    | verdadeiro => exact Tracks.step_pure hcd (Tracks.isEndOfFile_of_kind (by simp [hk]))
    | falso => exact Tracks.step_pure hcd (Tracks.isEndOfFile_of_kind (by simp [hk]))
    | _ => exact hrelation c d hcd hleft
  | symbol k =>
    cases k with
    | openParen => exact (parenthesised_tracks h).orElse hrelation c d hcd hleft
    | _ => exact hrelation c d hcd hleft
  | _ => exact hrelation c d hcd hleft

theorem negated_tracks : Tracks 1 n (negated ctx f) (negated ctx g) :=
  (Tracks.signs (by simp)).before fun _ => (atom_tracks ctx h).first fun _ _ =>
    Tracks.lastSpan.andThen fun _ => .pure

theorem disjunction_tracks : Tracks 1 n (disjunction ctx f) (disjunction ctx g) :=
  .chainLeft rfl _ (.chainLeft rfl _ (.chainLeft rfl _ (negated_tracks ctx h)))

end

/-- A predicate nests one that stands behind a `(`, also when what it opens is read again. -/
theorem parser_recursion : Recursion (fun nested ctx => disjunction ctx (nested ctx)) parser :=
  .of_bounded (fun _ _ _ h ctx => disjunction_tracks ctx fun m hm => h m hm ctx)
    (fun _ ctx => disjunction_asksFor ctx) (fun _ => rfl) (fun _ _ _ => rfl) (fun _ _ => rfl)

theorem parser_tracks : Tracks 1 n (parser ctx) (parser ctx) := parser_recursion.tracks n ctx

end Pred

/-! ### Commands -/

namespace Command

theorem hereSpan_tracks : Tracks 0 n hereSpan hereSpan := Tracks.lastSpan.andThen fun _ => .pure

theorem assignParser_tracks : Tracks 1 n (assignParser ctx) (assignParser ctx) :=
  Tracks.identifier.first fun _ _ => (Tracks.symbol _).andThen fun _ =>
    (Expr.parser_tracks ctx).andThen fun _ => .pure

/-- A command over the parser of nested commands. -/
def body (nested : Context → Parser Command) (ctx : Context) : Parser Command := do
  let start := (← current).span
  let shape ← shapeParser ctx (nested ctx)
  return shape (← spanFrom start)

variable {f g : Parser Command}

section
variable (h : ∀ m < n, Tracks 1 m f g)
include h

theorem blockParser_tracks : Tracks 1 n (blockParser f) (blockParser g) :=
  (Tracks.symbol _).first fun _ _ => (Tracks.sepBy (by simp) (h (n - 1) (by omega))).andThen
    fun _ => (Tracks.expectAs (by simp) _).andThen fun _ => .pure

theorem branchParser_tracks : Tracks 1 n (branchParser ctx f) (branchParser ctx g) :=
  (Pred.parser_tracks ctx).first fun _ _ => (Tracks.keyword _).andThen fun _ =>
    (h (n - 1) (by omega)).andThen fun _ => .pure

theorem condParser_tracks : Tracks 1 n (condParser ctx f) (condParser ctx g) := by
  refine (Tracks.keyword _).first fun _ hn => ?_
  have hbranch (m : Nat) (hm : m ≤ n - 1) : Tracks 1 m (branchParser ctx f) (branchParser ctx g) :=
    branchParser_tracks ctx fun k hk => h k (by omega)
  refine (hbranch (n - 1) (Nat.le_refl _)).andThen fun _ => ?_
  refine (Tracks.many (on_endOfFile (by simp)) fun _ _ =>
    (hbranch _ (Nat.sub_le _ 1)).mono (Nat.zero_le 1) (Nat.le_refl _)).andThen fun _ => ?_
  refine Tracks.eat_bind (by simp) (fun _ => ?_) ?_
  · exact (h _ (by omega)).andThen fun _ => .pure
  · exact (hereSpan_tracks.map _).andThen fun _ => .pure

theorem loopParser_tracks : Tracks 1 n (loopParser ctx f) (loopParser ctx g) :=
  (Tracks.keyword _).first fun _ _ => (Pred.parser_tracks ctx).andThen fun _ =>
    (Tracks.keyword _).andThen fun _ => (h (n - 1) (by omega)).andThen fun _ => .pure

theorem countParser_tracks : Tracks 1 n (countParser ctx f) (countParser ctx g) := by
  have hexpr (m : Nat) := Expr.parser_tracks ctx (n := m)
  refine (Tracks.keyword _).first fun _ _ => Tracks.identifier.andThen fun _ => ?_
  refine (Tracks.keyword _).andThen fun _ => (hexpr _).andThen fun _ => ?_
  refine (Tracks.keyword _).andThen fun _ => (hexpr _).andThen fun _ => ?_
  have hrest (m : Nat) (hm : m ≤ n - 1) (make : Command → Span → Command) :
      Tracks 0 m (do let _ ← keyword .faca; let body ← f; return make body)
        (do let _ ← keyword .faca; let body ← g; return make body) :=
    (Tracks.keyword _).andThen fun _ => (h m (by omega)).andThen fun _ => .pure
  refine Tracks.eat_bind (by simp) (fun _ => ?_) ?_
  · exact (hexpr _).andThen fun _ => hrest _ (by omega) _
  · exact (hereSpan_tracks.map _).andThen fun _ => hrest _ (Nat.le_refl _) _

theorem caseParser_tracks : Tracks 1 n (caseParser f) (caseParser g) := by
  refine Tracks.current_bind fun c d hcd hleft => ?_
  have hrest (negative : Bool) (start : Span) :
      Tracks 1 n (do
        let magnitude ← integer
        let value ← literal negative magnitude.1 (← spanFrom start)
        let _ ← symbol .colon
        let body ← f
        return (value, body)) (do
        let magnitude ← integer
        let value ← literal negative magnitude.1 (← spanFrom start)
        let _ ← symbol .colon
        let body ← g
        return (value, body)) :=
    Tracks.integer.first fun _ _ => (Tracks.spanFrom _).andThen fun _ =>
      (Tracks.literal _ _ _).andThen fun _ => (Tracks.symbol _).andThen fun _ =>
        (h (n - 1) (by omega)).andThen fun _ => .pure
  exact Tracks.eat_bind (by simp) (fun _ => (hrest _ _).mono (Nat.le_refl 1) (Nat.sub_le n 1))
    (hrest _ _) c d hcd hleft

theorem switchParser_tracks : Tracks 1 n (switchParser ctx f) (switchParser ctx g) := by
  refine (Tracks.keyword _).first fun _ hn => (Expr.parser_tracks ctx).andThen fun _ => ?_
  refine (Tracks.many (on_endOfFile (by simp)) fun _ _ =>
    (caseParser_tracks fun m hm => h m (by omega)).mono (Nat.zero_le 1)
      (Nat.le_refl _)).andThen fun _ => ?_
  exact (Tracks.expectAs (by simp) _).andThen fun _ => (Tracks.symbol _).andThen fun _ =>
    (h (n - 1) (by omega)).andThen fun _ => .pure

theorem shapeParser_tracks : Tracks 1 n (shapeParser ctx f) (shapeParser ctx g) := by
  refine Tracks.current_bind fun c d hcd hleft => ?_
  cases hk : c.current.kind with
  | identifier name => exact assignParser_tracks ctx c d hcd hleft
  | keyword k =>
    have hc := Tracks.isEndOfFile_of_kind (t := c.current) (by simp [hk])
    cases k with
    | skip => exact Tracks.step_pure hcd hc
    | se => exact condParser_tracks ctx h c d hcd hleft
    | enquanto => exact loopParser_tracks ctx h c d hcd hleft
    | para => exact countParser_tracks ctx h c d hcd hleft
    | escolha => exact switchParser_tracks ctx h c d hcd hleft
    | escreva =>
      exact Tracks.step (l := 0) hcd hc hleft fun _ => (Expr.parser_tracks ctx).andThen fun _ =>
        .pure
    | exiba =>
      exact Tracks.step (l := 0) hcd hc hleft fun _ => Tracks.textLiteral.andThen fun _ => .pure
    | _ => exact Tracks.unexpected _ c d hcd hleft
  | symbol k =>
    cases k with
    | openBrace => exact blockParser_tracks h c d hcd hleft
    | _ => exact Tracks.unexpected _ c d hcd hleft
  | _ => exact Tracks.unexpected _ c d hcd hleft

end

theorem body_tracks {f g : Context → Parser Command}
    (h : ∀ m < n, ∀ ctx, Tracks 1 m (f ctx) (g ctx)) : Tracks 1 n (body f ctx) (body g ctx) := by
  refine Tracks.current_bind fun c d hcd hleft => ?_
  exact (shapeParser_tracks ctx fun m hm => h m hm ctx).first
    (fun _ _ => (Tracks.spanFrom _).andThen fun _ => .pure) c d hcd hleft

theorem body_asksFor (f : Context → Parser Command) : AsksFor "command" (body f ctx) := by
  have hshape : AsksFor "command" (shapeParser ctx (f ctx)) := .current_bind fun c hc hk => by
    rw [hk]
    exact AsksFor.unexpected _ c hc
  exact .current_bind fun c hc _ => hshape.bind _ c hc

/-- A command nests one that stands behind a keyword or a `{`. -/
theorem parser_recursion : Recursion body parser :=
  .of_bounded (fun _ _ _ h ctx => body_tracks ctx h) (fun f ctx => body_asksFor ctx f)
    (fun _ => rfl) (fun _ _ _ => rfl) (fun _ _ => rfl)

theorem parser_tracks : Tracks 1 n (parser ctx) (parser ctx) := parser_recursion.tracks n ctx

end Command

/-! ### Programs -/

namespace Program

theorem headerParser_tracks : Tracks 1 n headerParser headerParser := by
  refine (Tracks.keyword _).first fun _ _ => Tracks.identifier.andThen fun _ => ?_
  refine (Tracks.symbol _).andThen fun _ => (Tracks.check _).andThen fun _ => ?_
  rw [bind_ite]
  have hparams : Tracks 1 (n - 1) _ _ :=
    Tracks.sepBy (k := .symbol .comma) (by simp) (Tracks.identifier.map Prod.fst)
  refine Tracks.andThen (.ite .pure (hparams.mono (Nat.zero_le 1) (Nat.le_refl _))) fun _ => ?_
  exact (Tracks.symbol _).andThen fun _ => (Tracks.symbol _).andThen fun _ =>
    (Tracks.spanFrom _).andThen fun _ => .pure

theorem instructionParser_tracks :
    Tracks 1 n (instructionParser ctx) (instructionParser ctx) := by
  refine (Tracks.check _).before fun _ => .ite ?_ ?_
  · exact headerParser_tracks.first fun _ _ => (Expr.parser_tracks _).andThen fun _ => .pure
  · exact (Command.parser_tracks ctx).first fun _ _ => .pure

theorem instructionParser_asksFor : AsksFor "command" (instructionParser ctx) := by
  intro c hc
  have hclass : c.current.toClass = .endOfFile := by
    simpa [Token.isEndOfFile] using Cursor.isEndOfFile_current hc
  have hcommand : AsksFor "command" (Command.parser ctx) := by
    rw [Command.parser_recursion.unfolds]
    exact Command.body_asksFor ctx _
  rw [instructionParser, check_bind, hclass]
  exact hcommand.bind _ c hc

/-- The instructions of a program, up to what is no `;`. -/
def instructions (ctx : Context) : Parser Program := do
  instructionsUpTo ctx (← get).ahead

/-- Instructions over the parser of those after the first. -/
def instructionsBody (rest : Context → Parser Program) (ctx : Context) : Parser Program := do
  let (first, ctx) ← instructionParser ctx
  if ← eat (.symbol .semicolon) then
    let rest ← rest ctx
    return first :: rest
  else return [first]

/-- The instructions after the first stand behind a `;`. -/
theorem instructions_recursion : Recursion instructionsBody instructions := by
  have hend (rest : Context → Parser Program) (ctx : Context) :
      AsksFor "command" (instructionsBody rest ctx) :=
    (instructionParser_asksFor ctx).bind _
  refine .of_bounded (fun n f g h ctx => ?_) hend (fun _ => rfl) (fun _ _ _ => rfl) fun _ _ => rfl
  refine (instructionParser_tracks ctx).first fun r _ => Tracks.eat_bind (by simp) ?_ .pure
  exact fun _ => (h _ (by omega) r.2).andThen fun _ => .pure

/-- A program with an instruction, up to the end of file. -/
def instructionsToEnd (names : Names) : Parser Program := do
  let program ← instructions ⟨names, []⟩
  let _ ← expectAs .endOfFile "`;` or end of file"
  return program

theorem parser_eq_toEnd (names : Names) : parser names = (do
    if ← check .endOfFile then return [] else instructionsToEnd names) :=
  rfl

theorem instructionsToEnd_tracks (names : Names) :
    Tracks 1 n (instructionsToEnd names) (instructionsToEnd names) := by
  refine (instructions_recursion.tracks n _).first fun _ _ => ?_
  refine Tracks.andThen (k := 0) (Tracks.current_bind fun c d hcd hleft => ?_) fun _ => .pure
  split
  · exact Tracks.advance.andThen (fun _ => .pure) c d hcd hleft
  · exact Tracks.unexpected _ c d hcd hleft

theorem parser_tracks (names : Names) : Tracks 0 n (parser names) (parser names) := by
  rw [parser_eq_toEnd]
  exact (Tracks.check _).andThen fun _ =>
    .ite .pure ((instructionsToEnd_tracks names).mono (Nat.zero_le 1) (Nat.le_refl n))

end Program

end

/-! ## Productions -/

/-- The productions of the grammar, from the tightest expressions to programs. -/
inductive Grammar.Production (ctx : Context) : {α : Type} → Parser α → Prop
  | call (name : Name) (start : Span) :
    Production ctx (Expr.callParser ctx (Expr.parser ctx) name start)
  | operand : Production ctx (Expr.operand ctx (Expr.parser ctx))
  | signed : Production ctx (Expr.signed ctx (Expr.parser ctx))
  | power : Production ctx
    (chainLeft Expr.powerOp Expr.binary (Expr.signed ctx (Expr.parser ctx)))
  | product : Production ctx (chainLeft Expr.productOp Expr.binary
    (chainLeft Expr.powerOp Expr.binary (Expr.signed ctx (Expr.parser ctx))))
  | expr : Production ctx (Expr.parser ctx)
  | relation : Production ctx (Pred.relationParser ctx)
  | parenthesised : Production ctx (Pred.parenthesised (Pred.parser ctx))
  | atom : Production ctx (Pred.atom ctx (Pred.parser ctx))
  | negated : Production ctx (Pred.negated ctx (Pred.parser ctx))
  | conjunction : Production ctx
    (chainLeft Pred.andOp Pred.binary (Pred.negated ctx (Pred.parser ctx)))
  | exclusive : Production ctx (chainLeft Pred.xorOp Pred.binary
    (chainLeft Pred.andOp Pred.binary (Pred.negated ctx (Pred.parser ctx))))
  | pred : Production ctx (Pred.parser ctx)
  | assign : Production ctx (Command.assignParser ctx)
  | block : Production ctx (Command.blockParser (Command.parser ctx))
  | branch : Production ctx (Command.branchParser ctx (Command.parser ctx))
  | cond : Production ctx (Command.condParser ctx (Command.parser ctx))
  | loop : Production ctx (Command.loopParser ctx (Command.parser ctx))
  | count : Production ctx (Command.countParser ctx (Command.parser ctx))
  | case : Production ctx (Command.caseParser (Command.parser ctx))
  | switch : Production ctx (Command.switchParser ctx (Command.parser ctx))
  | shape : Production ctx (Command.shapeParser ctx (Command.parser ctx))
  | command : Production ctx (Command.parser ctx)
  | header : Production ctx Program.headerParser
  | instruction : Production ctx (Program.instructionParser ctx)
  | instructions : Production ctx (Program.instructions ctx)

theorem Grammar.Production.tracks {ctx : Context} {α : Type} {p : Parser α}
    (h : Production ctx p) (n : Nat) : Tracks 1 n p p := by
  have hexpr (m : Nat) (_ : m < n) := Expr.parser_tracks ctx (n := m)
  have hpred (m : Nat) (_ : m < n) := Pred.parser_tracks ctx (n := m)
  have hcommand (m : Nat) (_ : m < n) := Command.parser_tracks ctx (n := m)
  cases h with
  | call name start => exact Expr.callParser_tracks ctx hexpr name start
  | operand => exact Expr.operand_tracks ctx hexpr
  | signed => exact Expr.signed_tracks ctx hexpr
  | power => exact .chainLeft rfl _ (Expr.signed_tracks ctx hexpr)
  | product => exact .chainLeft rfl _ (.chainLeft rfl _ (Expr.signed_tracks ctx hexpr))
  | expr => exact Expr.parser_tracks ctx
  | relation => exact Pred.relationParser_tracks ctx
  | parenthesised => exact Pred.parenthesised_tracks hpred
  | atom => exact Pred.atom_tracks ctx hpred
  | negated => exact Pred.negated_tracks ctx hpred
  | conjunction => exact .chainLeft rfl _ (Pred.negated_tracks ctx hpred)
  | exclusive => exact .chainLeft rfl _ (.chainLeft rfl _ (Pred.negated_tracks ctx hpred))
  | pred => exact Pred.parser_tracks ctx
  | assign => exact Command.assignParser_tracks ctx
  | block => exact Command.blockParser_tracks hcommand
  | branch => exact Command.branchParser_tracks ctx hcommand
  | cond => exact Command.condParser_tracks ctx hcommand
  | loop => exact Command.loopParser_tracks ctx hcommand
  | count => exact Command.countParser_tracks ctx hcommand
  | case => exact Command.caseParser_tracks hcommand
  | switch => exact Command.switchParser_tracks ctx hcommand
  | shape => exact Command.shapeParser_tracks ctx hcommand
  | command => exact Command.parser_tracks ctx
  | header => exact Program.headerParser_tracks
  | instruction => exact Program.instructionParser_tracks ctx
  | instructions => exact Program.instructions_recursion.tracks n ctx

/-- A production fails, or takes a token. -/
theorem Grammar.Production.takes {ctx : Context} {α : Type} {p : Parser α}
    (h : Production ctx p) (c : Cursor) :
    (∃ e, p c = .error e) ∨ ∃ a ts c', p c = .ok (a, c') ∧ ts ≠ [] ∧ c.Passes ts c' := by
  have hc := h.tracks c.left c c (.refl c) (Nat.le_refl _)
  generalize p c = r at hc
  cases hc with
  | error => exact .inl ⟨_, rfl⟩
  | @ok a ts c' _ hts hc _ =>
    exact .inr ⟨a, ts, c', rfl, List.ne_nil_of_length_pos hts, hc⟩

namespace Program

/-- Where the reading of a token list stops, and what it has read there. -/
theorem parser_ofTokens {names : Names} {tokens : List (Token Name)} {program : Program}
    {c : Cursor} (h : parser names (.ofTokens tokens) = .ok (program, c)) :
    c.tokens = tokens ∧ c.position ≤ tokens.length ∧
      (∀ t ∈ tokens.take c.position, t.isEndOfFile = false) ∧ (program = [] ∨ 0 < c.position) := by
  have hpasses : ∃ ts, (Cursor.ofTokens tokens).Passes ts c ∧ (program = [] ∨ ts ≠ []) := by
    rw [parser_eq_toEnd, check_bind] at h
    split at h
    · obtain ⟨rfl, rfl⟩ := pure_eq_ok_iff.mp h
      exact ⟨[], Cursor.passes_nil_iff.mpr rfl, .inl rfl⟩
    · have hr := instructionsToEnd_tracks names _ _ (.refl (.ofTokens tokens)) (Nat.le_refl _)
      rw [h] at hr
      cases hr with
      | ok hts hc _ => exact ⟨_, hc, .inr (List.ne_nil_of_length_pos hts)⟩
  obtain ⟨ts, ⟨hahead, hbehind, hts⟩, hne⟩ := hpasses
  have htokens : tokens = ts ++ c.ahead := hahead
  have hposition : c.position = ts.length := by simp [Cursor.position, hbehind, Cursor.ofTokens]
  refine ⟨by simp [Cursor.tokens, hbehind, Cursor.ofTokens, htokens], by simp [hposition, htokens],
    ?_, ?_⟩
  · rw [hposition, htokens, List.take_left]
    exact hts
  · exact hne.imp_right fun h => by rw [hposition]; exact List.length_pos_iff.mpr h

/-- Only the tokens up to the first end of file are read. -/
theorem parse_upToEnd (names : Names) (tokens : List (Token Name)) :
    parse names tokens = parse names (upToEnd tokens) := by
  have halike : (Cursor.ofTokens tokens).Alike (.ofTokens (upToEnd tokens)) :=
    ⟨rfl, (upToEnd_upToEnd tokens).symm⟩
  have hr := parser_tracks names _ _ halike (Nat.le_refl _)
  unfold parse StateT.run'
  generalize parser names (.ofTokens tokens) = r at hr ⊢
  generalize parser names (.ofTokens (upToEnd tokens)) = r' at hr ⊢
  cases hr with
  | ok => rfl
  | error => rfl

/-- Reading ends, for every token list, and stays in it.

The bounds of the parsers on how deep they nest and how often they repeat never decide: each parser
is the only solution of its equation without bounds, since that leads to places with fewer tokens
left. So does each repetition. A reading gives a program or an error, stops within the list with no
end of file behind it, and takes nothing from behind the first end of file. Every production that
does not fail has stepped over a token, and so has a program that is not empty. -/
theorem parse_ends :
    Recursion (fun nested ctx => Expr.sum ctx (nested ctx)) Expr.parser ∧
    Recursion (fun nested ctx => Pred.disjunction ctx (nested ctx)) Pred.parser ∧
    Recursion Command.body Command.parser ∧
    Recursion instructionsBody instructions ∧
    (∀ {α ω : Type} (announces : TokenKind Name → Option ω) (item : ω → Parser α),
      announces .endOfFile = none → (∀ b n, Tracks 0 n (item b) (item b)) →
      many announces item = manyBody announces item (many announces item)) ∧
    (∀ ctx {α : Type} (p : Parser α), Production ctx p → ∀ c, (∃ e, p c = .error e) ∨
      ∃ a ts c', p c = .ok (a, c') ∧ ts ≠ [] ∧ c.Passes ts c') ∧
    ∀ names tokens, parse names tokens = parse names (upToEnd tokens) ∧
      match parser names (.ofTokens tokens) with
      | .error e => parse names tokens = .error e
      | .ok (program, c) => parse names tokens = .ok program ∧ c.tokens = tokens ∧
        c.position ≤ tokens.length ∧ (∀ t ∈ tokens.take c.position, t.isEndOfFile = false) ∧
        (program = [] ∨ 0 < c.position) := by
  refine ⟨Expr.parser_recursion, Pred.parser_recursion, Command.parser_recursion,
    instructions_recursion, fun announces item hann h => many_eq hann h,
    fun ctx _ p h c => h.takes c, fun names tokens => ⟨parse_upToEnd names tokens, ?_⟩⟩
  cases hr : parser names (.ofTokens tokens) with
  | error e => exact congrArg (Prod.fst <$> ·) hr
  | ok r => exact ⟨congrArg (Prod.fst <$> ·) hr, parser_ofTokens hr⟩

end Program

end Enquanto

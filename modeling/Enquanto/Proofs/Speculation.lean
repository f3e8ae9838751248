import Enquanto.Proofs.InPlaceParser
import Enquanto.Proofs.ParserProgress
import Enquanto.Proofs.PostOrder

/-!
# Speculation

What is tried first may fail after nodes were added. Going back cuts the tables at their old sizes,
which undoes the attempt because no production of expressions or predicates changes what was there:
whether it succeeds or fails, it leaves the tokens, the functions and the scopes as they are and
adds at the ends of the tables only. Attempts inside an attempt do the same, so no inner one cuts
below an outer one.

* `Draft.Grows`: nothing that was there has changed; `Draft.Grows.restore` undoes it;
* `Drafting.Growing`: a piece of work only makes drafts grow, and `Drafting.Growing.tryParse`: so
  does a first reading of it;
* `Drafting.expr_growing` and `Drafting.predUpTo_growing`: the productions.
-/

namespace Enquanto

open Enquanto.Parser

/-! ## Places in the same tokens -/

namespace Cursor

variable {c c' : Cursor} {ts : List (Token Name)}

theorem Passes.tokens_eq (h : c.Passes ts c') : c'.tokens = c.tokens := by
  obtain ⟨ha, hb, -⟩ := h
  simp [tokens, ha, hb]

/-- A place that was taken is found again from any other place in the same tokens. -/
theorem moveTo_position (h : c'.tokens = c.tokens) : c'.moveTo c.position = c := by
  rw [moveTo, h, position, tokens, ← List.length_reverse, List.take_left, List.drop_left,
    List.reverse_reverse]

end Cursor

/-- The parser leaves the tokens as they are. -/
def Parser.KeepsTokens {α : Type} (p : Parser α) : Prop :=
  ∀ c a c', p c = .ok (a, c') → c'.tokens = c.tokens

theorem Parser.keepsTokens_current : KeepsTokens current := by
  intro c a c' h
  cases h
  rfl

theorem Parser.Tracks.keepsTokens {α : Type} {p : Parser α} {k : Nat}
    (h : ∀ n, Tracks k n p p) : p.KeepsTokens := by
  intro c a c' hp
  have hm := h c.left c c (.refl c) (Nat.le_refl _)
  rw [hp] at hm
  cases hm with
  | ok _ hts _ => exact hts.tokens_eq

/-! ## Growth -/

/-- Nothing that was there has changed: the tokens, the functions and the scopes are the same, and
the tables of the arena have grown at their ends. -/
structure Draft.Grows (d d' : Draft) : Prop where
  tokens : d'.cursor.tokens = d.cursor.tokens
  arena : d.arena.Extends d'.arena
  functions : d'.functions = d.functions
  scopes : d'.scopes = d.scopes
  scope : d'.scope = d.scope

namespace Draft.Grows

theorem refl (d : Draft) : d.Grows d := ⟨rfl, .refl _, rfl, rfl, rfl⟩

theorem trans {d₁ d₂ d₃ : Draft} (h : d₁.Grows d₂) (h' : d₂.Grows d₃) : d₁.Grows d₃ :=
  ⟨h'.tokens.trans h.tokens, h.arena.trans h'.arena, h'.functions.trans h.functions,
    h'.scopes.trans h.scopes, h'.scope.trans h.scope⟩

/-- A position and the sizes of the tables are enough to undo growth. -/
theorem restore {d d' : Draft} (h : d.Grows d') : d'.restore d.snapshot = d := by
  rw [Draft.restore, Draft.snapshot, Cursor.moveTo_position h.tokens,
    Arena.truncate_of_extends h.arena, h.functions, h.scopes, h.scope]

end Draft.Grows

namespace Drafting

variable {α β ι ω : Type}

/-- Whether it succeeds or fails, the draft has only grown. -/
def Growing (work : Drafting α) : Prop := ∀ d,
  match work d with
  | .ok _ d' => d.Grows d'
  | .error _ d' => d.Grows d'

theorem growing_pure {a : α} : Growing (pure a : Drafting α) := fun d => .refl d

theorem growing_throw {e : ParseError} : Growing (throw e : Drafting α) := fun d => .refl d

theorem growing_read {p : Parser α} (h : p.KeepsTokens) : Growing (read p) := by
  intro d
  unfold read
  cases hp : p d.cursor with
  | error e => exact .refl d
  | ok x => exact ⟨h d.cursor x.1 x.2 hp, .refl _, rfl, rfl, rfl⟩

theorem growing_advance : Growing (read advance) :=
  growing_read (Tracks.keepsTokens fun _ => .advance)

theorem growing_check (k : TokenClass) : Growing (read (check k)) :=
  growing_read (Tracks.keepsTokens fun _ => .check k)

theorem growing_symbol (s : Symbol) : Growing (read (symbol s)) :=
  growing_read (Tracks.keepsTokens fun _ => .symbol s)

theorem growing_expectAs (k : TokenClass) (expected : String) (hk : k ≠ .endOfFile) :
    Growing (read (expectAs k expected)) :=
  growing_read (Tracks.keepsTokens fun _ => .expectAs hk expected)

theorem growing_spanFrom (start : Span) : Growing (read (spanFrom start)) :=
  growing_read (Tracks.keepsTokens fun _ => .spanFrom start)

theorem growing_literal (negative : Bool) (magnitude : UInt32) (span : Span) :
    Growing (read (literal negative magnitude span)) :=
  growing_read (Tracks.keepsTokens fun _ => .literal negative magnitude span)

theorem growing_lastSpan : Growing (read lastSpan) :=
  growing_read (Tracks.keepsTokens fun _ => .lastSpan)

theorem growing_unexpected (expected : String) :
    Growing (read (unexpected expected) : Drafting α) :=
  growing_read (Tracks.keepsTokens (k := 0) fun _ => .unexpected expected)

theorem growing_signs {k : TokenClass} (hk : k ≠ .endOfFile) :
    Growing (read (Parser.many (on k) fun _ => lastSpan)) :=
  growing_read (Tracks.keepsTokens fun _ => .signs hk)

theorem growing_add {lay : Arena → ι × Arena} (h : ∀ a : Arena, a.Extends (lay a).2) :
    Growing (add lay) := fun d => ⟨rfl, h d.arena, rfl, rfl, rfl⟩

theorem Growing.bind {work : Drafting α} {next : α → Drafting β} (h : Growing work)
    (hn : ∀ a, Growing (next a)) : Growing (work >>= next) := by
  intro d
  have hd := h d
  simp only [EStateM.bind, Bind.bind] at hd ⊢
  cases hw : work d with
  | error e d' =>
    rw [hw] at hd
    exact hd
  | ok a d' =>
    rw [hw] at hd
    have hd' := hn a d'
    dsimp only
    cases hnext : next a d' with
    | error e d'' =>
      rw [hnext] at hd'
      exact hd.trans hd'
    | ok b d'' =>
      rw [hnext] at hd'
      exact hd.trans hd'

theorem growing_get_bind {next : Draft → Drafting β} (h : ∀ d, Growing (next d)) :
    Growing (get >>= next) := fun d => h d d

/-- A first reading is over without a trace, or has only grown the draft. -/
theorem Growing.tryParse {first : Drafting α} (h : Growing first) : Growing (tryParse first) := by
  intro d
  have hd := h d
  unfold Drafting.tryParse
  cases hw : first d with
  | ok a d' =>
    rw [hw] at hd
    exact hd
  | error e d' =>
    rw [hw] at hd
    dsimp only
    rw [hd.restore]
    exact .refl d

/-! ### Repetition -/

section
variable {announces : TokenKind Name → Option β} {item : β → Drafting ι}

theorem Growing.manyUpTo (h : ∀ b, Growing (item b)) (bound : List (Token Name)) :
    Growing (manyUpTo announces item bound) := by
  induction bound with
  | nil => exact growing_pure
  | cons _ bound ih =>
    refine (growing_read keepsTokens_current).bind fun token => ?_
    split
    · exact growing_pure
    · next b _ =>
      exact growing_advance.bind fun _ => (h b).bind fun _ => ih.bind fun _ => growing_pure

theorem Growing.many (h : ∀ b, Growing (item b)) : Growing (many announces item) :=
  growing_get_bind fun d => .manyUpTo h d.cursor.ahead

end

theorem Growing.sepBy {item : Drafting ι} (h : Growing item) (k : TokenClass) :
    Growing (sepBy k item) :=
  h.bind fun _ => (Growing.many fun _ => h).bind fun _ => growing_pure

theorem Growing.chainLeft {operator : TokenKind Name → Option ω} {join : ω → ι → ι → Drafting ι}
    {operand : Drafting ι} (hj : ∀ op l r, Growing (join op l r)) (h : Growing operand) :
    Growing (chainLeft operator join operand) := by
  refine h.bind fun first => growing_get_bind fun d => ?_
  generalize d.cursor.ahead = bound
  induction bound generalizing first with
  | nil => exact growing_pure
  | cons _ bound ih =>
    refine (growing_read keepsTokens_current).bind fun token => ?_
    split
    · exact growing_pure
    · next op _ => exact growing_advance.bind fun _ => h.bind fun _ => (hj _ _ _).bind ih

theorem growing_foldrM {f : α → ι → Drafting ι} (h : ∀ a id, Growing (f a id)) (as : List α)
    (id : ι) : Growing (as.foldrM f id) := by
  induction as with
  | nil => exact growing_pure
  | cons a as ih =>
    rw [List.foldrM_cons]
    exact ih.bind (h a)

/-! ### Expressions and predicates -/

section
variable (names : Names)

omit names in
theorem arith_growing (op : ArithOp) (left right : ExprId) : Growing (arith op left right) :=
  growing_add fun a => a.extends_addExpr _ _

section
variable {nested : Drafting ExprId} (h : Growing nested)
include h

omit names in
theorem arguments_growing : Growing (arguments nested) := by
  refine (growing_check _).bind fun closed => ?_
  split
  · exact growing_pure
  · exact h.sepBy _

theorem call_growing (name : Name) (start : Span) : Growing (call names nested name start) := by
  refine growing_advance.bind fun _ => growing_get_bind fun d => ?_
  split
  · exact growing_throw
  · refine (growing_symbol _).bind fun _ => (arguments_growing h).bind fun args => ?_
    refine (growing_expectAs _ _ (by simp)).bind fun _ => (growing_spanFrom _).bind fun span => ?_
    refine growing_get_bind fun d => ?_
    split
    · exact growing_add fun a => a.extends_addCall _ _ _
    · exact growing_throw

theorem operand_growing : Growing (operand names nested) := by
  refine (growing_read keepsTokens_current).bind fun token => ?_
  rcases token with ⟨kind, span⟩
  cases kind with
  | integer magnitude =>
    refine growing_advance.bind fun _ => (growing_literal false magnitude span).bind fun value => ?_
    exact growing_add fun a => a.extends_addExpr _ _
  | identifier name =>
    refine growing_get_bind fun d => ?_
    split
    · exact call_growing names h _ _
    · refine growing_advance.bind fun _ => growing_get_bind fun d => ?_
      exact growing_add fun a => a.extends_addExpr _ _
  | keyword k =>
    cases k with
    | leia => exact growing_advance.bind fun _ => growing_add fun a => a.extends_addExpr _ _
    | _ => exact growing_unexpected _
  | symbol s =>
    cases s with
    | openParen =>
      exact growing_advance.bind fun _ => h.bind fun _ => (growing_symbol _).bind fun _ =>
        growing_pure
    | _ => exact growing_unexpected _
  | _ => exact growing_unexpected _

theorem innermost_growing (signs : List Span) : Growing (innermost names nested signs) := by
  refine (growing_read keepsTokens_current).bind fun token => ?_
  have hoperand : Growing (operand names nested >>= fun id => pure (signs, id)) :=
    (operand_growing names h).bind fun _ => growing_pure
  split
  · split
    · refine growing_advance.bind fun _ => Growing.bind ?_ fun id => growing_pure
      exact growing_add fun a => a.extends_addExpr _ _
    · exact hoperand
  · exact hoperand

theorem signed_growing : Growing (signed names nested) := by
  refine (growing_signs (by simp)).bind fun signs => ?_
  refine (innermost_growing names h signs).bind fun inner => growing_lastSpan.bind fun stop => ?_
  exact growing_foldrM (fun _ _ => growing_add fun a => a.extends_addExpr _ _) _ _

theorem sum_growing : Growing (sum names nested) :=
  .chainLeft arith_growing <| .chainLeft arith_growing <| .chainLeft arith_growing <|
    signed_growing names h

end

theorem exprUpTo_growing (bound : List (Token Name)) : Growing (exprUpTo names bound) := by
  induction bound with
  | nil => exact growing_unexpected _
  | cons _ bound ih => exact sum_growing names ih

theorem expr_growing : Growing (expr names) :=
  growing_get_bind fun d => exprUpTo_growing names d.cursor.ahead

theorem logic_growing (op : LogicOp) (left right : PredId) : Growing (logic op left right) :=
  growing_add fun a => a.extends_addPred _ _

theorem relation_growing : Growing (relation names) := by
  refine (expr_growing names).bind fun left => ?_
  refine (growing_read keepsTokens_current).bind fun token => ?_
  split
  · exact growing_unexpected _
  · exact growing_advance.bind fun _ => (expr_growing names).bind fun _ =>
      growing_add fun a => a.extends_addPred _ _

section
variable {nested : Drafting PredId} (h : Growing nested)
include h

omit h in
theorem parenthesised_growing (h : Growing nested) : Growing (parenthesised nested) :=
  (growing_symbol _).bind fun _ => h.bind fun _ => (growing_symbol _).bind fun _ => growing_pure

theorem atom_growing : Growing (atom names nested) := by
  refine (growing_read keepsTokens_current).bind fun token => ?_
  split
  · exact growing_advance.bind fun _ => growing_add fun a => a.extends_addPred _ _
  · exact growing_advance.bind fun _ => growing_add fun a => a.extends_addPred _ _
  · refine (parenthesised_growing h).tryParse.bind fun found => ?_
    split
    · exact growing_pure
    · exact relation_growing names
  · exact relation_growing names

theorem negated_growing : Growing (negated names nested) := by
  refine (growing_signs (by simp)).bind fun signs => ?_
  refine (atom_growing names h).bind fun inner => growing_lastSpan.bind fun stop => ?_
  exact growing_foldrM (fun _ _ => growing_add fun a => a.extends_addPred _ _) _ _

theorem disjunction_growing : Growing (disjunction names nested) :=
  .chainLeft logic_growing <| .chainLeft logic_growing <| .chainLeft logic_growing <|
    negated_growing names h

end

theorem predUpTo_growing (bound : List (Token Name)) : Growing (predUpTo names bound) := by
  induction bound with
  | nil => exact growing_unexpected _
  | cons _ bound ih => exact disjunction_growing names ih

end

end Drafting

end Enquanto

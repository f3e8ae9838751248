import Enquanto.Program
import Enquanto.Token
import Mathlib.Data.List.Forall2
import Mathlib.Logic.Relation

/-!
# Translations

Two programs may have the same shape, but give other numbers to their names and functions, and lie
at other places of their sources. A translation says which names, functions and spans of the one
may stand for which of the other; it relates the tokens and the trees that differ in nothing else.

* `Translation`, with `Translation.refl`, `Translation.comp` and `Translation.Reads`, what a reader
  of tokens relies on;
* `Token.Translates`, `Expr.Translates`, `Pred.Translates`, `Command.Translates` and
  `Instruction.Translates`;
* `Command.Translates.comp` and `Declaration.Translates.comp`: one translation after another.
-/

namespace Enquanto

/-- Which names, functions and spans may stand for each other. -/
structure Translation where
  name : Name → Name → Prop
  function : FunctionId → FunctionId → Prop
  span : Span → Span → Prop

namespace Translation

/-- Everything stands for itself. -/
def refl : Translation := ⟨Eq, Eq, Eq⟩

/-- One translation after another. -/
def comp (τ σ : Translation) : Translation :=
  ⟨Relation.Comp τ.name σ.name, Relation.Comp τ.function σ.function, Relation.Comp τ.span σ.span⟩

/-- Names are told apart alike, functions keep their numbers, and the spans that are made from
others are related if those are. -/
structure Reads (τ : Translation) : Prop where
  name_iff : ∀ {x x' y y'}, τ.name x x' → τ.name y y' → (x = y ↔ x' = y')
  function : ∀ f, τ.function f f
  nowhere : τ.span .nowhere .nowhere
  merge : ∀ {s s' t t'}, τ.span s s' → τ.span t t' → τ.span (s.merge t) (s'.merge t')
  point : ∀ {s s'}, τ.span s s' → τ.span (.point s.stop) (.point s'.stop)

theorem reads_refl : refl.Reads where
  name_iff := by
    rintro x _ y _ rfl rfl
    exact Iff.rfl
  function _ := rfl
  nowhere := rfl
  merge := by
    rintro s _ t _ rfl rfl
    rfl
  point := by
    rintro s _ rfl
    rfl

end Translation

/-! ## Tokens -/

/-- Tokens with the same payload, but for a name. -/
inductive TokenKind.Translates (τ : Translation) : TokenKind Name → TokenKind Name → Prop
  | integer (magnitude : UInt32) : Translates τ (.integer magnitude) (.integer magnitude)
  | text {x x' : Name} : τ.name x x' → Translates τ (.text x) (.text x')
  | identifier {x x' : Name} : τ.name x x' → Translates τ (.identifier x) (.identifier x')
  | keyword (k : Keyword) : Translates τ (.keyword k) (.keyword k)
  | symbol (s : Symbol) : Translates τ (.symbol s) (.symbol s)
  | invalid : Translates τ .invalid .invalid
  | endOfFile : Translates τ .endOfFile .endOfFile

structure Token.Translates (τ : Translation) (t t' : Token Name) : Prop where
  kind : t.kind.Translates τ t'.kind
  span : τ.span t.span t'.span

theorem TokenKind.Translates.toClass_eq {τ : Translation} {k k' : TokenKind Name}
    (h : k.Translates τ k') : k.toClass = k'.toClass := by
  cases h <;> rfl

/-! ## Trees -/

inductive Expr.Translates (τ : Translation) : Expr → Expr → Prop
  | int {value : Int32} {s s' : Span} : τ.span s s' → Translates τ (.int value s) (.int value s')
  | var {x x' : Name} {s s' : Span} : τ.name x x' → τ.span s s' →
    Translates τ (.var x s) (.var x' s')
  | neg {e e' : Expr} {s s' : Span} : Translates τ e e' → τ.span s s' →
    Translates τ (.neg e s) (.neg e' s')
  | arith {op : ArithOp} {l l' r r' : Expr} {s s' : Span} : Translates τ l l' →
    Translates τ r r' → τ.span s s' → Translates τ (.arith op l r s) (.arith op l' r' s')
  | read {s s' : Span} : τ.span s s' → Translates τ (.read s) (.read s')
  | call {f f' : FunctionId} {args args' : List Expr} {s s' : Span} : τ.function f f' →
    List.Forall₂ (Translates τ) args args' → τ.span s s' →
    Translates τ (.call f args s) (.call f' args' s')

inductive Pred.Translates (τ : Translation) : Pred → Pred → Prop
  | lit {value : Bool} {s s' : Span} : τ.span s s' → Translates τ (.lit value s) (.lit value s')
  | not {p p' : Pred} {s s' : Span} : Translates τ p p' → τ.span s s' →
    Translates τ (.not p s) (.not p' s')
  | logic {op : LogicOp} {l l' r r' : Pred} {s s' : Span} : Translates τ l l' →
    Translates τ r r' → τ.span s s' → Translates τ (.logic op l r s) (.logic op l' r' s')
  | rel {op : RelOp} {l l' r r' : Expr} {s s' : Span} : l.Translates τ l' → r.Translates τ r' →
    τ.span s s' → Translates τ (.rel op l r s) (.rel op l' r' s')

mutual

inductive Command.Translates (τ : Translation) : Command → Command → Prop
  | skip {s s' : Span} : τ.span s s' → Command.Translates τ (.skip s) (.skip s')
  | assign {x x' : Name} {e e' : Expr} {s s' : Span} : τ.name x x' → e.Translates τ e' →
    τ.span s s' → Command.Translates τ (.assign x e s) (.assign x' e' s')
  | block {body body' : List Command} {s s' : Span} :
    List.Forall₂ (Command.Translates τ) body body' → τ.span s s' →
    Command.Translates τ (.block body s) (.block body' s')
  | cond {test test' : Pred} {body body' last last' : Command}
      {others others' : List (Pred × Command)} {s s' : Span} : test.Translates τ test' →
    Command.Translates τ body body' →
    List.Forall₂ (Command.BranchTranslates τ) others others' → Command.Translates τ last last' →
    τ.span s s' →
    Command.Translates τ (.cond test body others last s) (.cond test' body' others' last' s')
  | loop {test test' : Pred} {body body' : Command} {s s' : Span} : test.Translates τ test' →
    Command.Translates τ body body' → τ.span s s' →
    Command.Translates τ (.loop test body s) (.loop test' body' s')
  | count {x x' : Name} {start start' stop stop' step step' : Expr} {body body' : Command}
      {s s' : Span} : τ.name x x' → start.Translates τ start' → stop.Translates τ stop' →
    step.Translates τ step' → Command.Translates τ body body' → τ.span s s' →
    Command.Translates τ (.count x start stop step body s) (.count x' start' stop' step' body' s')
  | switch {selector selector' : Expr} {cases cases' : List (Int32 × Command)}
      {default default' : Command} {s s' : Span} : selector.Translates τ selector' →
    List.Forall₂ (Command.CaseTranslates τ) cases cases' → Command.Translates τ default default' →
    τ.span s s' →
    Command.Translates τ (.switch selector cases default s) (.switch selector' cases' default' s')
  | printInt {e e' : Expr} {s s' : Span} : e.Translates τ e' → τ.span s s' →
    Command.Translates τ (.printInt e s) (.printInt e' s')
  | printText {x x' : Name} {s s' : Span} : τ.name x x' → τ.span s s' →
    Command.Translates τ (.printText x s) (.printText x' s')

/-- A branch of a conditional: its test and its command. -/
inductive Command.BranchTranslates (τ : Translation) : Pred × Command → Pred × Command → Prop
  | intro {test test' : Pred} {body body' : Command} : test.Translates τ test' →
    Command.Translates τ body body' → Command.BranchTranslates τ (test, body) (test', body')

/-- A case of a choice: the label is the same. -/
inductive Command.CaseTranslates (τ : Translation) : Int32 × Command → Int32 × Command → Prop
  | intro {label : Int32} {body body' : Command} : Command.Translates τ body body' →
    Command.CaseTranslates τ (label, body) (label, body')

end

structure Declaration.Translates (τ : Translation) (d d' : Declaration) : Prop where
  name : τ.name d.name d'.name
  params : List.Forall₂ τ.name d.params d'.params
  body : d.body.Translates τ d'.body
  span : τ.span d.span d'.span

inductive Instruction.Translates (τ : Translation) : Instruction → Instruction → Prop
  | command {c c' : Command} : c.Translates τ c' → Translates τ (.command c) (.command c')
  | declare {d d' : Declaration} : d.Translates τ d' → Translates τ (.declare d) (.declare d')

theorem Expr.Translates.span {τ : Translation} {e e' : Expr} (h : e.Translates τ e') :
    τ.span e.span e'.span := by
  cases h <;> assumption

theorem Pred.Translates.span {τ : Translation} {p p' : Pred} (h : p.Translates τ p') :
    τ.span p.span p'.span := by
  cases h <;> assumption

/-! ## One after another -/

section
variable {τ σ : Translation}

theorem forall₂_comp {α β γ : Type} {R : α → β → Prop} {S : β → γ → Prop} {as : List α}
    {bs : List β} {cs : List γ} (h : List.Forall₂ R as bs) (h' : List.Forall₂ S bs cs) :
    List.Forall₂ (Relation.Comp R S) as cs := by
  induction h generalizing cs with
  | nil =>
    cases h'
    exact .nil
  | cons hab _ ih =>
    cases h' with
    | cons hbc hrest => exact .cons ⟨_, hab, hbc⟩ (ih hrest)

mutual

theorem Expr.Translates.comp : ∀ {e e' e'' : Expr}, e.Translates τ e' → e'.Translates σ e'' →
    e.Translates (τ.comp σ) e''
  | .int _ _, _, _, .int hs, .int hs' => .int ⟨_, hs, hs'⟩
  | .var _ _, _, _, .var hx hs, .var hx' hs' => .var ⟨_, hx, hx'⟩ ⟨_, hs, hs'⟩
  | .neg _ _, _, _, .neg h hs, .neg h' hs' => .neg (h.comp h') ⟨_, hs, hs'⟩
  | .arith _ _ _ _, _, _, .arith hl hr hs, .arith hl' hr' hs' =>
    .arith (hl.comp hl') (hr.comp hr') ⟨_, hs, hs'⟩
  | .read _, _, _, .read hs, .read hs' => .read ⟨_, hs, hs'⟩
  | .call _ _ _, _, _, .call hf h hs, .call hf' h' hs' =>
    .call ⟨_, hf, hf'⟩ (Expr.translatesAll_comp h h') ⟨_, hs, hs'⟩

theorem Expr.translatesAll_comp : ∀ {es es' es'' : List Expr},
    List.Forall₂ (Expr.Translates τ) es es' → List.Forall₂ (Expr.Translates σ) es' es'' →
    List.Forall₂ (Expr.Translates (τ.comp σ)) es es''
  | [], _, _, .nil, .nil => .nil
  | _ :: _, _, _, .cons h hs, .cons h' hs' => .cons (h.comp h') (Expr.translatesAll_comp hs hs')

end

theorem Pred.Translates.comp : ∀ {p p' p'' : Pred}, p.Translates τ p' → p'.Translates σ p'' →
    p.Translates (τ.comp σ) p''
  | .lit _ _, _, _, .lit hs, .lit hs' => .lit ⟨_, hs, hs'⟩
  | .not _ _, _, _, .not h hs, .not h' hs' => .not (h.comp h') ⟨_, hs, hs'⟩
  | .logic _ _ _ _, _, _, .logic hl hr hs, .logic hl' hr' hs' =>
    .logic (hl.comp hl') (hr.comp hr') ⟨_, hs, hs'⟩
  | .rel _ _ _ _, _, _, .rel hl hr hs, .rel hl' hr' hs' =>
    .rel (hl.comp hl') (hr.comp hr') ⟨_, hs, hs'⟩

mutual

theorem Command.Translates.comp : ∀ {c c' c'' : Command}, c.Translates τ c' →
    c'.Translates σ c'' → c.Translates (τ.comp σ) c''
  | .skip _, _, _, .skip hs, .skip hs' => .skip ⟨_, hs, hs'⟩
  | .assign _ _ _, _, _, .assign hx he hs, .assign hx' he' hs' =>
    .assign ⟨_, hx, hx'⟩ (he.comp he') ⟨_, hs, hs'⟩
  | .block _ _, _, _, .block h hs, .block h' hs' =>
    .block (Command.translatesAll_comp h h') ⟨_, hs, hs'⟩
  | .cond _ _ _ _ _, _, _, .cond ht hb ho hl hs, .cond ht' hb' ho' hl' hs' =>
    .cond (ht.comp ht') (hb.comp hb') (Command.branchesTranslate_comp ho ho') (hl.comp hl')
      ⟨_, hs, hs'⟩
  | .loop _ _ _, _, _, .loop ht hb hs, .loop ht' hb' hs' =>
    .loop (ht.comp ht') (hb.comp hb') ⟨_, hs, hs'⟩
  | .count _ _ _ _ _ _, _, _, .count hx hi hj hk hb hs, .count hx' hi' hj' hk' hb' hs' =>
    .count ⟨_, hx, hx'⟩ (hi.comp hi') (hj.comp hj') (hk.comp hk') (hb.comp hb') ⟨_, hs, hs'⟩
  | .switch _ _ _ _, _, _, .switch he hc hd hs, .switch he' hc' hd' hs' =>
    .switch (he.comp he') (Command.casesTranslate_comp hc hc') (hd.comp hd') ⟨_, hs, hs'⟩
  | .printInt _ _, _, _, .printInt he hs, .printInt he' hs' =>
    .printInt (he.comp he') ⟨_, hs, hs'⟩
  | .printText _ _, _, _, .printText hx hs, .printText hx' hs' =>
    .printText ⟨_, hx, hx'⟩ ⟨_, hs, hs'⟩

theorem Command.translatesAll_comp : ∀ {cs cs' cs'' : List Command},
    List.Forall₂ (Command.Translates τ) cs cs' → List.Forall₂ (Command.Translates σ) cs' cs'' →
    List.Forall₂ (Command.Translates (τ.comp σ)) cs cs''
  | [], _, _, .nil, .nil => .nil
  | _ :: _, _, _, .cons h hs, .cons h' hs' => .cons (h.comp h') (Command.translatesAll_comp hs hs')

theorem Command.branchesTranslate_comp : ∀ {bs bs' bs'' : List (Pred × Command)},
    List.Forall₂ (Command.BranchTranslates τ) bs bs' →
    List.Forall₂ (Command.BranchTranslates σ) bs' bs'' →
    List.Forall₂ (Command.BranchTranslates (τ.comp σ)) bs bs''
  | [], _, _, .nil, .nil => .nil
  | (_, _) :: _, _, _, .cons (.intro ht hb) hs, .cons (.intro ht' hb') hs' =>
    .cons (.intro (ht.comp ht') (hb.comp hb')) (Command.branchesTranslate_comp hs hs')

theorem Command.casesTranslate_comp : ∀ {cs cs' cs'' : List (Int32 × Command)},
    List.Forall₂ (Command.CaseTranslates τ) cs cs' →
    List.Forall₂ (Command.CaseTranslates σ) cs' cs'' →
    List.Forall₂ (Command.CaseTranslates (τ.comp σ)) cs cs''
  | [], _, _, .nil, .nil => .nil
  | (_, _) :: _, _, _, .cons (.intro hb) hs, .cons (.intro hb') hs' =>
    .cons (.intro (hb.comp hb')) (Command.casesTranslate_comp hs hs')

end

theorem Declaration.Translates.comp {d d' d'' : Declaration} (h : d.Translates τ d')
    (h' : d'.Translates σ d'') : d.Translates (τ.comp σ) d'' where
  name := ⟨_, h.name, h'.name⟩
  params := forall₂_comp h.params h'.params
  body := h.body.comp h'.body
  span := ⟨_, h.span, h'.span⟩

end

end Enquanto

import Enquanto.Proofs.Calls
import Enquanto.Proofs.FormInduction
import Enquanto.Proofs.SpanOrder

/-!
# Spans of nodes

What is read off tokens has its span among them, its parts lie inside that span, and they do not
overlap. A call stands where the name of its function stands, and leads to the latest function of
that name.

* `Tree.parts`: the spans of the parts of a tree, in the order of the source;
* `Tree.LiesAmong`: its ends are ends of tokens, and its parts lie inside it and in order;
* `Flattening.ReadFrom`: what holds of all subtrees of what was read;
* `Spread`: spans and subtrees that lie, in order, among tokens; it is kept by putting phrases
  behind each other and by putting a node above its parts (`Lies`);
* `ExprForm.Derives.lies`, `PredForm.Derives.lies` and `CommandForm.Derives.lies`: every tree that
  is read lies on its tokens, with all its subtrees.
-/

namespace Enquanto

open Grammar

/-! ## Trees and their parts -/

/-- A tree of any kind. -/
inductive Tree where
  | expr (e : Expr)
  | pred (p : Pred)
  | command (c : Command)

namespace Tree

def span : Tree → Span
  | .expr e => e.span
  | .pred p => p.span
  | .command c => c.span

/-- The parts of a tree, in the order of the source. -/
def children : Tree → List Tree
  | .expr (.int _ _) | .expr (.var _ _) | .expr (.read _) => []
  | .expr (.neg operand _) => [.expr operand]
  | .expr (.arith _ left right _) => [.expr left, .expr right]
  | .expr (.call _ args _) => args.map .expr
  | .pred (.lit _ _) => []
  | .pred (.not operand _) => [.pred operand]
  | .pred (.logic _ left right _) => [.pred left, .pred right]
  | .pred (.rel _ left right _) => [.expr left, .expr right]
  | .command (.skip _) | .command (.printText _ _) => []
  | .command (.assign _ value _) | .command (.printInt value _) => [.expr value]
  | .command (.block body _) => body.map .command
  | .command (.cond test body others last _) =>
    [.pred test, .command body] ++ others.flatMap (fun b => [.pred b.1, .command b.2]) ++
      [.command last]
  | .command (.loop test body _) => [.pred test, .command body]
  | .command (.count _ start stop step body _) =>
    [.expr start, .expr stop, .expr step, .command body]
  | .command (.switch selector cases default _) =>
    [.expr selector] ++ cases.map (.command ·.2) ++ [.command default]

/-- The spans of the parts of a tree, in the order of the source. -/
def parts (t : Tree) : List Span := t.children.map span

theorem parts_call (function : FunctionId) (args : List Expr) (s : Span) :
    parts (.expr (.call function args s)) = args.map Expr.span := by
  simp [parts, children, Function.comp_def, span]

theorem parts_block (body : List Command) (s : Span) :
    parts (.command (.block body s)) = body.map Command.span := by
  simp [parts, children, Function.comp_def, span]

theorem parts_cond (test : Pred) (body : Command) (others : List (Pred × Command)) (last : Command)
    (s : Span) : parts (.command (.cond test body others last s)) =
      [test.span, body.span] ++ others.flatMap (fun b => [b.1.span, b.2.span]) ++ [last.span] := by
  simp [parts, children, List.map_flatMap, span]

theorem parts_switch (selector : Expr) (cases : List (Int32 × Command)) (default : Command)
    (s : Span) : parts (.command (.switch selector cases default s)) =
      [selector.span] ++ cases.map (·.2.span) ++ [default.span] := by
  simp [parts, children, Function.comp_def, span]

end Tree

/-! ## Subtrees -/

/-- A call stands where its function is named, and leads to the latest function of that name, which
has as many parameters as the call has arguments. -/
def Expr.CallsBy (declared : List Signature) (ts : List (Token Name)) : Expr → Prop
  | .call function args span => ∃ x s, identifierAt x s ∈ ts ∧ s.start = span.start ∧
      function = Signature.callee declared x ∧ Signature.Declares declared x args.length
  | _ => True

/-- The tree has its ends on tokens, and its parts inside, in order and without overlap. -/
structure Tree.LiesAmong (t : Tree) (ts : List (Token Name)) : Prop where
  endsOn : t.span.EndsOn ts
  inOrder : Span.InOrder t.span.start t.span.stop t.parts

theorem Tree.LiesAmong.mono {t : Tree} {ts us : List (Token Name)} (h : t.LiesAmong ts)
    (hsub : ts ⊆ us) : t.LiesAmong us :=
  ⟨h.endsOn.mono hsub, h.inOrder⟩

/-- All subtrees lie among the tokens, and the expressions among them satisfy `C`. -/
structure Flattening.ReadFrom (ts : List (Token Name)) (C : Expr → Prop) (f : Flattening) :
    Prop where
  exprs : ∀ x ∈ f.exprs, (Tree.expr x.2).LiesAmong ts ∧ C x.2
  preds : ∀ x ∈ f.preds, (Tree.pred x.2).LiesAmong ts
  commands : ∀ x ∈ f.commands, (Tree.command x.2).LiesAmong ts

attribute [ext] Flattening

namespace Flattening

theorem append_assoc (f g h : Flattening) : f ++ g ++ h = f ++ (g ++ h) := by
  ext1 <;> simp

theorem append_empty (f : Flattening) : f ++ {} = f := by
  ext1 <;> simp

namespace ReadFrom

variable {ts us : List (Token Name)} {C C' : Expr → Prop} {f g : Flattening}

theorem empty : ReadFrom ts C {} := ⟨nofun, nofun, nofun⟩

theorem expr (scope : ScopeId) {e : Expr} (h : (Tree.expr e).LiesAmong ts) (hC : C e) :
    (Flattening.expr scope e).ReadFrom ts C :=
  ⟨by simpa [Flattening.expr] using ⟨h, hC⟩, nofun, nofun⟩

theorem pred (scope : ScopeId) {p : Pred} (h : (Tree.pred p).LiesAmong ts) :
    (Flattening.pred scope p).ReadFrom ts C :=
  ⟨nofun, by simpa [Flattening.pred] using h, nofun⟩

theorem command (scope : ScopeId) {c : Command} (h : (Tree.command c).LiesAmong ts) :
    (Flattening.command scope c).ReadFrom ts C :=
  ⟨nofun, nofun, by simpa [Flattening.command] using h⟩

theorem append (hf : f.ReadFrom ts C) (hg : g.ReadFrom ts C) : (f ++ g).ReadFrom ts C :=
  ⟨List.forall_mem_append.mpr ⟨hf.exprs, hg.exprs⟩,
    List.forall_mem_append.mpr ⟨hf.preds, hg.preds⟩,
    List.forall_mem_append.mpr ⟨hf.commands, hg.commands⟩⟩

theorem mono (h : f.ReadFrom ts C) (hsub : ts ⊆ us)
    (hC : ∀ e : Expr, e.span.EndsOn ts → C e → C' e) : f.ReadFrom us C' where
  exprs := fun x hx =>
    have ⟨hlies, hcall⟩ := h.exprs x hx
    ⟨hlies.mono hsub, hC x.2 hlies.endsOn hcall⟩
  preds := fun x hx => (h.preds x hx).mono hsub
  commands := fun x hx => (h.commands x hx).mono hsub

end ReadFrom

end Flattening

theorem Expr.CallsBy.mono {declared : List Signature} {ts us : List (Token Name)} (hsub : ts ⊆ us) :
    ∀ {e : Expr}, e.CallsBy declared ts → e.CallsBy declared us
  | .int _ _, _ | .var _ _, _ | .neg _ _, _ | .arith _ _ _ _, _ | .read _, _ => trivial
  | .call _ _ _, ⟨x, s, hmem, h⟩ => ⟨x, s, hsub hmem, h⟩

/-! ## Spread over tokens -/

/-- The spans lie in order among the tokens, and the subtrees are read off them. -/
structure Spread (declared : List Signature) (ts : List (Token Name)) (parts : List Span)
    (f : Flattening) : Prop where
  inOrder : ∀ a b, Runs a b ts → Span.InOrder a b parts
  endsOn : ∀ s ∈ parts, s.EndsOn ts
  readFrom : ∀ a b, Runs a b ts → f.ReadFrom ts (Expr.CallsBy declared ts)

namespace Spread

variable {declared : List Signature} {ts us : List (Token Name)} {parts parts' : List Span}
  {f g : Flattening} {scope : ScopeId}

theorem nil (ts : List (Token Name)) : Spread declared ts [] {} :=
  ⟨fun _ _ h => h.le, nofun, fun _ _ _ => .empty⟩

/-- What is read behind something else lies behind it. -/
theorem append (h : Spread declared ts parts f) (h' : Spread declared us parts' g) :
    Spread declared (ts ++ us) (parts ++ parts') (f ++ g) where
  inOrder := by
    intro a c hruns
    obtain ⟨b, hts, hus⟩ := runs_append_iff.mp hruns
    exact (h.inOrder a b hts).append (h'.inOrder b c hus)
  endsOn := by
    refine List.forall_mem_append.mpr ⟨fun s hs => ?_, fun s hs => ?_⟩
    · exact (h.endsOn s hs).mono (List.subset_append_left ..)
    · exact (h'.endsOn s hs).mono (List.subset_append_right ..)
  readFrom := by
    intro a c hruns
    obtain ⟨b, hts, hus⟩ := runs_append_iff.mp hruns
    have hleft : ts ⊆ ts ++ us := List.subset_append_left ..
    have hright : us ⊆ ts ++ us := List.subset_append_right ..
    exact ((h.readFrom a b hts).mono hleft fun e _ => Expr.CallsBy.mono hleft).append
      ((h'.readFrom b c hus).mono hright fun e _ => Expr.CallsBy.mono hright)

theorem skip_left (us : List (Token Name)) (h : Spread declared ts parts f) :
    Spread declared (us ++ ts) parts f :=
  (nil us).append h

theorem skip_right (us : List (Token Name)) (h : Spread declared ts parts f) :
    Spread declared (ts ++ us) parts f := by
  have h' := h.append (nil us)
  rwa [List.append_nil, Flattening.append_empty] at h'

/-- A node above its parts that runs from the first token to the last. -/
theorem whole {t : Tree} (h : Spread declared ts parts f) (hne : ts ≠ [])
    (hparts : t.parts = parts) (hspan : t.span = wholeSpan ts)
    (hg : ∀ a b, Runs a b ts → t.LiesAmong ts → g.ReadFrom ts (Expr.CallsBy declared ts)) :
    Spread declared ts [t.span] (f ++ g) where
  inOrder := by
    intro a b hruns
    obtain ⟨ha, hb, htight⟩ := hruns.tighten hne
    rw [hspan]
    exact ⟨ha, htight.le, hb⟩
  endsOn := by simpa [hspan] using Span.EndsOn.wholeSpan hne
  readFrom := by
    intro a b hruns
    obtain ⟨-, -, htight⟩ := hruns.tighten hne
    refine (h.readFrom a b hruns).append (hg a b hruns ⟨?_, ?_⟩)
    · rw [hspan]
      exact Span.EndsOn.wholeSpan hne
    · rw [hparts, hspan]
      exact h.inOrder _ _ htight

/-- A node above two parts that runs from the first part to the second. -/
theorem merge {t : Tree} {l r : Span} (h : Spread declared ts [l, r] f) (hparts : t.parts = [l, r])
    (hspan : t.span = l.merge r)
    (hg : t.LiesAmong ts → g.ReadFrom ts (Expr.CallsBy declared ts)) :
    Spread declared ts [t.span] (f ++ g) := by
  have hends : t.span.EndsOn ts := hspan ▸ (h.endsOn l (by simp)).merge (h.endsOn r (by simp))
  have hmerge (a b : Nat) (hruns : Runs a b ts) :
      Span.InOrder a b [t.span] ∧ Span.InOrder t.span.start t.span.stop t.parts := by
    obtain ⟨ha, hl, hlr, hr, hb⟩ := h.inOrder a b hruns
    have hb : r.stop ≤ b := hb
    have hstart : t.span.start = l.start := by rw [hspan, Span.merge_start]; omega
    have hstop : t.span.stop = r.stop := by rw [hspan, Span.merge_stop]; omega
    simp only [hparts, Span.InOrder, hstart, hstop]
    omega
  refine ⟨fun a b hruns => (hmerge a b hruns).1, by simpa using hends, fun a b hruns => ?_⟩
  exact (h.readFrom a b hruns).append (hg ⟨hends, (hmerge a b hruns).2⟩)

/-- What is left out behind the last token. -/
theorem gap {t : Tree} (h : Spread declared ts parts f) (hne : ts ≠ []) (hparts : t.parts = [])
    (hspan : t.span = gapAfter ts)
    (hg : t.LiesAmong ts → g.ReadFrom ts (Expr.CallsBy declared ts)) :
    Spread declared ts (parts ++ [t.span]) (f ++ g) := by
  have hends : t.span.EndsOn ts := hspan ▸ Span.EndsOn.gapAfter hne
  refine ⟨fun a b hruns => ?_, List.forall_mem_append.mpr ⟨h.endsOn, by simpa using hends⟩,
    fun a b hruns => (h.readFrom a b hruns).append (hg ⟨hends, ?_⟩)⟩
  · obtain ⟨hlast, hb⟩ := hruns.to_last hne
    rw [hspan]
    exact (h.inOrder _ _ hlast).append ⟨Nat.le_refl _, Nat.le_refl _, hb⟩
  · rw [hparts, hspan]
    exact Nat.le_refl _

section
variable {α β : Type} {mark : TokenKind Name → β → Prop} {Q : α → Prop} {spans : α → List Span}
  {flat : α → Flattening} {F : List α → Flattening}

/-- Phrases one behind the other, each after a token. -/
theorem many (hnil : F [] = {}) (hcons : ∀ a as, F (a :: as) = flat a ++ F as)
    {rest : List (β × α)} (hQ : ∀ a ∈ rest.map Prod.snd, Q a)
    (h : Many mark (fun ts a => Q a → Spread declared ts (spans a) (flat a)) ts rest) :
    Spread declared ts ((rest.map Prod.snd).flatMap spans) (F (rest.map Prod.snd)) := by
  induction h with
  | nil =>
    rw [List.map_nil, hnil]
    exact nil []
  | @cons t b us vs a rest _ ha _ ih =>
    obtain ⟨hQa, hQrest⟩ := List.forall_mem_cons.mp hQ
    rw [List.map_cons, hcons, List.flatMap_cons]
    exact ((ha hQa).append (ih hQrest)).skip_left [t]

theorem sepBy (hnil : F [] = {}) (hcons : ∀ a as, F (a :: as) = flat a ++ F as)
    {k : TokenKind Name} {as : List α} (hQ : ∀ a ∈ as, Q a)
    (h : SepBy k (fun ts a => Q a → Spread declared ts (spans a) (flat a)) ts as) :
    Spread declared ts (as.flatMap spans) (F as) := by
  cases h with
  | intro ha hrest =>
    obtain ⟨hQa, hQrest⟩ := List.forall_mem_cons.mp hQ
    rw [hcons, List.flatMap_cons]
    exact (ha hQa).append (many hnil hcons hQrest hrest)

end

/-! Nodes -/

theorem expr {e : Expr} (h : Spread declared ts parts f) (hne : ts ≠ [])
    (hparts : (Tree.expr e).parts = parts) (hspan : e.span = wholeSpan ts)
    (hcall : ∀ a b, Runs a b ts → e.CallsBy declared ts) :
    Spread declared ts [e.span] (f ++ .expr scope e) :=
  h.whole hne hparts hspan fun a b hruns hlies => .expr scope hlies (hcall a b hruns)

theorem pred {p : Pred} (h : Spread declared ts parts f) (hne : ts ≠ [])
    (hparts : (Tree.pred p).parts = parts) (hspan : p.span = wholeSpan ts) :
    Spread declared ts [p.span] (f ++ .pred scope p) :=
  h.whole hne hparts hspan fun _ _ _ hlies => .pred scope hlies

theorem command {c : Command} (h : Spread declared ts parts f) (hne : ts ≠ [])
    (hparts : (Tree.command c).parts = parts) (hspan : c.span = wholeSpan ts) :
    Spread declared ts [c.span] (f ++ .command scope c) :=
  h.whole hne hparts hspan fun _ _ _ hlies => .command scope hlies

end Spread

/-! ## Forms -/

/-- There are tokens, and what is read off them, if it is admissible, is spread over them. -/
def Lies (declared : List Signature) (ts : List (Token Name)) (admissible : Prop) (span : Span)
    (flat : ScopeId → Flattening) : Prop :=
  ts ≠ [] ∧ (admissible → ∀ scope, Spread declared ts [span] (flat scope))

section
variable {declared : List Signature} {ts us : List (Token Name)} {A B : Prop} {l r : Span}
  {F G H : ScopeId → Flattening}

theorem Lies.paren {s₁ s₂ : Span} (h : Lies declared ts A l F) :
    Lies declared (symbolAt .openParen s₁ :: (ts ++ [symbolAt .closeParen s₂])) A l F := by
  refine ⟨by simp, fun hadm scope => ?_⟩
  exact ((h.2 hadm scope).skip_right [symbolAt .closeParen s₂]).skip_left [symbolAt .openParen s₁]

theorem Lies.binary {t : Token Name} {n : Tree} (hl : Lies declared ts A l F)
    (hr : Lies declared us B r G) (hparts : n.parts = [l, r]) (hspan : n.span = l.merge r)
    (hnode : ∀ us scope, n.LiesAmong us → (H scope).ReadFrom us (Expr.CallsBy declared us)) :
    Lies declared (ts ++ t :: us) (A ∧ B) n.span
      fun scope => F scope ++ G scope ++ H scope := by
  refine ⟨by simp, fun ⟨hadml, hadmr⟩ scope => ?_⟩
  exact ((hl.2 hadml scope).append ((hr.2 hadmr scope).skip_left [t])).merge hparts hspan
    (hnode _ scope)

theorem Lies.merge_lastSpan {t : Token Name} (h : Lies declared ts A l F) :
    t.span.merge (lastSpan ts) = wholeSpan (t :: ts) := by
  rw [wholeSpan, lastSpan_cons h.1]
  rfl

end

/-! ## Expressions -/

namespace ExprForm

/-- The tree of an expression is spread over the tokens. -/
abbrev Lies (declared : List Signature) (ts : List (Token Name)) (e : ExprForm) : Prop :=
  Enquanto.Lies declared ts (e.Admissible declared) (e.tree declared).span (e.tree declared).flat

variable {declared : List Signature} {ts us : List (Token Name)}

theorem lies_leaf {t : Token Name} {e : ExprForm}
    (hparts : (Tree.expr (e.tree declared)).parts = [])
    (hflat : ∀ scope, (e.tree declared).flat scope = .expr scope (e.tree declared))
    (hspan : (e.tree declared).span = t.span) (hcall : (e.tree declared).CallsBy declared [t]) :
    e.Lies declared [t] := by
  refine ⟨by simp, fun _ scope => ?_⟩
  simp only [hflat]
  have hwhole : wholeSpan [t] = t.span := Span.merge_self t.span
  exact Spread.expr (.nil [t]) (by simp) hparts (hspan.trans hwhole.symm) fun _ _ _ => hcall

theorem spread_trees {args : List ExprForm} (h : Listed (Lies declared) ts args)
    (hadm : AdmissibleAll declared args) (scope : ScopeId) :
    Spread declared ts ((trees declared args).map Expr.span)
      (Expr.flatAll scope (trees declared args)) := by
  cases h with
  | none => exact .nil []
  | some h =>
    have hspread := Spread.sepBy (F := fun es => Expr.flatAll scope (trees declared es))
      rfl (fun _ _ => rfl) (admissibleAll_iff.mp hadm) (h.imp fun us e _ he hadm => he.2 hadm scope)
    simpa [← List.map_eq_flatMap, trees_eq_map, Function.comp_def] using hspread

theorem lies_call {x : Name} {s s₁ s₂ : Span} {args : List ExprForm}
    (h : Listed (Lies declared) ts args) :
    (ExprForm.call x s args (s.merge s₂)).Lies declared (identifierAt x s ::
      symbolAt .openParen s₁ :: (ts ++ [symbolAt .closeParen s₂])) := by
  have hspan : s.merge s₂ = wholeSpan (identifierAt x s :: symbolAt .openParen s₁ ::
      (ts ++ [symbolAt .closeParen s₂])) := by
    have hlast : lastSpan (identifierAt x s :: symbolAt .openParen s₁ :: ts ++
        [symbolAt .closeParen s₂]) = s₂ := lastSpan_append (by simp)
    exact congrArg s.merge hlast.symm
  refine ⟨by simp, fun ⟨hdeclares, hadm⟩ scope => ?_⟩
  have hparts := ((spread_trees h hadm scope).skip_right [symbolAt .closeParen s₂]).skip_left
    [identifierAt x s, symbolAt .openParen s₁]
  refine hparts.expr (by simp) (Tree.parts_call _ _ _) hspan fun a b hruns => ?_
  refine ⟨x, s, by simp, ?_, rfl, by simpa [trees_eq_map] using hdeclares⟩
  rw [hspan]
  exact (congrArg Span.start hruns.wholeSpan_eq).symm

theorem lies_neg {s : Span} {e : ExprForm} (h : e.Lies declared ts) :
    (ExprForm.neg e (s.merge (lastSpan ts))).Lies declared (symbolAt .minus s :: ts) := by
  have hspan := h.merge_lastSpan (t := symbolAt .minus s)
  refine ⟨by simp, fun hadm scope => ?_⟩
  unfold tree
  split
  · exact Spread.expr (.nil _) (by simp) rfl hspan fun _ _ _ => trivial
  · next hleast =>
    have hoperand := (h.2 (hadm.resolve_left hleast) scope).skip_left [symbolAt .minus s]
    exact hoperand.expr (by simp) rfl hspan fun _ _ _ => trivial

theorem lies_arith {op : ArithOp} {s : Span} {l r : ExprForm} (hl : l.Lies declared ts)
    (hr : r.Lies declared us) :
    (ExprForm.arith op l r).Lies declared (ts ++ symbolAt op.symbol s :: us) := by
  exact Lies.binary (n := .expr (.binary op _ _)) hl hr rfl rfl fun us scope hlies =>
    .expr scope hlies trivial

theorem Derives.lies {level : ExprLevel} {e : ExprForm} (h : Derives level ts e) :
    e.Lies declared ts := by
  refine Derives.induct ?_ ?_ ?_ ?_ ?_ ?_ ?_ h
  · exact fun m s => lies_leaf rfl (fun _ => rfl) rfl trivial
  · exact fun s => lies_leaf rfl (fun _ => rfl) rfl trivial
  · exact fun x s s₁ s₂ ts args => lies_call
  · exact fun x s => lies_leaf rfl (fun _ => rfl) rfl trivial
  · exact fun s₁ s₂ ts e => Lies.paren
  · exact fun s ts e => lies_neg
  · exact fun op s ts us l r => lies_arith

end ExprForm

/-! ## Predicates -/

namespace PredForm

/-- The tree of a predicate is spread over the tokens. -/
abbrev Lies (declared : List Signature) (ts : List (Token Name)) (p : PredForm) : Prop :=
  Enquanto.Lies declared ts (p.Admissible declared) (p.tree declared).span (p.tree declared).flat

variable {declared : List Signature} {ts us : List (Token Name)}

theorem lies_lit {t : Token Name} (value : Bool) :
    (PredForm.lit value t.span).Lies declared [t] := by
  refine ⟨by simp, fun _ scope => ?_⟩
  have hwhole : wholeSpan [t] = t.span := Span.merge_self t.span
  exact Spread.pred (.nil [t]) (by simp) rfl hwhole.symm

theorem lies_rel {op : RelOp} {s : Span} {l r : ExprForm} (hl : l.Lies declared ts)
    (hr : r.Lies declared us) :
    (PredForm.rel op l r).Lies declared (ts ++ symbolAt op.symbol s :: us) := by
  exact Lies.binary (n := .pred (.relation op _ _)) hl hr rfl rfl fun us scope => .pred scope

theorem lies_not {s : Span} {p : PredForm} (h : p.Lies declared ts) :
    (PredForm.not p (s.merge (lastSpan ts))).Lies declared (keywordAt .nao s :: ts) := by
  refine ⟨by simp, fun hadm scope => ?_⟩
  have hoperand := (h.2 hadm scope).skip_left [keywordAt .nao s]
  exact hoperand.pred (by simp) rfl (h.merge_lastSpan (t := keywordAt .nao s))

theorem lies_logic {op : LogicOp} {s : Span} {l r : PredForm} (hl : l.Lies declared ts)
    (hr : r.Lies declared us) :
    (PredForm.logic op l r).Lies declared (ts ++ keywordAt op.keyword s :: us) := by
  exact Lies.binary (n := .pred (.binary op _ _)) hl hr rfl rfl fun us scope => .pred scope

theorem Derives.lies {level : PredLevel} {p : PredForm} (h : Derives level ts p) :
    p.Lies declared ts := by
  refine Derives.induct ?_ ?_ ?_ ?_ ?_ ?_ h
  · exact fun s => lies_lit _
  · exact fun s => lies_lit _
  · exact fun s₁ s₂ ts p => Lies.paren
  · exact fun op s ts us l r hl hr => lies_rel hl.lies hr.lies
  · exact fun s ts p => lies_not
  · exact fun op s ts us l r => lies_logic

end PredForm

/-! ## Commands -/

namespace CommandForm

/-- The tree of a command is spread over the tokens. -/
abbrev Lies (declared : List Signature) (ts : List (Token Name)) (c : CommandForm) : Prop :=
  Enquanto.Lies declared ts (c.Admissible declared) (c.tree declared).span (c.tree declared).flat

variable {declared : List Signature} {ts us : List (Token Name)}

/-- All shorter commands are spread over their tokens. -/
def LieBelow (declared : List Signature) (n : Nat) : Prop :=
  ∀ ts c, ts.length < n → Derives ts c → c.Lies declared ts

theorem Branch.spread {b : PredForm × CommandForm} (h : Branch ts b)
    (hshort : LieBelow declared ts.length)
    (hadm : b.1.Admissible declared ∧ b.2.Admissible declared) (scope : ScopeId) :
    Spread declared ts [(b.1.tree declared).span, (b.2.tree declared).span]
      ((b.1.tree declared).flat scope ++ (b.2.tree declared).flat scope) := by
  cases h with
  | @intro s ts us test body htest hbody =>
    have hb : body.Lies declared us := hshort us body (by simp; omega) hbody
    exact (htest.lies.2 hadm.1 scope).append ((hb.2 hadm.2 scope).skip_left [keywordAt .entao s])

theorem Case.spread {b : CaseLabel × CommandForm} (h : Case ts b)
    (hshort : LieBelow declared ts.length) (hadm : b.1.Admissible ∧ b.2.Admissible declared)
    (scope : ScopeId) : Spread declared ts [(b.2.tree declared).span]
      ((b.2.tree declared).flat scope) := by
  cases h with
  | @intro s ts us label body hlabel hbody =>
    have hb : body.Lies declared us := hshort us body (by simp; omega) hbody
    exact ((hb.2 hadm.2 scope).skip_left [symbolAt .colon s]).skip_left ts

theorem spread_branches {others : List (Unit × (PredForm × CommandForm))} {k : Keyword}
    (h : Many (just (.keyword k)) Branch ts others) (hshort : LieBelow declared ts.length)
    (hadm : AdmissibleBranches declared (others.map Prod.snd)) (scope : ScopeId) :
    Spread declared ts
      ((branchTrees declared (others.map Prod.snd)).flatMap fun b => [b.1.span, b.2.span])
      (Command.flatBranches scope (branchTrees declared (others.map Prod.snd))) := by
  have hspread := Spread.many (F := fun bs => Command.flatBranches scope (branchTrees declared bs))
    rfl (fun _ _ => rfl) (admissibleBranches_iff.mp hadm)
    (h.imp fun us b hlt hb hadm => hb.spread (fun ts c hts => hshort ts c (by omega)) hadm scope)
  simpa [branchTrees_eq_map, List.flatMap_map] using hspread

theorem spread_cases {cases : List (Unit × (CaseLabel × CommandForm))} {k : Keyword}
    (h : Many (just (.keyword k)) Case ts cases) (hshort : LieBelow declared ts.length)
    (hadm : AdmissibleCases declared (cases.map Prod.snd)) (scope : ScopeId) :
    Spread declared ts ((caseTrees declared (cases.map Prod.snd)).map (·.2.span))
      (Command.flatCases scope (caseTrees declared (cases.map Prod.snd))) := by
  have hspread := Spread.many (F := fun cs => Command.flatCases scope (caseTrees declared cs))
    rfl (fun _ _ => rfl) (admissibleCases_iff.mp hadm)
    (h.imp fun us b hlt hb hadm => hb.spread (fun ts c hts => hshort ts c (by omega)) hadm scope)
  simpa [caseTrees_eq_map, List.flatMap_map, ← List.map_eq_flatMap, Function.comp_def] using hspread

theorem spread_trees {body : List CommandForm} {k : TokenKind Name} (h : SepBy k Derives ts body)
    (hshort : LieBelow declared (ts.length + 1)) (hadm : AdmissibleAll declared body)
    (scope : ScopeId) : Spread declared ts ((trees declared body).map Command.span)
      (Command.flatAll scope (trees declared body)) := by
  have hspread := Spread.sepBy (F := fun cs => Command.flatAll scope (trees declared cs))
    rfl (fun _ _ => rfl) (admissibleAll_iff.mp hadm)
    (h.imp fun us c hle hc hadm => (hshort us c (by omega) hc).2 hadm scope)
  simpa [← List.map_eq_flatMap, trees_eq_map, Function.comp_def] using hspread

/-- One step: a command is spread over its tokens if all shorter ones are. -/
theorem Shape.lies {shape : Span → CommandForm} (h : Shape ts shape)
    (hshort : LieBelow declared ts.length) : (shape (wholeSpan ts)).Lies declared ts := by
  cases h with
  | @assign x s s₁ ts e he =>
    refine ⟨by simp, fun hadm scope => ?_⟩
    have hvalue := (he.lies.2 hadm scope).skip_left [identifierAt x s, symbolAt .assign s₁]
    exact hvalue.command (by simp) rfl rfl
  | @skip s =>
    refine ⟨by simp, fun hadm scope => ?_⟩
    exact Spread.command (.nil _) (by simp) rfl rfl
  | @printText s s₁ x =>
    refine ⟨by simp, fun hadm scope => ?_⟩
    exact Spread.command (.nil _) (by simp) rfl rfl
  | @printInt s ts e he =>
    refine ⟨by simp, fun hadm scope => ?_⟩
    have hvalue := (he.lies.2 hadm scope).skip_left [keywordAt .escreva s]
    exact hvalue.command (by simp) rfl rfl
  | @block s s₁ ts body hbody =>
    refine ⟨by simp, fun hadm scope => ?_⟩
    have hparts := spread_trees hbody (fun us c hlt => hshort us c (by simp; omega)) hadm scope
    exact ((hparts.skip_right [symbolAt .closeBrace s₁]).skip_left [symbolAt .openBrace s]).command
      (by simp) (Tree.parts_block _ _) rfl
  | @loop s s₁ ts us test body htest hbody =>
    refine ⟨by simp, fun ⟨hadmt, hadmb⟩ scope => ?_⟩
    have hb := ((hshort us body (by simp; omega) hbody).2 hadmb scope).skip_left
      [keywordAt .faca s₁]
    exact (((htest.lies.2 hadmt scope).append hb).skip_left [keywordAt .enquanto s]).command
      (by simp) rfl rfl
  | @cond s s₁ ts us vs test body last others hfirst hothers hlast =>
    refine ⟨by simp, fun ⟨hadmt, hadmb, hadmo, hadml⟩ scope => ?_⟩
    have hb := hfirst.spread (fun us c hlt => hshort us c (by simp; omega)) ⟨hadmt, hadmb⟩ scope
    have ho := spread_branches hothers (fun us c hlt => hshort us c (by simp; omega)) hadmo scope
    have hl := ((hshort vs last (by simp; omega) hlast).2 hadml scope).skip_left
      [keywordAt .senao s₁]
    have hparts := (hb.append (ho.append hl)).skip_left [keywordAt .se s]
    rw [← Flattening.append_assoc] at hparts
    exact hparts.command (by simp) ((Tree.parts_cond ..).trans (List.append_assoc ..)) rfl
  | @condOnly s ts us test body others hfirst hothers =>
    refine ⟨by simp, fun ⟨hadmt, hadmb, hadmo⟩ scope => ?_⟩
    have hb := hfirst.spread (fun us c hlt => hshort us c (by simp; omega)) ⟨hadmt, hadmb⟩ scope
    have ho := spread_branches hothers (fun us c hlt => hshort us c (by simp; omega)) hadmo scope
    have hgap := (hb.append ho).gap (t := .command (.skip _)) (by cases hfirst; simp) rfl rfl
      (.command scope)
    exact (hgap.skip_left [keywordAt .se s]).command (by simp) (Tree.parts_cond ..) rfl
  | @count x s s₁ s₂ s₃ s₄ s₅ ts us vs ws start stop step body hi hj hk hbody =>
    refine ⟨by simp, fun ⟨hadmi, hadmj, hadmk, hadmb⟩ scope => ?_⟩
    have hb := ((hshort ws body (by simp; omega) hbody).2 hadmb scope).skip_left
      [keywordAt .faca s₅]
    have hkb := ((hk.lies.2 hadmk scope).append hb).skip_left [keywordAt .passo s₄]
    have hjb := ((hj.lies.2 hadmj scope).append hkb).skip_left [keywordAt .ate s₃]
    have hparts := ((hi.lies.2 hadmi scope).append hjb).skip_left
      [keywordAt .para s, identifierAt x s₁, keywordAt .de s₂]
    simp only [← Flattening.append_assoc] at hparts
    exact hparts.command (by simp) rfl rfl
  | @countOnes x s s₁ s₂ s₃ s₄ ts us ws start stop body hi hj hbody =>
    refine ⟨by simp, fun ⟨hadmi, hadmj, hadmb⟩ scope => ?_⟩
    have hb := ((hshort ws body (by simp; omega) hbody).2 hadmb scope).skip_left
      [keywordAt .faca s₄]
    have hstop : stop.Lies declared us := hj.lies
    have hgap := (hstop.2 hadmj scope).gap (t := .expr (.int 1 _)) hstop.1 rfl rfl
      fun hlies => .expr scope hlies trivial
    have hjb := (hgap.append hb).skip_left [keywordAt .ate s₃]
    have hparts := ((hi.lies.2 hadmi scope).append hjb).skip_left
      [keywordAt .para s, identifierAt x s₁, keywordAt .de s₂]
    simp only [← Flattening.append_assoc] at hparts
    exact hparts.command (by simp) rfl rfl
  | @switch s s₁ s₂ ts us vs selector cases default hselector hcases hdefault =>
    refine ⟨by simp, fun ⟨hadms, hadmc, hadmd⟩ scope => ?_⟩
    have hc := spread_cases hcases (fun us c hlt => hshort us c (by simp; omega)) hadmc scope
    have hd := ((hshort vs default (by simp; omega) hdefault).2 hadmd scope).skip_left
      [keywordAt .outro s₁, symbolAt .colon s₂]
    have hparts := ((hselector.lies.2 hadms scope).append (hc.append hd)).skip_left
      [keywordAt .escolha s]
    rw [← Flattening.append_assoc] at hparts
    exact hparts.command (by simp) ((Tree.parts_switch ..).trans (List.append_assoc ..)) rfl

theorem Derives.lies {c : CommandForm} (h : Derives ts c) : c.Lies declared ts :=
  h.induct fun _ _ hshape hshort => hshape.lies hshort

end CommandForm

end Enquanto

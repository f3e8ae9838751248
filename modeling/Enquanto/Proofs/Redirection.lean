import Enquanto.Proofs.ModuleLayout
import Enquanto.Proofs.Translation
import Enquanto.Proofs.Vocabulary

/-!
# Calls among other functions

What a phrase means depends on the functions declared so far, but only by its calls. Among other
functions, in which every function that it calls has a counterpart, it is admissible if it was, and
its tree differs by the numbers of these functions only.

* `Grammar.CallsIn`: a name right before a parenthesis, which is how calls are written;
* `Signature.Carries`: functions that may be called have counterparts;
* `ExprForm.Derives.carried`, `PredForm.Derives.carried` and `CommandForm.Derives.carried`: phrases
  whose calls have counterparts;
* `Grammar.DeclaredFirst`: a name that is not called before it is declared again;
* `ProgramForm.Derives.carried`: programs among other functions.
-/

namespace Enquanto

open Grammar

/-! ## Where functions are called -/

namespace Grammar

/-- The name stands right before an opening parenthesis. -/
def CallsIn {ν : Type} (x : ν) (kinds : List (TokenKind ν)) : Prop :=
  [.identifier x, .symbol .openParen] <:+: kinds

/-- None of the names to avoid is called in the tokens. -/
def Clear (avoid : Name → Prop) (ts : List (Token Name)) : Prop :=
  ∀ x, CallsIn x (ts.map Token.kind) → ¬ avoid x

variable {α β : Type} {avoid : Name → Prop} {mark : TokenKind Name → β → Prop}
  {ts us : List (Token Name)} {phrase : List (Token Name) → α → Prop}

theorem Clear.of_infix (h : Clear avoid ts) (hsub : us <:+: ts) : Clear avoid us :=
  fun x hx => h x (hx.trans (hsub.map Token.kind))

theorem Many.exists_infix {rest : List (β × α)} (h : Many mark phrase ts rest) :
    ∀ x ∈ rest, ∃ us, us <:+: ts ∧ phrase us x.2 := by
  induction h with
  | nil => exact List.forall_mem_nil _
  | @cons t b us vs a rest _ hp _ ih =>
    refine List.forall_mem_cons.mpr ⟨⟨us, ⟨[t], vs, rfl⟩, hp⟩, fun x hx => ?_⟩
    obtain ⟨ws, hws, hp⟩ := ih x hx
    exact ⟨ws, hws.trans ⟨t :: us, [], by simp⟩, hp⟩

theorem SepBy.exists_infix {k : TokenKind Name} {as : List α} (h : SepBy k phrase ts as) :
    ∀ a ∈ as, ∃ us, us <:+: ts ∧ phrase us a := by
  cases h with
  | @intro us vs a rest hp hm =>
    refine List.forall_mem_cons.mpr ⟨⟨us, ⟨[], vs, rfl⟩, hp⟩, ?_⟩
    refine List.forall_mem_map.mpr fun x hx => ?_
    obtain ⟨ws, hws, hp⟩ := hm.exists_infix x hx
    exact ⟨ws, hws.trans ⟨us, [], by simp⟩, hp⟩

theorem Listed.exists_infix {as : List α} (h : Listed phrase ts as) :
    ∀ a ∈ as, ∃ us, us <:+: ts ∧ phrase us a := by
  cases h with
  | none => exact List.forall_mem_nil _
  | some hs => exact hs.exists_infix

end Grammar

/-- Nothing but functions gets another number. -/
def Translation.ofFunctions (R : FunctionId → FunctionId → Prop) : Translation := ⟨Eq, R, Eq⟩

/-- Every function that can be called among the first ones, unless its name is one to avoid, has a
counterpart among the second ones, with the same name and as many parameters. -/
def Signature.Carries (R : FunctionId → FunctionId → Prop) (avoid : Name → Prop)
    (declared declared' : List Signature) : Prop :=
  ∀ x n, ¬ avoid x → Declares declared x n →
    Declares declared' x n ∧ R (callee declared x) (callee declared' x)

section
variable {R : FunctionId → FunctionId → Prop} {avoid : Name → Prop}
  {declared declared' : List Signature} {ts : List (Token Name)}

theorem forall₂_map_map {α β : Type} {R : β → β → Prop} {f g : α → β} {as : List α}
    (h : ∀ a ∈ as, R (f a) (g a)) : List.Forall₂ R (as.map f) (as.map g) :=
  List.forall₂_map_left_iff.mpr (List.forall₂_map_right_iff.mpr (List.forall₂_same.mpr h))

/-! ## Phrases -/

/-- The expression is admissible among the second functions if it is among the first ones, and its
trees differ by the numbers of functions only. -/
def ExprForm.Carried (R : FunctionId → FunctionId → Prop) (declared declared' : List Signature)
    (e : ExprForm) : Prop :=
  e.Admissible declared → e.Admissible declared' ∧
    (e.tree declared).Translates (.ofFunctions R) (e.tree declared')

theorem ExprForm.Derives.carried (hc : Signature.Carries R avoid declared declared')
    {level : ExprLevel} {e : ExprForm} (h : Derives level ts e) (hclear : Clear avoid ts) :
    e.Carried R declared declared' := by
  revert hclear
  refine Derives.induct
    (P := fun ts e => Clear avoid ts → e.Carried R declared declared') ?_ ?_ ?_ ?_ ?_ ?_ ?_ h
  · exact fun m s _ hadm => ⟨hadm, .int rfl⟩
  · exact fun s _ hadm => ⟨hadm, .read rfl⟩
  · intro x s s₁ s₂ ts args hargs hclear ⟨hdeclares, hadm⟩
    obtain ⟨hdeclares', hcallee⟩ := hc x _ (hclear x ⟨[], _, rfl⟩) hdeclares
    have hts : ts <:+: identifierAt x s :: symbolAt .openParen s₁ ::
        (ts ++ [symbolAt .closeParen s₂]) :=
      ⟨[identifierAt x s, symbolAt .openParen s₁], _, rfl⟩
    have hargs : ∀ a ∈ args, a.Admissible declared' ∧
        (a.tree declared).Translates (.ofFunctions R) (a.tree declared') := by
      intro a ha
      obtain ⟨us, hus, hcarried⟩ := hargs.exists_infix a ha
      exact hcarried (hclear.of_infix (hus.trans hts)) (admissibleAll_iff.mp hadm a ha)
    refine ⟨⟨hdeclares', admissibleAll_iff.mpr fun a ha => (hargs a ha).1⟩, ?_⟩
    simp only [tree, trees_eq_map]
    exact .call hcallee (forall₂_map_map fun a ha => (hargs a ha).2) rfl
  · exact fun x s _ hadm => ⟨hadm, .var rfl rfl⟩
  · intro s₁ s₂ ts e ih hclear
    exact ih (hclear.of_infix ⟨[symbolAt .openParen s₁], _, rfl⟩)
  · intro s ts e ih hclear hadm
    simp only [tree, Admissible]
    by_cases hleast : e.isLeast
    · simp only [if_pos hleast]
      exact ⟨.inl hleast, .int rfl⟩
    · obtain ⟨hadm', htree⟩ := ih (hclear.of_infix ⟨[symbolAt .minus s], [], by simp⟩)
        (hadm.resolve_left hleast)
      simp only [if_neg hleast]
      exact ⟨.inr hadm', .neg htree rfl⟩
  · intro op s ts us l r hl hr hclear ⟨hadml, hadmr⟩
    obtain ⟨hadml', hl⟩ := hl (hclear.of_infix ⟨[], _, rfl⟩) hadml
    obtain ⟨hadmr', hr⟩ := hr (hclear.of_infix ⟨ts ++ [symbolAt op.symbol s], [], by simp⟩) hadmr
    have hspan : (l.tree declared).span.merge (r.tree declared).span =
        (l.tree declared').span.merge (r.tree declared').span :=
      congrArg₂ Span.merge hl.span hr.span
    exact ⟨⟨hadml', hadmr'⟩, .arith hl hr hspan⟩

def PredForm.Carried (R : FunctionId → FunctionId → Prop) (declared declared' : List Signature)
    (p : PredForm) : Prop :=
  p.Admissible declared → p.Admissible declared' ∧
    (p.tree declared).Translates (.ofFunctions R) (p.tree declared')

theorem PredForm.Derives.carried (hc : Signature.Carries R avoid declared declared')
    {level : PredLevel} {p : PredForm} (h : Derives level ts p) (hclear : Clear avoid ts) :
    p.Carried R declared declared' := by
  revert hclear
  refine Derives.induct
    (P := fun ts p => Clear avoid ts → p.Carried R declared declared') ?_ ?_ ?_ ?_ ?_ ?_ h
  · exact fun s _ hadm => ⟨hadm, .lit rfl⟩
  · exact fun s _ hadm => ⟨hadm, .lit rfl⟩
  · intro s₁ s₂ ts p ih hclear
    exact ih (hclear.of_infix ⟨[symbolAt .openParen s₁], _, rfl⟩)
  · intro op s ts us l r hl hr hclear ⟨hadml, hadmr⟩
    obtain ⟨hadml', hl⟩ := hl.carried hc (hclear.of_infix ⟨[], _, rfl⟩) hadml
    obtain ⟨hadmr', hr⟩ := hr.carried hc
      (hclear.of_infix ⟨ts ++ [symbolAt op.symbol s], [], by simp⟩) hadmr
    have hspan : (l.tree declared).span.merge (r.tree declared).span =
        (l.tree declared').span.merge (r.tree declared').span :=
      congrArg₂ Span.merge hl.span hr.span
    exact ⟨⟨hadml', hadmr'⟩, .rel hl hr hspan⟩
  · intro s ts p ih hclear hadm
    obtain ⟨hadm', htree⟩ := ih (hclear.of_infix ⟨[keywordAt .nao s], [], by simp⟩) hadm
    exact ⟨hadm', .not htree rfl⟩
  · intro op s ts us l r hl hr hclear ⟨hadml, hadmr⟩
    obtain ⟨hadml', hl⟩ := hl (hclear.of_infix ⟨[], _, rfl⟩) hadml
    obtain ⟨hadmr', hr⟩ := hr (hclear.of_infix ⟨ts ++ [keywordAt op.keyword s], [], by simp⟩) hadmr
    have hspan : (l.tree declared).span.merge (r.tree declared).span =
        (l.tree declared').span.merge (r.tree declared').span :=
      congrArg₂ Span.merge hl.span hr.span
    exact ⟨⟨hadml', hadmr'⟩, .logic hl hr hspan⟩

namespace CommandForm

def Carried (R : FunctionId → FunctionId → Prop) (declared declared' : List Signature)
    (c : CommandForm) : Prop :=
  c.Admissible declared → c.Admissible declared' ∧
    (c.tree declared).Translates (.ofFunctions R) (c.tree declared')

/-- All commands that are shorter, and clear, are carried. -/
def CarriedBelow (R : FunctionId → FunctionId → Prop) (avoid : Name → Prop)
    (declared declared' : List Signature) (n : Nat) : Prop :=
  ∀ us c, us.length < n → Derives us c → Clear avoid us → c.Carried R declared declared'

theorem Branch.carried (hc : Signature.Carries R avoid declared declared')
    {b : PredForm × CommandForm} (h : Branch ts b)
    (hshort : CarriedBelow R avoid declared declared' (ts.length + 1)) (hclear : Clear avoid ts)
    (hadm : b.1.Admissible declared ∧ b.2.Admissible declared) :
    (b.1.Admissible declared' ∧ b.2.Admissible declared') ∧
      Command.BranchTranslates (.ofFunctions R) (b.1.tree declared, b.2.tree declared)
        (b.1.tree declared', b.2.tree declared') := by
  cases h with
  | @intro s ts us test body htest hbody =>
    obtain ⟨hadmt, ht⟩ := htest.carried hc (hclear.of_infix ⟨[], _, rfl⟩) hadm.1
    obtain ⟨hadmb, hb⟩ := hshort us body (by simp; omega) hbody
      (hclear.of_infix ⟨ts ++ [keywordAt .entao s], [], by simp⟩) hadm.2
    exact ⟨⟨hadmt, hadmb⟩, .intro ht hb⟩

theorem Case.carried {b : CaseLabel × CommandForm} (h : Case ts b)
    (hshort : CarriedBelow R avoid declared declared' (ts.length + 1)) (hclear : Clear avoid ts)
    (hadm : b.1.Admissible ∧ b.2.Admissible declared) :
    (b.1.Admissible ∧ b.2.Admissible declared') ∧
      Command.CaseTranslates (.ofFunctions R) (b.1.value, b.2.tree declared)
        (b.1.value, b.2.tree declared') := by
  cases h with
  | @intro s ts us label body hlabel hbody =>
    obtain ⟨hadmb, hb⟩ := hshort us body (by simp; omega) hbody
      (hclear.of_infix ⟨ts ++ [symbolAt .colon s], [], by simp⟩) hadm.2
    exact ⟨⟨hadm.1, hadmb⟩, .intro hb⟩

theorem branches_carried (hc : Signature.Carries R avoid declared declared') {k : Keyword}
    {others : List (Unit × (PredForm × CommandForm))}
    (h : Many (just (.keyword k)) Branch ts others)
    (hshort : CarriedBelow R avoid declared declared' (ts.length + 1)) (hclear : Clear avoid ts)
    (hadm : AdmissibleBranches declared (others.map Prod.snd)) :
    AdmissibleBranches declared' (others.map Prod.snd) ∧
      List.Forall₂ (Command.BranchTranslates (.ofFunctions R))
        (branchTrees declared (others.map Prod.snd))
        (branchTrees declared' (others.map Prod.snd)) := by
  have hall : ∀ b ∈ others.map Prod.snd,
      (b.1.Admissible declared' ∧ b.2.Admissible declared') ∧
      Command.BranchTranslates (.ofFunctions R) (b.1.tree declared, b.2.tree declared)
        (b.1.tree declared', b.2.tree declared') := by
    intro b hb
    obtain ⟨x, hx, rfl⟩ := List.mem_map.mp hb
    obtain ⟨us, hus, hbranch⟩ := h.exists_infix x hx
    have hle := hus.length_le
    exact hbranch.carried hc (fun vs c hlt => hshort vs c (by omega)) (hclear.of_infix hus)
      (admissibleBranches_iff.mp hadm _ hb)
  rw [branchTrees_eq_map, branchTrees_eq_map]
  exact ⟨admissibleBranches_iff.mpr fun b hb => (hall b hb).1,
    forall₂_map_map fun b hb => (hall b hb).2⟩

theorem cases_carried {k : Keyword} {cases : List (Unit × (CaseLabel × CommandForm))}
    (h : Many (just (.keyword k)) Case ts cases)
    (hshort : CarriedBelow R avoid declared declared' (ts.length + 1)) (hclear : Clear avoid ts)
    (hadm : AdmissibleCases declared (cases.map Prod.snd)) :
    AdmissibleCases declared' (cases.map Prod.snd) ∧
      List.Forall₂ (Command.CaseTranslates (.ofFunctions R))
        (caseTrees declared (cases.map Prod.snd)) (caseTrees declared' (cases.map Prod.snd)) := by
  have hall : ∀ b ∈ cases.map Prod.snd, (b.1.Admissible ∧ b.2.Admissible declared') ∧
      Command.CaseTranslates (.ofFunctions R) (b.1.value, b.2.tree declared)
        (b.1.value, b.2.tree declared') := by
    intro b hb
    obtain ⟨x, hx, rfl⟩ := List.mem_map.mp hb
    obtain ⟨us, hus, hcase⟩ := h.exists_infix x hx
    have hle := hus.length_le
    exact hcase.carried (fun vs c hlt => hshort vs c (by omega)) (hclear.of_infix hus)
      (admissibleCases_iff.mp hadm _ hb)
  rw [caseTrees_eq_map, caseTrees_eq_map]
  exact ⟨admissibleCases_iff.mpr fun b hb => (hall b hb).1,
    forall₂_map_map fun b hb => (hall b hb).2⟩

theorem Shape.carried (hc : Signature.Carries R avoid declared declared')
    {shape : Span → CommandForm} (h : Shape ts shape)
    (hshort : CarriedBelow R avoid declared declared' ts.length) (hclear : Clear avoid ts)
    (span : Span) : (shape span).Carried R declared declared' := by
  cases h with
  | @assign x s s₁ ts e he =>
    intro hadm
    obtain ⟨hadm', htree⟩ := he.carried hc
      (hclear.of_infix ⟨[identifierAt x s, symbolAt .assign s₁], [], by simp⟩) hadm
    exact ⟨hadm', .assign rfl htree rfl⟩
  | skip => exact fun hadm => ⟨hadm, .skip rfl⟩
  | printText => exact fun hadm => ⟨hadm, .printText rfl rfl⟩
  | @printInt s ts e he =>
    intro hadm
    obtain ⟨hadm', htree⟩ := he.carried hc
      (hclear.of_infix ⟨[keywordAt .escreva s], [], by simp⟩) hadm
    exact ⟨hadm', .printInt htree rfl⟩
  | @block s s₁ ts body hbody =>
    intro hadm
    have hts : ts <:+: symbolAt .openBrace s :: (ts ++ [symbolAt .closeBrace s₁]) :=
      ⟨[symbolAt .openBrace s], _, rfl⟩
    have hall : ∀ c ∈ body, c.Admissible declared' ∧
        (c.tree declared).Translates (.ofFunctions R) (c.tree declared') := by
      intro c hmem
      obtain ⟨us, hus, hcmd⟩ := hbody.exists_infix c hmem
      have hle := hus.length_le
      exact hshort us c (by simp; omega) hcmd (hclear.of_infix (hus.trans hts))
        (admissibleAll_iff.mp hadm c hmem)
    refine ⟨admissibleAll_iff.mpr fun c hmem => (hall c hmem).1, ?_⟩
    simp only [tree, trees_eq_map]
    exact .block (forall₂_map_map fun c hmem => (hall c hmem).2) rfl
  | @loop s s₁ ts us test body htest hbody =>
    intro ⟨hadmt, hadmb⟩
    obtain ⟨hadmt', ht⟩ := htest.carried hc
      (hclear.of_infix ⟨[keywordAt .enquanto s], _, rfl⟩) hadmt
    obtain ⟨hadmb', hb⟩ := hshort us body (by simp; omega) hbody (hclear.of_infix
      ⟨keywordAt .enquanto s :: (ts ++ [keywordAt .faca s₁]), [], by simp⟩) hadmb
    exact ⟨⟨hadmt', hadmb'⟩, .loop ht hb rfl⟩
  | @cond s s₁ ts us vs test body last others hfirst hothers hlast =>
    intro ⟨hadmt, hadmb, hadmo, hadml⟩
    obtain ⟨⟨hadmt', hadmb'⟩, hb⟩ := hfirst.carried hc
      (fun us c hlt => hshort us c (by simp; omega))
      (hclear.of_infix ⟨[keywordAt .se s], _, rfl⟩) ⟨hadmt, hadmb⟩
    obtain ⟨hadmo', ho⟩ := branches_carried hc hothers
      (fun us c hlt => hshort us c (by simp; omega))
      (hclear.of_infix ⟨keywordAt .se s :: ts, keywordAt .senao s₁ :: vs, by simp⟩) hadmo
    obtain ⟨hadml', hl⟩ := hshort vs last (by simp; omega) hlast (hclear.of_infix
      ⟨keywordAt .se s :: (ts ++ (us ++ [keywordAt .senao s₁])), [], by simp⟩) hadml
    cases hb with
    | intro ht hb => exact ⟨⟨hadmt', hadmb', hadmo', hadml'⟩, .cond ht hb ho hl rfl⟩
  | @condOnly s ts us test body others hfirst hothers =>
    intro ⟨hadmt, hadmb, hadmo⟩
    obtain ⟨⟨hadmt', hadmb'⟩, hb⟩ := hfirst.carried hc
      (fun us c hlt => hshort us c (by simp; omega))
      (hclear.of_infix ⟨[keywordAt .se s], _, rfl⟩) ⟨hadmt, hadmb⟩
    obtain ⟨hadmo', ho⟩ := branches_carried hc hothers
      (fun us c hlt => hshort us c (by simp; omega))
      (hclear.of_infix ⟨keywordAt .se s :: ts, [], by simp⟩) hadmo
    cases hb with
    | intro ht hb => exact ⟨⟨hadmt', hadmb', hadmo'⟩, .cond ht hb ho (.skip rfl) rfl⟩
  | @count x s s₁ s₂ s₃ s₄ s₅ ts us vs ws start stop step body hi hj hk hbody =>
    intro ⟨hadmi, hadmj, hadmk, hadmb⟩
    let front := [keywordAt .para s, identifierAt x s₁, keywordAt .de s₂]
    obtain ⟨hadmi', hi⟩ := hi.carried hc (hclear.of_infix ⟨front, _, rfl⟩) hadmi
    obtain ⟨hadmj', hj⟩ := hj.carried hc
      (hclear.of_infix ⟨front ++ (ts ++ [keywordAt .ate s₃]),
        keywordAt .passo s₄ :: (vs ++ keywordAt .faca s₅ :: ws), by simp [front]⟩) hadmj
    obtain ⟨hadmk', hk⟩ := hk.carried hc (hclear.of_infix
      ⟨front ++ (ts ++ keywordAt .ate s₃ :: (us ++ [keywordAt .passo s₄])),
        keywordAt .faca s₅ :: ws, by simp [front]⟩) hadmk
    obtain ⟨hadmb', hb⟩ := hshort ws body (by simp; omega) hbody (hclear.of_infix
      ⟨front ++ (ts ++ keywordAt .ate s₃ :: (us ++ keywordAt .passo s₄ ::
        (vs ++ [keywordAt .faca s₅]))), [], by simp [front]⟩) hadmb
    exact ⟨⟨hadmi', hadmj', hadmk', hadmb'⟩, .count rfl hi hj hk hb rfl⟩
  | @countOnes x s s₁ s₂ s₃ s₄ ts us ws start stop body hi hj hbody =>
    intro ⟨hadmi, hadmj, hadmb⟩
    let front := [keywordAt .para s, identifierAt x s₁, keywordAt .de s₂]
    obtain ⟨hadmi', hi⟩ := hi.carried hc (hclear.of_infix ⟨front, _, rfl⟩) hadmi
    obtain ⟨hadmj', hj⟩ := hj.carried hc
      (hclear.of_infix ⟨front ++ (ts ++ [keywordAt .ate s₃]), keywordAt .faca s₄ :: ws, by
        simp [front]⟩) hadmj
    obtain ⟨hadmb', hb⟩ := hshort ws body (by simp; omega) hbody (hclear.of_infix
      ⟨front ++ (ts ++ keywordAt .ate s₃ :: (us ++ [keywordAt .faca s₄])), [], by
        simp [front]⟩) hadmb
    exact ⟨⟨hadmi', hadmj', hadmb'⟩, .count rfl hi hj (.int rfl) hb rfl⟩
  | @switch s s₁ s₂ ts us vs selector cases default hselector hcases hdefault =>
    intro ⟨hadms, hadmc, hadmd⟩
    obtain ⟨hadms', hs⟩ := hselector.carried hc
      (hclear.of_infix ⟨[keywordAt .escolha s], _, rfl⟩) hadms
    obtain ⟨hadmc', hcs⟩ := cases_carried hcases (fun us c hlt => hshort us c (by simp; omega))
      (hclear.of_infix ⟨keywordAt .escolha s :: ts,
        keywordAt .outro s₁ :: symbolAt .colon s₂ :: vs, by simp⟩) hadmc
    obtain ⟨hadmd', hd⟩ := hshort vs default (by simp; omega) hdefault (hclear.of_infix
      ⟨keywordAt .escolha s :: (ts ++ (us ++ [keywordAt .outro s₁, symbolAt .colon s₂])), [], by
        simp⟩) hadmd
    exact ⟨⟨hadms', hadmc', hadmd'⟩, .switch hs hcs hd rfl⟩

theorem Derives.carried (hc : Signature.Carries R avoid declared declared') {c : CommandForm}
    (h : Derives ts c) (hclear : Clear avoid ts) : c.Carried R declared declared' := by
  revert hclear
  refine h.induct (P := fun ts c => Clear avoid ts → c.Carried R declared declared') ?_
  exact fun ts shape hshape hshort hclear =>
    hshape.carried hc (fun us c hlt hcmd hus => hshort us c hlt hcmd hus) hclear _

end CommandForm

end

/-! ## Names that are declared again -/

namespace Grammar

variable {ν : Type} {x y : ν} {kinds more : List (TokenKind ν)}

/-- The name is called only where it is declared, or behind a declaration of it. -/
def DeclaredFirst (x : ν) (kinds : List (TokenKind ν)) : Prop :=
  ∀ before after, kinds = before ++ .identifier x :: .symbol .openParen :: after →
    [.keyword .definition, .identifier x] <:+: before ++ [.identifier x]

/-- Two tokens in a row are behind all tokens that are not the first one of them. -/
theorem infix_of_append {a b : TokenKind ν} (h : [a, b] <:+: kinds ++ more) (ha : a ∉ kinds) :
    [a, b] <:+: more := by
  induction kinds with
  | nil => exact h
  | cons k kinds ih =>
    obtain ⟨hk, hrest⟩ := not_or.mp (mt List.mem_cons.mpr ha)
    rcases List.infix_cons_iff.mp h with hprefix | hinfix
    · exact absurd (List.cons_prefix_cons.mp hprefix).1 hk
    · exact ih hinfix hrest

namespace DeclaredFirst

/-- Behind a declaration everything may be called. -/
theorem definition (x : ν) (more : List (TokenKind ν)) :
    DeclaredFirst x (.keyword .definition :: .identifier x :: more) := by
  intro before after heq
  match before with
  | [] => nomatch (List.cons.inj heq).1
  | [k] =>
    obtain rfl := (List.cons.inj heq).1
    exact List.infix_rfl
  | k :: k' :: before =>
    obtain ⟨rfl, htail⟩ := List.cons.inj heq
    obtain ⟨rfl, -⟩ := List.cons.inj htail
    exact (List.prefix_append [_, _] _).isInfix

theorem not_callsIn (h : DeclaredFirst x (kinds ++ more)) (hdef : .keyword .definition ∉ kinds) :
    ¬ CallsIn x kinds := by
  rintro ⟨before, after, rfl⟩
  have hinfix := h before (after ++ more) (by simp)
  refine hdef ?_
  have hmem : .keyword .definition ∈ before ++ [.identifier x] := hinfix.subset (by simp)
  simp only [List.mem_append, List.mem_singleton, reduceCtorEq, or_false] at hmem
  simp [hmem]

theorem of_append (h : DeclaredFirst x (kinds ++ more)) (hdef : .keyword .definition ∉ kinds) :
    DeclaredFirst x more := by
  rintro before after rfl
  have hinfix := h (kinds ++ before) after (by simp)
  rw [List.append_assoc] at hinfix
  exact infix_of_append hinfix hdef

/-- The declaration of another function counts for nothing. -/
theorem of_definition (h : DeclaredFirst x (.keyword .definition :: .identifier y :: more))
    (hne : x ≠ y) : DeclaredFirst x more := by
  rintro before after rfl
  have hinfix := h (.keyword .definition :: .identifier y :: before) after (by simp)
  rcases List.infix_cons_iff.mp hinfix with hprefix | hinfix
  · have heq := (List.cons_prefix_cons.mp (List.cons_prefix_cons.mp hprefix).2).1
    exact absurd (TokenKind.identifier.inj heq) hne
  · have hbehind : [.keyword .definition, .identifier x] <:+:
        [.identifier y] ++ (before ++ [.identifier x]) := hinfix
    exact infix_of_append hbehind (by simp)

end DeclaredFirst

theorem Lacks.definition_notMem {classes : List TokenClass} {ts : List (Token Name)}
    (h : Lacks classes ts) (hmem : .keyword .definition ∈ classes) :
    .keyword .definition ∉ ts.map Token.kind := by
  intro hdef
  obtain ⟨t, ht, hk⟩ := List.mem_map.mp hdef
  exact h t ht (by rwa [Token.toClass, hk])

end Grammar

/-! ## Programs -/

section
variable {R : FunctionId → FunctionId → Prop} {avoid : Name → Prop}
  {declared declared' : List Signature} {ts : List (Token Name)} {more : List (TokenKind Name)}

/-- The names to avoid behind an instruction: the name of a function that it declares is free. -/
def InstructionForm.avoids (avoid : Name → Prop) : InstructionForm → Name → Prop
  | .command _ => avoid
  | .declare x _ _ _ => fun y => avoid y ∧ y ≠ x

theorem Signature.Carries.declares (hc : Carries R avoid declared declared') (i : InstructionForm)
    (hnew : ∀ d, i.tree declared = .declare d → R ⟨declared.length⟩ ⟨declared'.length⟩) :
    Carries R (i.avoids avoid) (i.declares declared) (i.declares declared') := by
  cases i with
  | command c => exact hc
  | declare x params body span =>
    intro y n hy hdeclares
    by_cases hxy : x = y
    · subst hxy
      simpa [InstructionForm.declares, Declares, callee] using ⟨by
        simpa [InstructionForm.declares, Declares] using hdeclares, hnew _ rfl⟩
    · have havoid : ¬ avoid y := fun h => hy ⟨h, Ne.symm hxy⟩
      simp only [InstructionForm.declares, Declares, callee, List.find?_cons,
        beq_eq_false_iff_ne.mpr hxy, List.dropWhile_cons, bne, Bool.not_false, if_true]
        at hdeclares ⊢
      exact hc y n havoid hdeclares

namespace InstructionForm

variable {i : InstructionForm}

theorem Derives.declaredFirst (h : Derives ts i)
    (hfirst : ∀ x, avoid x → DeclaredFirst x (ts.map Token.kind ++ more)) :
    ∀ x, i.avoids avoid x → DeclaredFirst x more := by
  intro x hx
  rcases h.command_or_declare with hlacks | ⟨y, params, body, span, s, s₁, us, rfl, rfl, hlacks⟩
  · have hdef := hlacks.definition_notMem (by simp [outsideCommands])
    cases h with
    | command _ => exact (hfirst x hx).of_append hdef
    | declare _ _ => simp at hdef
  · obtain ⟨havoid, hne⟩ := hx
    exact ((hfirst x havoid).of_definition hne).of_append
      (hlacks.definition_notMem (by simp [outsideExprs, outsideCommands]))

/-- An instruction among other functions. -/
theorem Derives.carried (h : Derives ts i) (hc : Signature.Carries R avoid declared declared')
    (hnew : ∀ d, i.tree declared = .declare d → R ⟨declared.length⟩ ⟨declared'.length⟩)
    (hfirst : ∀ x, avoid x → DeclaredFirst x (ts.map Token.kind ++ more)) :
    i.Admissible declared → i.Admissible declared' ∧
      Instruction.Translates (.ofFunctions R) (i.tree declared) (i.tree declared') := by
  intro hadm
  have hwords := h.command_or_declare
  cases h with
  | @command ts c h =>
    have hdef := h.lacks.definition_notMem (by simp [outsideCommands])
    have hclear : Clear avoid ts := fun x hcalls hx => (hfirst x hx).not_callsIn hdef hcalls
    obtain ⟨hadm', htree⟩ := h.carried hc hclear hadm
    exact ⟨hadm', .command htree⟩
  | @declare x s s₁ s₂ s₃ s₄ ts us params body hparams hbody =>
    obtain hlacks | ⟨y, _, _, _, _, _, vs, hi, hts, hlacks⟩ := hwords
    · simp [outsideCommands, Token.toClass, TokenKind.toClass] at hlacks
    obtain ⟨rfl, -⟩ := InstructionForm.declare.inj hi
    obtain ⟨-, htail⟩ := List.cons.inj hts
    obtain ⟨-, rfl⟩ := List.cons.inj htail
    have hdef := hlacks.definition_notMem (by simp [outsideExprs, outsideCommands])
    have hbodyTokens : us <:+: symbolAt .openParen s₂ ::
        (ts ++ symbolAt .closeParen s₃ :: symbolAt .equal s₄ :: us) :=
      ⟨symbolAt .openParen s₂ :: (ts ++ [symbolAt .closeParen s₃, symbolAt .equal s₄]), [], by simp⟩
    have hclear : Clear (fun y => avoid y ∧ y ≠ x) us := by
      rintro y hcalls ⟨hy, hne⟩
      exact ((hfirst y hy).of_definition hne).not_callsIn hdef
        (hcalls.trans (hbodyTokens.map Token.kind))
    obtain ⟨hadm', htree⟩ := hbody.carried
      (hc.declares (.declare x params body (s.merge s₄)) hnew) hclear hadm
    exact ⟨hadm', .declare ⟨rfl, List.forall₂_same.mpr fun _ _ => rfl, htree, rfl⟩⟩

end InstructionForm

/-- A program among other functions: it is admissible if it was, and its functions and calls have
their counterparts, provided that no name to avoid is called before it is declared again. -/
theorem ProgramForm.Derives.carried {form : ProgramForm} (h : Derives ts form)
    (hc : Signature.Carries R avoid declared declared')
    (hnew : ∀ k < (form.tree declared).declarations.length,
      R ⟨declared.length + k⟩ ⟨declared'.length + k⟩)
    (hfirst : ∀ x, avoid x → DeclaredFirst x (ts.map Token.kind)) :
    form.Admissible declared → form.Admissible declared' ∧
      List.Forall₂ (Instruction.Translates (.ofFunctions R)) (form.tree declared)
        (form.tree declared') := by
  induction form generalizing ts avoid declared declared' with
  | nil => exact fun _ => ⟨trivial, .nil⟩
  | cons i form ih =>
    rintro ⟨hi, hform⟩
    have hnewi : ∀ d, i.tree declared = .declare d → R ⟨declared.length⟩ ⟨declared'.length⟩ := by
      intro d hd
      exact hnew 0 (by simp [tree, hd, Program.declarations])
    rcases sepBy_cons_iff.mp h with ⟨rfl, hd⟩ | ⟨us, t, vs, rfl, hd, ht, hds⟩
    · rw [← List.append_nil (ts.map Token.kind)] at hfirst
      obtain ⟨hi', htree⟩ := hd.carried hc hnewi hfirst hi
      exact ⟨⟨hi', trivial⟩, .cons htree .nil⟩
    · simp only [List.map_append, List.map_cons, ht] at hfirst
      obtain ⟨hi', htree⟩ := hd.carried hc hnewi hfirst hi
      have hrest : ∀ x, i.avoids avoid x → DeclaredFirst x (vs.map Token.kind) := by
        intro x hx
        have hbehind : DeclaredFirst x ([.symbol .semicolon] ++ vs.map Token.kind) :=
          hd.declaredFirst hfirst x hx
        exact hbehind.of_append (by simp)
      have hnews : ∀ k < (tree (i.declares declared) form).declarations.length,
          R ⟨(i.declares declared).length + k⟩ ⟨(i.declares declared').length + k⟩ := by
        intro k hk
        cases i with
        | command _ => exact hnew k hk
        | declare _ _ _ _ =>
          have hlength (n : Nat) : n + (k + 1) = n + 1 + k := by omega
          have hR := hnew (k + 1) (Nat.succ_lt_succ hk)
          rw [hlength, hlength] at hR
          exact hR
      obtain ⟨hform', htrees⟩ := ih hds (hc.declares i hnewi) hnews hrest hform
      exact ⟨⟨hi', hform'⟩, .cons htree htrees⟩

end

end Enquanto

import Mathlib.Data.List.Chain
import Enquanto.Proofs.CommandParsing
import Enquanto.Proofs.FormInduction

/-!
# Programs that are read directly

A parenthesis where a predicate starts is read twice if the first reading fails. Where no such
parenthesis stands, nothing is read twice, and no offence is masked.

A program may have such parentheses behind some place. There is another program then that starts in
the same way up to the first of them and has none: a literal stands in place of each predicate in
parentheses.

* `Grammar.Direct`: no predicate starts with a parenthesis;
* `Grammar.Recasts`: two token lists are the same up to the place from which the first is not
  direct;
* `ProgramForm.exists_recast`: every program is recast by one in which no offence is masked.
-/

namespace Enquanto

open Grammar Enquanto.Parser

namespace Grammar

/-- The words in front of which a predicate starts. -/
def opensPredicate : TokenKind Name → Bool
  | .keyword .se | .keyword .senaose | .keyword .enquanto | .keyword .nao | .keyword .e
  | .keyword .ou | .keyword .xor => true
  | _ => false

/-- The second token does not open a predicate, or what may be one, in parentheses. -/
def OpensNoParen (t u : Token Name) : Prop :=
  opensPredicate t.kind = true → u.kind ≠ .symbol .openParen

instance (t u : Token Name) : Decidable (OpensNoParen t u) :=
  inferInstanceAs (Decidable (_ → _))

/-- No predicate starts with a parenthesis. -/
def Direct (ts : List (Token Name)) : Prop := ts.IsChain OpensNoParen

/-- The second list starts in the same way as the first, as long as that is direct. -/
structure Recasts (ts ts' : List (Token Name)) : Prop where
  whole : Direct ts → ts' = ts
  front : ∀ {pre}, pre <+: ts → Direct pre → pre <+: ts'

namespace Recasts

variable {ts ts' us us' : List (Token Name)}

theorem refl (ts : List (Token Name)) : Recasts ts ts := ⟨fun _ => rfl, fun h _ => h⟩

theorem append (h : Recasts ts ts') (h' : Recasts us us') : Recasts (ts ++ us) (ts' ++ us') := by
  refine ⟨fun hd => ?_, fun {pre} hpre hd => ?_⟩
  · rw [h.whole hd.left_of_append, h'.whole hd.right_of_append]
  rcases Nat.le_total pre.length ts.length with hle | hle
  · have hts : pre <+: ts := List.prefix_of_prefix_length_le hpre (List.prefix_append ts us) hle
    exact (h.front hts hd).trans (List.prefix_append ts' us')
  · obtain ⟨vs, rfl⟩ := List.prefix_of_prefix_length_le (List.prefix_append ts us) hpre hle
    rw [List.prefix_append_right_inj] at hpre
    rw [h.whole hd.left_of_append, List.prefix_append_right_inj]
    exact h'.front hpre hd.right_of_append

theorem cons (t : Token Name) (h : Recasts ts ts') : Recasts (t :: ts) (t :: ts') :=
  (refl [t]).append h

/-- From a parenthesis where a predicate starts, everything may change. -/
theorem paren {o : Token Name} (ho : opensPredicate o.kind = true) (s : Span) :
    Recasts (o :: symbolAt .openParen s :: ts) (o :: us) := by
  have hparen {vs : List (Token Name)} (h : Direct (o :: symbolAt .openParen s :: vs)) : False :=
    (List.isChain_cons_cons.mp h).1 ho rfl
  refine ⟨fun h => (hparen h).elim, fun {pre} hpre hd => ?_⟩
  match pre, hpre with
  | [], _ => exact List.nil_prefix
  | [t], hpre =>
    obtain ⟨rfl, -⟩ := List.cons_prefix_cons.mp hpre
    exact ⟨us, rfl⟩
  | t :: u :: vs, hpre =>
    obtain ⟨rfl, hrest⟩ := List.cons_prefix_cons.mp hpre
    obtain ⟨rfl, -⟩ := List.cons_prefix_cons.mp hrest
    exact (hparen hd).elim

end Recasts

section
variable {α β : Type} {mark : TokenKind Name → β → Prop} {ts : List (Token Name)}
  {phrase : List (Token Name) → α → Prop} {Q : α → Prop} {n : Nat}

/-- Recasting all phrases of a repetition, each behind its mark. -/
theorem Many.exists_recast {rest : List (β × α)}
    (h : ∀ us a, us.length ≤ n → phrase us a → ∃ us' a', phrase us' a' ∧
      (∀ (t : Token Name) b, mark t.kind b → Recasts (t :: us) (t :: us')) ∧ Q a')
    (hm : Many mark phrase ts rest) (hn : ts.length ≤ n) :
    ∃ ts' rest', Many mark phrase ts' rest' ∧ Recasts ts ts' ∧ ∀ x ∈ rest', Q x.2 := by
  induction hm with
  | nil => exact ⟨[], [], .nil, .refl [], by simp⟩
  | @cons t b us vs a rest hmark ha _ ih =>
    simp only [List.length_cons, List.length_append] at hn
    obtain ⟨us', a', ha', hus, hq⟩ := h us a (by omega) ha
    obtain ⟨vs', rest', hrest', hvs, hqs⟩ := ih (by omega)
    exact ⟨t :: us' ++ vs', (b, a') :: rest', .cons hmark ha' hrest', (hus t b hmark).append hvs,
      List.forall_mem_cons.mpr ⟨hq, hqs⟩⟩

theorem SepBy.exists_recast {k : TokenKind Name} {as : List α}
    (h : ∀ us a, us.length ≤ n → phrase us a → ∃ us' a', phrase us' a' ∧ Recasts us us' ∧ Q a')
    (hs : SepBy k phrase ts as) (hn : ts.length ≤ n) :
    ∃ ts' as', SepBy k phrase ts' as' ∧ Recasts ts ts' ∧ ∀ a ∈ as', Q a := by
  cases hs with
  | @intro us vs a rest ha hrest =>
    rw [List.length_append] at hn
    obtain ⟨us', a', ha', hus, hq⟩ := h us a (by omega) ha
    have hitem : ∀ ws b, ws.length ≤ n → phrase ws b → ∃ ws' b', phrase ws' b' ∧
        (∀ (t : Token Name) u, just k t.kind u → Recasts (t :: ws) (t :: ws')) ∧ Q b' := by
      intro ws b hl hb
      obtain ⟨ws', b', hb', hws, hqb⟩ := h ws b hl hb
      exact ⟨ws', b', hb', fun t _ _ => hws.cons t, hqb⟩
    obtain ⟨vs', rest', hrest', hvs, hqs⟩ := hrest.exists_recast hitem (by omega)
    exact ⟨us' ++ vs', _, .intro ha' hrest', hus.append hvs,
      List.forall_mem_cons.mpr ⟨hq, List.forall_mem_map.mpr hqs⟩⟩

end

end Grammar

/-! ## Offences that show -/

namespace Offence

/-- No second reading covers up the offence, if there is one. -/
def Unmasked (o : Option Offence) : Prop := ∀ x ∈ o, x.masked = false

variable {o o' : Option Offence}

theorem unmasked_none : Unmasked none := nofun

theorem Unmasked.or (h : Unmasked o) (h' : Unmasked o') : Unmasked (o.or o') := by
  cases o with
  | none => rwa [Option.none_or]
  | some x => exact h

theorem unmasked_plain {cause : ParseError.Cause} {span : Span} (h : cause.BreaksRule) :
    Unmasked (some (plain cause span h)) := by
  rintro _ ⟨⟩
  rfl

theorem unmasked_findSome? {α : Type} {f : α → Option Offence} {as : List α}
    (h : ∀ a ∈ as, Unmasked (f a)) : Unmasked (as.findSome? f) := by
  intro x hx
  obtain ⟨a, ha, hf⟩ := List.exists_of_findSome?_eq_some hx
  exact h a ha x hf

end Offence

open Offence

namespace ExprForm

variable (ctx : Context)

mutual

theorem unmasked_offence : ∀ e : ExprForm, Unmasked (e.offence ctx)
  | .int m s => by
    rw [offence]
    split
    · exact unmasked_none
    · exact unmasked_plain _
  | .read _ | .var _ _ => unmasked_none
  | .call x s args span => by
    rw [offence]
    split
    · exact unmasked_plain _
    · refine (unmasked_offences args).or ?_
      split
      · exact unmasked_none
      · exact unmasked_plain _
  | .paren e => unmasked_offence e
  | .neg e _ => by
    rw [offence]
    split
    · exact unmasked_none
    · exact unmasked_offence e
  | .arith _ l r => (unmasked_offence l).or (unmasked_offence r)

theorem unmasked_offences : ∀ es : List ExprForm, Unmasked (offences ctx es)
  | [] => unmasked_none
  | e :: es => (unmasked_offence e).or (unmasked_offences es)

end

end ExprForm

theorem CaseLabel.unmasked_offence (label : CaseLabel) : Unmasked label.offence := by
  rw [offence]
  split
  · exact unmasked_none
  · exact unmasked_plain _

/-! ## Predicates -/

namespace PredForm

/-- A predicate in which no offence is masked and that starts as a given one does, if the token in
front of both is a word that opens it. -/
def Recast (derives : List (Token Name) → PredForm → Prop) (ts ts' : List (Token Name))
    (p : PredForm) : Prop :=
  derives ts' p ∧ (∀ o : Token Name, opensPredicate o.kind = true → Recasts (o :: ts) (o :: ts')) ∧
    ∀ ctx, Unmasked (p.offence ctx)

theorem exists_recast_chain {level : PredLevel} {op : LogicOp} {ts us : List (Token Name)}
    {p : PredForm} {rest : List (LogicOp × PredForm)}
    (ih : ∀ {vs q}, vs.length ≤ ts.length + us.length → Derives level vs q →
      ∃ vs' q', Recast (Derives level) vs vs' q')
    (hp : Derives level ts p) (hrest : Many (connective op) (Derives level) us rest) :
    ∃ ts' p', Recast (Chained (connective op) (Derives level) .logic) (ts ++ us) ts' p' := by
  obtain ⟨ts', p', hp', hts, hu⟩ := ih (by omega) hp
  have hitem : ∀ vs q, vs.length ≤ us.length → Derives level vs q → ∃ vs' q', Derives level vs' q' ∧
      (∀ (t : Token Name) o, connective op t.kind o → Recasts (t :: vs) (t :: vs')) ∧
      ∀ ctx, Unmasked (q'.offence ctx) := by
    intro vs q hl hq
    obtain ⟨vs', q', hq', hvs, hu⟩ := ih (by omega) hq
    refine ⟨vs', q', hq', fun t o ho => hvs t ?_, hu⟩
    rw [ho.2]
    cases o <;> rfl
  obtain ⟨us', rest', hrest', hus, hus'⟩ := hrest.exists_recast hitem (Nat.le_refl _)
  refine ⟨ts' ++ us', _, ⟨ts', us', p', rest', rfl, hp', hrest', rfl⟩,
    fun o ho => (hts o ho).append hus, fun ctx => ?_⟩
  have ho : offence ctx (rest'.foldl (fun left x => .logic x.1 left x.2) p') =
      (p'.offence ctx).or (rest'.findSome? (offence ctx ·.2)) :=
    offence_foldl (fun _ _ _ => rfl) p' rest'
  rw [ho]
  exact (hu ctx).or (unmasked_findSome? fun x hx => hus' x hx ctx)

theorem exists_recast {level : PredLevel} {ts : List (Token Name)} {p : PredForm}
    (h : Derives level ts p) : ∃ ts' p', Recast (Derives level) ts ts' p' := by
  generalize hn : 5 * ts.length + level.rank = n
  induction n using Nat.strongRecOn generalizing level ts p with
  | ind n ih =>
    subst hn
    cases h with
    | true => exact ⟨_, _, .true, fun _ _ => .refl _, fun _ => unmasked_none⟩
    | false => exact ⟨_, _, .false, fun _ _ => .refl _, fun _ => unmasked_none⟩
    | paren _ =>
      exact ⟨_, _, .true (s := .nowhere), fun o ho => .paren ho _, fun _ => unmasked_none⟩
    | @rel _ _ _ _ l r hl hr =>
      exact ⟨_, _, .rel hl hr, fun _ _ => .refl _,
        fun ctx => (l.unmasked_offence ctx).or (r.unmasked_offence ctx)⟩
    | @not s ts p hp =>
      obtain ⟨ts', p', hp', hts, hu⟩ :=
        ih _ (by simp only [List.length_cons, PredLevel.rank]; omega) hp rfl
      exact ⟨_, _, .not hp', fun o ho => (hts (keywordAt .nao s) rfl).cons o, hu⟩
    | plain hp =>
      obtain ⟨ts', p', hp', hts, hu⟩ := ih _ (by simp only [PredLevel.rank]; omega) hp rfl
      exact ⟨ts', p', .plain hp', hts, hu⟩
    | and hp hrest =>
      obtain ⟨ts', p', hp', hrecast⟩ := exists_recast_chain (fun {vs _} hl hq => ih _
        (by simp only [List.length_append, PredLevel.rank]; omega) hq rfl) hp hrest
      exact ⟨ts', p', (derives_and_iff _ _).mpr hp', hrecast⟩
    | xor hp hrest =>
      obtain ⟨ts', p', hp', hrecast⟩ := exists_recast_chain (fun {vs _} hl hq => ih _
        (by simp only [List.length_append, PredLevel.rank]; omega) hq rfl) hp hrest
      exact ⟨ts', p', (derives_xor_iff _ _).mpr hp', hrecast⟩
    | or hp hrest =>
      obtain ⟨ts', p', hp', hrecast⟩ := exists_recast_chain (fun {vs _} hl hq => ih _
        (by simp only [List.length_append, PredLevel.rank]; omega) hq rfl) hp hrest
      exact ⟨ts', p', (derives_or_iff _ _).mpr hp', hrecast⟩

end PredForm

/-! ## Commands -/

namespace CommandForm

/-- A command in which no offence is masked and that starts as a given one does. -/
def Recast (ts ts' : List (Token Name)) (f : CommandForm) : Prop :=
  Derives ts' f ∧ Recasts ts ts' ∧ ∀ ctx, Unmasked (f.offence ctx)

section
variable {n : Nat} (ih : ∀ us f, us.length < n → Derives us f → ∃ us' f', Recast us us' f')
include ih

theorem Branch.exists_recast {us : List (Token Name)} {b : PredForm × CommandForm}
    (h : Branch us b) (hn : us.length ≤ n) : ∃ us' b', Branch us' b' ∧
      (∀ o : Token Name, opensPredicate o.kind = true → Recasts (o :: us) (o :: us')) ∧
      ∀ ctx, Unmasked ((b'.1.offence ctx).or (b'.2.offence ctx)) := by
  cases h with
  | @intro s ts us test body htest hbody =>
    rw [List.length_append, List.length_cons] at hn
    obtain ⟨ts', p, hp, hts, hup⟩ := PredForm.exists_recast htest
    obtain ⟨us', f, hf, hus, huf⟩ := ih us body (by omega) hbody
    exact ⟨_, (p, f), .intro (s := s) hp hf, fun o ho => (hts o ho).append (hus.cons _),
      fun ctx => (hup ctx).or (huf ctx)⟩

theorem Case.exists_recast {us : List (Token Name)} {x : CaseLabel × CommandForm}
    (h : Case us x) (hn : us.length ≤ n) : ∃ us' x', Case us' x' ∧ Recasts us us' ∧
      ∀ ctx, Unmasked (x'.1.offence.or (x'.2.offence ctx)) := by
  cases h with
  | @intro s ts us label body hlabel hbody =>
    rw [List.length_append, List.length_cons] at hn
    obtain ⟨us', f, hf, hus, huf⟩ := ih us body (by omega) hbody
    exact ⟨_, (label, f), .intro (s := s) hlabel hf, (Recasts.refl ts).append (hus.cons _),
      fun ctx => label.unmasked_offence.or (huf ctx)⟩

/-- A conditional up to its last branch. -/
theorem exists_recast_branches {ts us : List (Token Name)} {test : PredForm} {body : CommandForm}
    {others : List (Unit × (PredForm × CommandForm))} (s : Span)
    (hbranch : Branch ts (test, body)) (hmany : Many (just (.keyword .senaose)) Branch us others)
    (hn : ts.length ≤ n ∧ us.length ≤ n) : ∃ ts' us' test' body' others',
      Branch ts' (test', body') ∧ Many (just (.keyword .senaose)) Branch us' others' ∧
      Recasts (keywordAt .se s :: ts) (keywordAt .se s :: ts') ∧ Recasts us us' ∧
      ∀ ctx, Unmasked ((test'.offence ctx).or ((body'.offence ctx).or
        (branchOffences ctx (others'.map Prod.snd)))) := by
  obtain ⟨ts', ⟨test', body'⟩, hbranch', hts, hu⟩ := hbranch.exists_recast ih hn.1
  obtain ⟨us', others', hmany', hus, hus'⟩ := hmany.exists_recast
    (Q := fun b => ∀ ctx, Unmasked ((b.1.offence ctx).or (b.2.offence ctx))) (n := us.length)
    (fun vs b hl hb => by
      obtain ⟨vs', b', hb', hvs, hu⟩ := hb.exists_recast ih (Nat.le_trans hl hn.2)
      exact ⟨vs', b', hb', fun t _ ht => hvs t (by rw [ht]; rfl), hu⟩) (Nat.le_refl _)
  refine ⟨ts', us', test', body', others', hbranch', hmany', hts _ rfl, hus, fun ctx => ?_⟩
  rw [branchOffences_eq_findSome?, ← Option.or_assoc]
  refine (hu ctx).or (unmasked_findSome? (List.forall_mem_map.mpr fun b hb => ?_))
  exact hus' b hb ctx

end

theorem Shape.exists_recast {ts : List (Token Name)} {shape : Span → CommandForm}
    (h : Shape ts shape)
    (ih : ∀ us f, us.length < ts.length → Derives us f → ∃ us' f', Recast us us' f') :
    ∃ ts' shape', Shape ts' shape' ∧ Recasts ts ts' ∧
      ∀ s ctx, Unmasked ((shape' s).offence ctx) := by
  have hexpr (e : ExprForm) (ctx : Context) := e.unmasked_offence ctx
  cases h with
  | @assign x s s₁ us e he => exact ⟨_, _, .assign he, .refl _, fun _ ctx => hexpr e ctx⟩
  | skip => exact ⟨_, _, .skip, .refl _, fun _ _ => unmasked_none⟩
  | @printInt s us e he => exact ⟨_, _, .printInt he, .refl _, fun _ ctx => hexpr e ctx⟩
  | printText => exact ⟨_, _, .printText, .refl _, fun _ _ => unmasked_none⟩
  | @cond s s₁ ts us vs test body last others hbranch hmany hlast =>
    obtain ⟨ts', us', test', body', others', hbranch', hmany', hts, hus, hu⟩ :=
      exists_recast_branches ih s hbranch hmany (by simp; omega)
    obtain ⟨vs', last', hlast', hvs, huv⟩ := ih vs last (by simp; omega) hlast
    refine ⟨_, _, .cond (s := s) hbranch' hmany' hlast',
      hts.append (hus.append (hvs.cons (keywordAt .senao s₁))), fun _ ctx => ?_⟩
    simpa only [offence, Option.or_assoc] using (hu ctx).or (huv ctx)
  | @condOnly s ts us test body others hbranch hmany =>
    obtain ⟨ts', us', test', body', others', hbranch', hmany', hts, hus, hu⟩ :=
      exists_recast_branches ih s hbranch hmany (by simp; omega)
    exact ⟨_, _, .condOnly (s := s) hbranch' hmany', hts.append hus, fun _ ctx => hu ctx⟩
  | @loop s s₁ ts us test body htest hbody =>
    obtain ⟨ts', test', htest', hts, hu⟩ := PredForm.exists_recast htest
    obtain ⟨us', body', hbody', hus, hub⟩ := ih us body (by simp; omega) hbody
    exact ⟨_, _, .loop htest' hbody', (hts (keywordAt .enquanto s) rfl).append
      (hus.cons (keywordAt .faca s₁)), fun _ ctx => (hu ctx).or (hub ctx)⟩
  | @count x s s₁ s₂ s₃ s₄ s₅ ts us vs ws start stop step body hstart hstop hstep hbody =>
    obtain ⟨ws', body', hbody', hws, hub⟩ := ih ws body (by simp; omega) hbody
    have hstep' := (Recasts.refl vs).append (hws.cons (keywordAt .faca s₅))
    have hstop' := (Recasts.refl us).append (hstep'.cons (keywordAt .passo s₄))
    have hstart' := (Recasts.refl ts).append (hstop'.cons (keywordAt .ate s₃))
    refine ⟨_, _, .count hstart hstop hstep hbody',
      (((hstart'.cons (keywordAt .de s₂)).cons (identifierAt x s₁)).cons (keywordAt .para s)),
      fun _ ctx => ?_⟩
    exact (hexpr start ctx).or ((hexpr stop ctx).or ((hexpr step ctx).or (hub ctx)))
  | @countOnes x s s₁ s₂ s₃ s₄ ts us ws start stop body hstart hstop hbody =>
    obtain ⟨ws', body', hbody', hws, hub⟩ := ih ws body (by simp; omega) hbody
    have hstop' := (Recasts.refl us).append (hws.cons (keywordAt .faca s₄))
    have hstart' := (Recasts.refl ts).append (hstop'.cons (keywordAt .ate s₃))
    refine ⟨_, _, .countOnes hstart hstop hbody',
      (((hstart'.cons (keywordAt .de s₂)).cons (identifierAt x s₁)).cons (keywordAt .para s)),
      fun _ ctx => ?_⟩
    exact (hexpr start ctx).or ((hexpr stop ctx).or (hub ctx))
  | @switch s s₁ s₂ ts us vs selector cases default hsel hcases hdefault =>
    obtain ⟨us', cases', hcases', hus, huc⟩ := hcases.exists_recast
      (Q := fun x => ∀ ctx, Unmasked (x.1.offence.or (x.2.offence ctx))) (n := us.length)
      (fun vs x hl hx => by
        obtain ⟨vs', x', hx', hvs, hu⟩ := hx.exists_recast ih (by simp; omega)
        exact ⟨vs', x', hx', fun t _ _ => hvs.cons t, hu⟩) (Nat.le_refl _)
    obtain ⟨vs', default', hdefault', hvs, hud⟩ := ih vs default (by simp; omega) hdefault
    have hdefault'' := (hvs.cons (symbolAt .colon s₂)).cons (keywordAt .outro s₁)
    refine ⟨_, _, .switch hsel hcases' hdefault',
      ((Recasts.refl ts).append (hus.append hdefault'')).cons (keywordAt .escolha s),
      fun _ ctx => ?_⟩
    rw [offence, caseOffences_eq_findSome?]
    refine (hexpr selector ctx).or (.or (unmasked_findSome? ?_) (hud ctx))
    exact List.forall_mem_map.mpr fun x hx => huc x hx ctx
  | @block s s₁ us body hbody =>
    obtain ⟨us', body', hbody', hus, hub⟩ := hbody.exists_recast
      (Q := fun c : CommandForm => ∀ ctx, Unmasked (c.offence ctx)) (n := us.length)
      (fun vs c hl hc => ih vs c (by simp; omega) hc) (Nat.le_refl _)
    refine ⟨_, _, .block hbody', (hus.append (.refl [symbolAt .closeBrace s₁])).cons
      (symbolAt .openBrace s), fun _ ctx => ?_⟩
    rw [offence, offences_eq_findSome?]
    exact unmasked_findSome? fun c hc => hub c hc ctx

theorem Derives.exists_recast {ts : List (Token Name)} {f : CommandForm} (h : Derives ts f) :
    ∃ ts' f', Recast ts ts' f' := by
  generalize hn : ts.length = n
  induction n using Nat.strongRecOn generalizing ts f with
  | ind n ih =>
    subst hn
    obtain ⟨shape⟩ := h
    obtain ⟨ts', shape', hshape, hts, hu⟩ :=
      shape.exists_recast fun us f hlt hf => ih us.length hlt hf rfl
    exact ⟨ts', _, .intro hshape, hts, hu _⟩

end CommandForm

/-! ## Programs -/

theorem InstructionForm.Derives.exists_recast {ts : List (Token Name)} {i : InstructionForm}
    (h : Derives ts i) : ∃ ts' i', Derives ts' i' ∧ Recasts ts ts' ∧
      ∀ ctx, Unmasked (i'.offence ctx) := by
  cases h with
  | command hc =>
    obtain ⟨ts', c', hc', hts, hu⟩ := hc.exists_recast
    exact ⟨ts', _, .command hc', hts, hu⟩
  | @declare x s s₁ s₂ s₃ s₄ ts us params body hparams hbody =>
    exact ⟨_, _, .declare hparams hbody, .refl _, fun ctx => body.unmasked_offence _⟩

namespace ProgramForm

theorem unmasked_offence {program : ProgramForm}
    (h : ∀ i ∈ program, ∀ ctx, Unmasked (i.offence ctx)) (ctx : Context) :
    Unmasked (offence ctx program) := by
  induction program generalizing ctx with
  | nil => exact unmasked_none
  | cons i rest ih =>
    obtain ⟨hi, hrest⟩ := List.forall_mem_cons.mp h
    exact (hi ctx).or (ih hrest _)

/-- Every program is recast by one in which no offence is masked. -/
theorem exists_recast {ts : List (Token Name)} {program : ProgramForm} (h : Derives ts program) :
    ∃ ts' program', Derives ts' program' ∧ Recasts ts ts' ∧
      ∀ ctx, Unmasked (offence ctx program') := by
  obtain ⟨ts', program', hprogram, hts, hu⟩ := SepBy.exists_recast
    (Q := fun i : InstructionForm => ∀ ctx, Unmasked (i.offence ctx)) (n := ts.length)
    (fun us i _ hi => hi.exists_recast) h (Nat.le_refl _)
  exact ⟨ts', program', hprogram, hts, unmasked_offence hu⟩

end ProgramForm

end Enquanto

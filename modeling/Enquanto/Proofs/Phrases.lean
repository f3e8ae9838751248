import Enquanto.Proofs.Offences
import Enquanto.Proofs.ParserSteps

/-!
# Parsers of phrases

What it means that a parser reads the phrases of the grammar, and how that carries over to the
repetitions of the grammar.

* `Parser.Sound`: what a parser has read is a phrase;
* `Parser.Answers`: a phrase is read to its end, if the token behind it is none that could go on
  with it, and its first offence is reported, if it has one;
* `Parser.Sound.many`, `Parser.Sound.chainLeft` and `Parser.Sound.sepBy`, with their counterparts
  for `Answers`.

A phrase has a form first and a tree then: `Grammar.Denotes` leads from a relation on forms to one
on trees, and commutes with the repetitions.
-/

namespace Enquanto

open Grammar

namespace Grammar

variable {α β φ : Type} {mark : TokenKind Name → β → Prop} {ts : List (Token Name)}
  {phrase : List (Token Name) → α → Prop}

/-- The tree of a phrase that satisfies the rules. -/
def Denotes (derives : List (Token Name) → φ → Prop) (admissible : φ → Prop) (tree : φ → α)
    (ts : List (Token Name)) (a : α) : Prop :=
  ∃ f, derives ts f ∧ admissible f ∧ tree f = a

/-- The phrases of at most `n` tokens. -/
def Within (n : Nat) (phrase : List (Token Name) → α → Prop) (ts : List (Token Name)) (a : α) :
    Prop :=
  ts.length ≤ n ∧ phrase ts a

theorem Many.within {rest : List (β × α)} {n : Nat} (h : Many mark phrase ts rest)
    (hn : ts.length ≤ n) : Many mark (Within n phrase) ts rest := by
  induction h with
  | nil => exact .nil
  | cons hm hp _ ih =>
    simp only [List.length_cons, List.length_append] at hn
    exact .cons hm ⟨by omega, hp⟩ (ih (by omega))

theorem SepBy.within {k : TokenKind Name} {as : List α} {n : Nat} (h : SepBy k phrase ts as)
    (hn : ts.length ≤ n) : SepBy k (Within n phrase) ts as := by
  cases h with
  | intro hp hm =>
    rw [List.length_append] at hn
    exact .intro ⟨by omega, hp⟩ (hm.within (by omega))

theorem Listed.within {as : List α} {n : Nat} (h : Listed phrase ts as) (hn : ts.length ≤ n) :
    Listed (Within n phrase) ts as := by
  cases h with
  | none => exact .none
  | some hs => exact .some (hs.within hn)

/-- The token at the start of a repetition marks a phrase, or the repetition is empty. -/
theorem Many.kind_or_eq {c c' : Cursor} {rest : List (β × α)} (h : Many mark phrase ts rest)
    (hts : c.Passes ts c') : (∃ b, mark c.current.kind b) ∨ c' = c := by
  cases h with
  | nil => exact .inr (Cursor.passes_nil_iff.mp hts)
  | cons hm _ _ => exact .inl ⟨_, hts.current_eq ▸ hm⟩

theorem Many.length_le {rest : List (β × α)} (h : Many mark phrase ts rest) :
    rest.length ≤ ts.length := by
  induction h with
  | nil => simp
  | cons _ _ _ ih =>
    simp only [List.length_cons, List.length_append]
    omega

theorem Many.append {us : List (Token Name)} {rest rest' : List (β × α)}
    (h : Many mark phrase ts rest) (h' : Many mark phrase us rest') :
    Many mark phrase (ts ++ us) (rest ++ rest') := by
  induction h with
  | nil => exact h'
  | cons hm hp _ ih =>
    rw [List.cons_append, List.append_assoc]
    exact .cons hm hp ih

theorem Many.one {t : Token Name} {b : β} {a : α} (hm : mark t.kind b) (hp : phrase ts a) :
    Many mark phrase (t :: ts) [(b, a)] := by
  have h : Many mark phrase (t :: (ts ++ [])) [(b, a)] := .cons hm hp .nil
  rwa [List.append_nil] at h

/-- The last phrase of a repetition, and the repetition before it. -/
theorem Many.split_last {init : List (β × α)} {x : β × α}
    (h : Many mark phrase ts (init ++ [x])) : ∃ us t vs, ts = us ++ t :: vs ∧
      Many mark phrase us init ∧ mark t.kind x.1 ∧ phrase vs x.2 := by
  induction init generalizing ts with
  | nil =>
    cases h with
    | cons hm hp hr =>
      cases hr
      exact ⟨[], _, _, by rw [List.nil_append, List.append_nil], .nil, hm, hp⟩
  | cons y init ih =>
    cases h with
    | @cons t b ts₁ ts₂ a _ hm hp hr =>
      obtain ⟨us, t', vs, rfl, hus, hx⟩ := ih hr
      exact ⟨t :: (ts₁ ++ us), t', vs, by simp, .cons hm hp hus, hx⟩

theorem SepBy.ne_nil {k : TokenKind Name} {as : List α} (h : SepBy k phrase ts as) : as ≠ [] := by
  cases h
  simp

/-- The first phrase of a list, and the rest if there is one. -/
theorem sepBy_cons_iff {k : TokenKind Name} {a : α} {as : List α} :
    SepBy k phrase ts (a :: as) ↔ (as = [] ∧ phrase ts a) ∨
      ∃ us t vs, ts = us ++ t :: vs ∧ phrase us a ∧ t.kind = k ∧ SepBy k phrase vs as := by
  constructor
  · rintro ⟨ha, hm⟩
    cases hm with
    | nil => exact .inl ⟨rfl, by rwa [List.append_nil]⟩
    | cons ht hp hr => exact .inr ⟨_, _, _, rfl, ha, ht, .intro hp hr⟩
  · rintro (⟨rfl, ha⟩ | ⟨us, t, vs, rfl, ha, ht, hs⟩)
    · have h : SepBy k phrase (ts ++ []) [a] := .intro ha .nil
      rwa [List.append_nil] at h
    · cases hs with
      | @intro ts₁ ts₂ a' rest hp hr => exact .intro ha (.cons (b := ()) ht hp hr)

/-- Other phrases for the same tokens, one by one, with `g` as before. -/
theorem Many.exists_forall {γ : Type} {Q : α → Prop} {g : α → γ} {n : Nat} {rest : List (β × α)}
    (h : ∀ us a, us.length ≤ n → phrase us a → ∃ a', phrase us a' ∧ Q a' ∧ g a' = g a)
    (hm : Many mark phrase ts rest) (hn : ts.length ≤ n) :
    ∃ rest', Many mark phrase ts rest' ∧ (∀ x ∈ rest', Q x.2) ∧
      rest'.map (g ·.2) = rest.map (g ·.2) := by
  induction hm with
  | nil => exact ⟨[], .nil, by simp, rfl⟩
  | @cons t b ts us a rest hmark ha _ ih =>
    simp only [List.length_cons, List.length_append] at hn
    obtain ⟨a', ha', hq, hg⟩ := h ts a (by omega) ha
    obtain ⟨rest', hrest', hqs, hgs⟩ := ih (by omega)
    exact ⟨(b, a') :: rest', .cons hmark ha' hrest', List.forall_mem_cons.mpr ⟨hq, hqs⟩,
      by rw [List.map_cons, List.map_cons, hg, hgs]⟩

theorem SepBy.exists_forall {γ : Type} {k : TokenKind Name} {Q : α → Prop} {g : α → γ} {n : Nat}
    {as : List α}
    (h : ∀ us a, us.length ≤ n → phrase us a → ∃ a', phrase us a' ∧ Q a' ∧ g a' = g a)
    (hs : SepBy k phrase ts as) (hn : ts.length ≤ n) :
    ∃ as', SepBy k phrase ts as' ∧ (∀ a ∈ as', Q a) ∧ as'.map g = as.map g := by
  cases hs with
  | @intro us vs a rest ha hrest =>
    rw [List.length_append] at hn
    obtain ⟨a', ha', hq, hg⟩ := h us a (by omega) ha
    obtain ⟨rest', hrest', hqs, hgs⟩ := hrest.exists_forall h (by omega)
    refine ⟨_, .intro ha' hrest', List.forall_mem_cons.mpr ⟨hq, List.forall_mem_map.mpr hqs⟩, ?_⟩
    rw [List.map_cons, List.map_cons, List.map_map, List.map_map, hg]
    exact congrArg _ hgs

section
variable {derives : List (Token Name) → φ → Prop} {admissible : φ → Prop} {tree : φ → α}

theorem many_denotes_iff {rest : List (β × α)} :
    Many mark (Denotes derives admissible tree) ts rest ↔
      ∃ forms, Many mark derives ts forms ∧ (∀ x ∈ forms, admissible x.2) ∧
        forms.map (fun x => (x.1, tree x.2)) = rest := by
  constructor
  · intro h
    induction h with
    | nil => exact ⟨[], .nil, by simp, rfl⟩
    | @cons t b ts us a rest hm hp _ ih =>
      obtain ⟨f, hd, ha, rfl⟩ := hp
      obtain ⟨forms, hd', ha', rfl⟩ := ih
      exact ⟨(b, f) :: forms, .cons hm hd hd', by simpa using ⟨ha, fun b f h => ha' (b, f) h⟩, rfl⟩
  · rintro ⟨forms, hd, ha, rfl⟩
    induction hd with
    | nil => exact .nil
    | cons hm hp _ ih =>
      exact .cons hm ⟨_, hp, ha _ (List.mem_cons_self ..), rfl⟩
        (ih fun x hx => ha x (List.mem_cons_of_mem _ hx))

theorem sepBy_denotes_iff {k : TokenKind Name} {as : List α} :
    SepBy k (Denotes derives admissible tree) ts as ↔
      ∃ forms, SepBy k derives ts forms ∧ (∀ f ∈ forms, admissible f) ∧ forms.map tree = as := by
  constructor
  · rintro ⟨⟨f, hd, ha, rfl⟩, hm⟩
    obtain ⟨forms, hd', ha', rfl⟩ := many_denotes_iff.mp hm
    refine ⟨f :: forms.map Prod.snd, ⟨hd, hd'⟩, ?_, by simp⟩
    rw [List.forall_mem_cons]
    exact ⟨ha, List.forall_mem_map.mpr ha'⟩
  · rintro ⟨_, ⟨hd, hm⟩, ha, rfl⟩
    rename_i us vs f forms
    rw [List.forall_mem_cons, List.forall_mem_map] at ha
    have hr : Many (just k) (Denotes derives admissible tree) vs
        (forms.map fun x => (x.1, tree x.2)) :=
      many_denotes_iff.mpr ⟨forms, hm, ha.2, rfl⟩
    have hs : SepBy k (Denotes derives admissible tree) (us ++ vs)
        (tree f :: (forms.map fun x => (x.1, tree x.2)).map Prod.snd) :=
      .intro ⟨f, hd, ha.1, rfl⟩ hr
    simpa [Function.comp_def] using hs

theorem listed_denotes_iff {as : List α} :
    Listed (Denotes derives admissible tree) ts as ↔
      ∃ forms, Listed derives ts forms ∧ (∀ f ∈ forms, admissible f) ∧ forms.map tree = as := by
  constructor
  · rintro (_ | h)
    · exact ⟨[], .none, by simp, rfl⟩
    · obtain ⟨forms, hd, ha, he⟩ := sepBy_denotes_iff.mp h
      exact ⟨forms, .some hd, ha, he⟩
  · rintro ⟨forms, _ | hd, ha, rfl⟩
    · exact .none
    · exact .some (sepBy_denotes_iff.mpr ⟨forms, hd, ha, rfl⟩)

end

end Grammar

namespace Parser

variable {α β γ φ ω : Type} {c c' : Cursor}

/-- What a parser has read is a phrase. -/
def Sound (p : Parser α) (phrase : List (Token Name) → α → Prop) : Prop :=
  ∀ ⦃c a c'⦄, p c = .ok (a, c') → ∃ ts, c.Passes ts c' ∧ phrase ts a

/-- The result is `a`, or a report of the offence that there is. -/
def Reports (o : Option Offence) (result : Except ParseError α) (a : α) : Prop :=
  match o with
  | none => result = .ok a
  | some o => ∃ e, result = .error e ∧ o.Shows e

/-- What a parser makes of a phrase, if the token behind it is one to stop at: its tree with the
cursor at its end, or a report of its first offence. -/
def Answers (p : Parser α) (derives : List (Token Name) → φ → Prop) (offence : φ → Option Offence)
    (tree : φ → α) (stop : TokenKind Name → Prop) : Prop :=
  ∀ ⦃c ts f c'⦄, c.Passes ts c' → derives ts f → stop c'.current.kind →
    Reports (offence f) (p c) (tree f, c')

section
variable {o o' : Option Offence}

/-- A result that is reached is the one that was due. -/
theorem Reports.eq_of_ok {result : Except ParseError α} {a b : α} (h : Reports o result a)
    (hb : result = .ok b) : b = a := by
  cases o with
  | none => exact Except.ok.inj (hb.symm.trans h)
  | some o =>
    obtain ⟨e, he, -⟩ := h
    cases hb.symm.trans he

/-- The first of two parsers that finds an offence reports it. -/
theorem Reports.bind {p : Parser α} {f : α → Parser β} {a : α} {c₁ : Cursor} {r : β × Cursor}
    (h : Reports o (p c) (a, c₁)) (h' : Reports o' (f a c₁) r) :
    Reports (o.or o') ((p >>= f) c) r := by
  cases o with
  | none =>
    rw [Option.none_or, bind_eq_of_ok h]
    exact h'
  | some o =>
    obtain ⟨e, he, hs⟩ := h
    exact ⟨e, bind_eq_of_error he, hs⟩

theorem Reports.bind_ok {p : Parser α} {f : α → Parser β} {a : α} {c₁ : Cursor} {r : β × Cursor}
    (h : Reports o (p c) (a, c₁)) (h' : f a c₁ = .ok r) : Reports o ((p >>= f) c) r := by
  rw [← Option.or_none (o := o)]
  exact h.bind h'

theorem Reports.ok_bind {p : Parser α} {f : α → Parser β} {a : α} {c₁ : Cursor} {r : β × Cursor}
    (h : p c = .ok (a, c₁)) (h' : Reports o (f a c₁) r) : Reports o ((p >>= f) c) r :=
  Reports.bind (o := none) h h'

theorem Reports.map {result : Except ParseError α} {a : α} (h : Reports o result a) (f : α → β) :
    Reports o (f <$> result) (f a) := by
  cases o with
  | none =>
    obtain rfl : result = .ok a := h
    rfl
  | some o =>
    obtain ⟨e, rfl, hs⟩ := h
    exact ⟨e, rfl, hs⟩

/-- The value of a literal, or that it is none. -/
theorem literal_reports (label : CaseLabel) : Reports label.offence
    ((liftM (literal label.negative label.magnitude label.span) : Parser Int32) c)
      (label.value, c) := by
  by_cases h : -2147483648 ≤ label.number ∧ label.number ≤ 2147483647
  · rw [CaseLabel.offence, if_pos h]
    exact lift_eq_ok_iff.mpr ⟨literal_eq_ok_iff.mpr ⟨h, rfl⟩, rfl⟩
  · rw [CaseLabel.offence, if_neg h]
    have hl : literal label.negative label.magnitude label.span = _ := literal_eq_error h
    exact ⟨_, by rw [hl]; rfl, Offence.plain_shows _⟩

end

theorem Sound.imp {p : Parser α} {phrase phrase' : List (Token Name) → α → Prop}
    (h : Sound p phrase) (himp : ∀ ts a, phrase ts a → phrase' ts a) : Sound p phrase' := by
  intro c a c' hc
  obtain ⟨ts, hts, ha⟩ := h hc
  exact ⟨ts, hts, himp ts a ha⟩

theorem Answers.imp {p : Parser α} {derives derives' : List (Token Name) → φ → Prop}
    {offence : φ → Option Offence} {tree : φ → α} {stop stop' : TokenKind Name → Prop}
    (h : Answers p derives offence tree stop) (himp : ∀ ts f, derives' ts f → derives ts f)
    (hstop : ∀ kind, stop' kind → stop kind) : Answers p derives' offence tree stop' :=
  fun _ _ _ _ hts hf hs => h hts (himp _ _ hf) (hstop _ hs)

/-! ## Repetition -/

section
variable {announces : TokenKind Name → Option β} {mark : TokenKind Name → β → Prop}
  {phrase : List (Token Name) → α → Prop} {item : β → Parser γ} {make : β → α → γ}

/-- The items of a repetition: a marked phrase each. -/
def Items (mark : TokenKind Name → β → Prop) (phrase : List (Token Name) → α → Prop)
    (make : β → α → γ) (ts : List (Token Name)) (xs : List γ) : Prop :=
  ∃ rest, Many mark phrase ts rest ∧ rest.map (fun x => make x.1 x.2) = xs

/-- A phrase as an item of a repetition. -/
def Item (phrase : List (Token Name) → α → Prop) (make : β → α → γ) (b : β)
    (ts : List (Token Name)) (x : γ) : Prop :=
  ∃ a, phrase ts a ∧ make b a = x

/-- Successful items, one after the other, up to a token that announces none. -/
inductive Steps (announces : TokenKind Name → Option β) (item : β → Parser γ) :
    Cursor → List γ → Cursor → Prop
  | stop {c : Cursor} : announces c.current.kind = none → Steps announces item c [] c
  | step {c c₁ c' : Cursor} {b : β} {x : γ} {xs : List γ} : announces c.current.kind = some b →
    item b c.advance = .ok (x, c₁) → Steps announces item c₁ xs c' →
      Steps announces item c (x :: xs) c'

theorem Steps.stopped {xs : List γ} (h : Steps announces item c xs c') :
    announces c'.current.kind = none := by
  induction h with
  | stop hn => exact hn
  | step _ _ _ ih => exact ih

/-- A repetition with a bound that it does not reach gives `xs`, or reports an offence. -/
def Repeats (announces : TokenKind Name → Option β) (item : β → Parser γ) (o : Option Offence)
    (c : Cursor) (xs : List γ) (c' : Cursor) : Prop :=
  ∀ bound : List (Token Name), xs.length ≤ bound.length →
    Reports o (manyUpTo announces item bound c) (xs, c')

theorem Repeats.stop (h : announces c.current.kind = none) :
    Repeats announces item none c [] c := by
  rintro (_ | ⟨_, bound⟩) -
  · rfl
  · simp only [manyUpTo, current_bind, h]
    rfl

theorem Repeats.step {b : β} {x : γ} {xs : List γ} {c₁ : Cursor} {o o' : Option Offence}
    (hb : announces c.current.kind = some b) (hx : Reports o (item b c.advance) (x, c₁))
    (h : Repeats announces item o' c₁ xs c') : Repeats announces item (o.or o') c (x :: xs) c' := by
  rintro (_ | ⟨_, bound⟩) hl
  · simp at hl
  · simp only [manyUpTo, current_bind, hb, advance_bind]
    exact hx.bind ((h bound (by simpa using hl)).bind_ok rfl)

theorem Repeats.many {xs : List γ} {o : Option Offence} (h : Repeats announces item o c xs c')
    (hl : xs.length ≤ c.ahead.length) : Reports o (many announces item c) (xs, c') :=
  h c.ahead hl

/-- A repetition ends where no item is announced: its bound is never reached. -/
theorem Steps.of_many_eq (hend : announces .endOfFile = none)
    (hitem : ∀ b ⦃c x c'⦄, item b c = .ok (x, c') → c'.ahead.length ≤ c.ahead.length)
    {xs : List γ} (h : many announces item c = .ok (xs, c')) : Steps announces item c xs c' := by
  suffices hb : ∀ (bound : List (Token Name)) (c : Cursor) (xs : List γ),
      c.ahead.length ≤ bound.length → manyUpTo announces item bound c = .ok (xs, c') →
        Steps announces item c xs c' from hb _ _ _ (Nat.le_refl _) h
  intro bound
  induction bound with
  | nil =>
    intro c xs hl h
    obtain ⟨rfl, rfl⟩ := pure_eq_ok_iff.mp h
    have hnil : c'.ahead = [] := List.eq_nil_of_length_eq_zero (Nat.le_zero.mp hl)
    exact .stop (by rw [Cursor.current_kind_eq_endOfFile hnil, hend])
  | cons _ bound ih =>
    intro c xs hl h
    simp only [manyUpTo, current_bind] at h
    cases hb : announces c.current.kind with
    | none =>
      rw [hb] at h
      obtain ⟨rfl, rfl⟩ := pure_eq_ok_iff.mp h
      exact .stop hb
    | some b =>
      simp only [hb, advance_bind] at h
      obtain ⟨x, c₁, hx, h⟩ := bind_eq_ok_iff.mp h
      obtain ⟨xs', c₂, hxs, h⟩ := bind_eq_ok_iff.mp h
      obtain ⟨rfl, rfl⟩ := pure_eq_ok_iff.mp h
      have ht : c.Passes [c.current] c.advance :=
        passes_current fun hk => by rw [hk, hend] at hb; cases hb
      have hlen : c.ahead.length = c.advance.ahead.length + 1 := by simp [ht.1]
      have hx' := hitem b hx
      simp only [List.length_cons] at hl
      exact .step hb hx (ih _ _ (by omega) hxs)

theorem Sound.many (hmark : ∀ kind b, announces kind = some b → mark kind b)
    (hend : announces .endOfFile = none) (hitem : ∀ b, Sound (item b) (Item phrase make b)) :
    Sound (many announces item) (Items mark phrase make) := by
  intro c xs c' h
  have hsteps : Steps announces item c xs c' := by
    refine .of_many_eq hend (fun b c x c' hx => ?_) h
    obtain ⟨ts, hts, -⟩ := hitem b hx
    exact hts.ahead_length_le
  clear h
  induction hsteps with
  | stop _ => exact ⟨[], Cursor.passes_nil_iff.mpr rfl, [], .nil, rfl⟩
  | @step c c₁ c' b x xs hb hx _ ih =>
    obtain ⟨ts, hts, a, ha, rfl⟩ := hitem b hx
    obtain ⟨us, hus, rest, hrest, rfl⟩ := ih
    have ht : c.Passes [c.current] c.advance :=
      passes_current fun hk => by rw [hk, hend] at hb; cases hb
    exact ⟨c.current :: (ts ++ us), ht.cons (hts.append hus), (b, a) :: rest,
      .cons (hmark _ _ hb) ha hrest, rfl⟩

theorem Answers.many {derives : List (Token Name) → φ → Prop} {offence : φ → Option Offence}
    {tree : β → φ → γ} {stop : TokenKind Name → Prop}
    (hmark : ∀ kind b, mark kind b → announces kind = some b ∧ stop kind)
    (hitem : ∀ b, Answers (item b) derives offence (tree b) stop) :
    Answers (many announces item) (Many mark derives) (·.findSome? (offence ·.2))
      (·.map fun x => tree x.1 x.2) (fun kind => stop kind ∧ announces kind = none) := by
  rintro c ts rest c' hts hrest ⟨hstop, hnone⟩
  refine Repeats.many ?_ (by simpa using Nat.le_trans hrest.length_le hts.length_le)
  induction hrest generalizing c with
  | nil =>
    obtain rfl := Cursor.passes_nil_iff.mp hts
    exact .stop hnone
  | @cons t b ts us f rest hm hf hrest ih =>
    obtain ⟨c₁, ht, hts⟩ := Cursor.passes_cons_iff.mp hts
    obtain ⟨c₂, hts, hus⟩ := Cursor.passes_append_iff.mp hts
    obtain ⟨rfl, -, rfl⟩ := Cursor.passes_one_iff.mp ht
    -- An item ends where the next one is announced, or with the whole repetition.
    have hs : stop c₂.current.kind := by
      rcases hrest.kind_or_eq hus with ⟨b', hb'⟩ | rfl
      · exact (hmark _ _ hb').2
      · exact hstop
    simp only [findSome?_cons_eq_or]
    exact .step (hmark _ _ hm).1 (hitem b hts hf hs) (ih hus)

end

/-! ## Signs -/

section
variable {k : TokenClass} {kind : TokenKind Name} {spans : List Span}

/-- Tokens of one kind are read as their spans. -/
theorem signs_sound (hk : ∀ other u, on k other = some u → other = kind) (hend : kind ≠ .endOfFile)
    (h : many (on k) (fun _ => lastSpan) c = .ok (spans, c')) :
    c.Passes (spans.map fun s => ⟨kind, s⟩) c' := by
  have hnone : on k .endOfFile = none :=
    Option.eq_none_iff_forall_ne_some.mpr fun u hu => hend (hk _ _ hu).symm
  have hsteps := Steps.of_many_eq hnone (fun _ c x c' hx => by cases hx; exact Nat.le_refl _) h
  clear h
  induction hsteps with
  | stop _ => exact Cursor.passes_nil_iff.mpr rfl
  | @step c c₁ c' _ s spans hb hx _ ih =>
    obtain rfl := hk _ _ hb
    have ht : c.Passes [c.current] c.advance := passes_current hend
    obtain ⟨rfl, rfl⟩ := pure_eq_ok_iff.mp hx
    rw [List.map_cons, ht.lastSpan_eq (by simp)]
    exact ht.cons ih

theorem signs_complete (hk : on k kind = some ())
    (hts : c.Passes (spans.map fun s => ⟨kind, s⟩) c') (hn : on k c'.current.kind = none) :
    many (on k) (fun _ => lastSpan) c = .ok (spans, c') := by
  refine Repeats.many (o := none) ?_ (by simpa using hts.length_le)
  induction spans generalizing c with
  | nil =>
    obtain rfl := Cursor.passes_nil_iff.mp hts
    exact .stop hn
  | cons s spans ih =>
    obtain ⟨c₁, ht, hts⟩ := Cursor.passes_cons_iff.mp hts
    obtain ⟨hcur, -, rfl⟩ := Cursor.passes_one_iff.mp ht
    have hl : lastSpan c.advance = .ok (s, c.advance) := by
      have := ht.lastSpan_eq (by simp)
      exact congrArg (fun x => Except.ok (x, c.advance)) this
    exact .step (o := none) (by rw [hcur]; exact hk) hl (ih hts)

end

/-! ## Operators and separators -/

/-- Phrases of one level with operators between them, joined from the left. -/
def Chained (mark : TokenKind Name → ω → Prop) (phrase : List (Token Name) → α → Prop)
    (join : ω → α → α → α) (ts : List (Token Name)) (a : α) : Prop :=
  ∃ us vs first rest, ts = us ++ vs ∧ phrase us first ∧ Many mark phrase vs rest ∧
    rest.foldl (fun left (op, right) => join op left right) first = a

section
variable {operator : TokenKind Name → Option ω} {mark : TokenKind Name → ω → Prop}
  {phrase : List (Token Name) → α → Prop} {operand : Parser α} {join : ω → α → α → α}

/-- The first offence of a chain is that of the first operand with one. -/
theorem offence_foldl {form : ω → φ → φ → φ} {offence : φ → Option Offence}
    (h : ∀ op l r, offence (form op l r) = (offence l).or (offence r)) (first : φ)
    (rest : List (ω × φ)) :
    offence (rest.foldl (fun left (op, right) => form op left right) first) =
      (offence first).or (rest.findSome? (offence ·.2)) := by
  induction rest generalizing first with
  | nil => simp
  | cons x rest ih => rw [List.foldl_cons, ih, h, findSome?_cons_eq_or, Option.or_assoc]

theorem tree_foldl {form : ω → φ → φ → φ} {tree : φ → α}
    (h : ∀ op l r, tree (form op l r) = join op (tree l) (tree r)) (first : φ)
    (rest : List (ω × φ)) : tree (rest.foldl (fun left (op, right) => form op left right) first) =
      (rest.map fun x => (x.1, tree x.2)).foldl (fun left (op, right) => join op left right)
        (tree first) := by
  induction rest generalizing first with
  | nil => rfl
  | cons x rest ih => rw [List.foldl_cons, ih, h, List.map_cons, List.foldl_cons]

theorem admissible_foldl {form : ω → φ → φ → φ} {admissible : φ → Prop}
    (h : ∀ op l r, admissible (form op l r) ↔ admissible l ∧ admissible r) {first : φ}
    {rest : List (ω × φ)} :
    admissible (rest.foldl (fun left (op, right) => form op left right) first) ↔
      admissible first ∧ ∀ x ∈ rest, admissible x.2 := by
  induction rest generalizing first with
  | nil => simp
  | cons x rest ih => rw [List.foldl_cons, ih, h, List.forall_mem_cons, and_assoc]

/-- A chain of forms is read as a chain of trees. -/
theorem chained_denotes_iff {derives derives' : List (Token Name) → φ → Prop}
    {admissible : φ → Prop} {tree : φ → α} {form : ω → φ → φ → φ}
    (hadm : ∀ op l r, admissible (form op l r) ↔ admissible l ∧ admissible r)
    (htree : ∀ op l r, tree (form op l r) = join op (tree l) (tree r))
    (hderives : ∀ ts f, derives' ts f ↔ Chained mark derives form ts f) {ts : List (Token Name)}
    {a : α} : Denotes derives' admissible tree ts a ↔
      Chained mark (Denotes derives admissible tree) join ts a := by
  constructor
  · rintro ⟨f, hf, ha, rfl⟩
    obtain ⟨us, vs, g, rest, rfl, hg, hr, rfl⟩ := (hderives ts f).mp hf
    obtain ⟨hga, hra⟩ := (admissible_foldl hadm).mp ha
    exact ⟨us, vs, _, _, rfl, ⟨g, hg, hga, rfl⟩, many_denotes_iff.mpr ⟨rest, hr, hra, rfl⟩,
      (tree_foldl htree g rest).symm⟩
  · rintro ⟨us, vs, _, _, rfl, ⟨g, hg, hga, rfl⟩, hr, rfl⟩
    obtain ⟨rest, hd, hra, rfl⟩ := many_denotes_iff.mp hr
    exact ⟨_, (hderives _ _).mpr ⟨us, vs, g, rest, rfl, hg, hd, rfl⟩,
      (admissible_foldl hadm).mpr ⟨hga, hra⟩, tree_foldl htree g rest⟩

theorem Chained.within {ts : List (Token Name)} {a : α} {n : Nat}
    (h : Chained mark phrase join ts a) (hn : ts.length ≤ n) :
    Chained mark (Within n phrase) join ts a := by
  obtain ⟨us, vs, first, rest, rfl, hp, hr, ha⟩ := h
  rw [List.length_append] at hn
  exact ⟨us, vs, first, rest, rfl, ⟨by omega, hp⟩, hr.within (by omega), ha⟩

theorem Sound.chainLeft (hmark : ∀ kind op, operator kind = some op ↔ mark kind op)
    (hend : operator .endOfFile = none) (h : Sound operand phrase) :
    Sound (chainLeft operator join operand) (Chained mark phrase join) := by
  intro c a c' hc
  obtain ⟨first, c₁, hf, hc⟩ := bind_eq_ok_iff.mp hc
  obtain ⟨rest, c₂, hr, hc⟩ := bind_eq_ok_iff.mp hc
  obtain ⟨rfl, rfl⟩ := pure_eq_ok_iff.mp hc
  obtain ⟨us, hus, hp⟩ := h hf
  have hitem : ∀ op : ω, Sound (do return (op, ← operand)) (Item phrase Prod.mk op) := by
    intro op c x c' hx
    obtain ⟨a, c₁, ha, hx⟩ := bind_eq_ok_iff.mp hx
    obtain ⟨rfl, rfl⟩ := pure_eq_ok_iff.mp hx
    obtain ⟨ts, hts, hp⟩ := h ha
    exact ⟨ts, hts, a, hp, rfl⟩
  obtain ⟨vs, hvs, rest, hrest, rfl⟩ :=
    Sound.many (fun kind op => (hmark kind op).mp) hend hitem hr
  exact ⟨us ++ vs, hus.append hvs, us, vs, first, rest, rfl, hp, hrest, by simp⟩

theorem Answers.chainLeft {derives : List (Token Name) → φ → Prop} {offence : φ → Option Offence}
    {tree : φ → α} {form : ω → φ → φ → φ} {stop : TokenKind Name → Prop}
    (hmark : ∀ kind op, operator kind = some op ↔ mark kind op)
    (hstop : ∀ kind op, mark kind op → stop kind)
    (hoffence : ∀ op l r, offence (form op l r) = (offence l).or (offence r))
    (htree : ∀ op l r, tree (form op l r) = join op (tree l) (tree r))
    (h : Answers operand derives offence tree stop) :
    Answers (chainLeft operator join operand) (Chained mark derives form) offence tree
      (fun kind => stop kind ∧ operator kind = none) := by
  rintro c _ _ c' hts ⟨us, vs, first, rest, rfl, hf, hrest, rfl⟩ ⟨hs, hn⟩
  obtain ⟨c₁, hus, hvs⟩ := Cursor.passes_append_iff.mp hts
  have hs₁ : stop c₁.current.kind := by
    rcases hrest.kind_or_eq hvs with ⟨op, hop⟩ | rfl
    · exact hstop _ _ hop
    · exact hs
  have hitem : ∀ op : ω, Answers (do return (op, ← operand)) derives offence
      (fun f => (op, tree f)) stop :=
    fun op _ _ _ _ hts hf hs => (h hts hf hs).bind_ok rfl
  have hm : ∀ kind op, mark kind op → operator kind = some op ∧ stop kind :=
    fun kind op hop => ⟨(hmark _ _).mpr hop, hstop _ _ hop⟩
  rw [offence_foldl hoffence, tree_foldl htree]
  exact (h hus hf hs₁).bind ((Answers.many hm hitem hvs hrest ⟨hs, hn⟩).bind_ok rfl)

end

section
variable {phrase : List (Token Name) → α → Prop} {item : Parser α} {k : Symbol}

theorem on_symbol_eq_some_iff {kind : TokenKind Name} {u : Unit} :
    on (.symbol k) kind = some u ↔ just (.symbol k) kind u := by
  cases kind <;> simp [on, just, TokenKind.toClass]

theorem on_keyword_eq_some_iff {k : Keyword} {kind : TokenKind Name} {u : Unit} :
    on (.keyword k) kind = some u ↔ just (.keyword k) kind u := by
  cases kind <;> simp [on, just, TokenKind.toClass]

/-- Phrases that are each announced by one word. -/
theorem Sound.marked {k : Keyword} (h : Sound item phrase) :
    Sound (Parser.many (on (.keyword k)) fun _ => item)
      (Items (just (.keyword k)) phrase fun _ a => a) := by
  refine Sound.many (fun _ _ => on_keyword_eq_some_iff.mp) rfl fun _ c a c' ha => ?_
  obtain ⟨ts, hts, hp⟩ := h ha
  exact ⟨ts, hts, a, hp, rfl⟩

section
variable {derives : List (Token Name) → φ → Prop} {offence : φ → Option Offence} {tree : φ → α}
  {stop : TokenKind Name → Prop}

theorem Answers.marked {k : Keyword} (hstop : stop (.keyword k))
    (h : Answers item derives offence tree stop) :
    Answers (Parser.many (on (.keyword k)) fun _ => item) (Many (just (.keyword k)) derives)
      (·.findSome? (offence ·.2)) (·.map (tree ·.2))
      (fun kind => stop kind ∧ kind ≠ .keyword k) := by
  refine (Answers.many (fun kind u hu => ⟨on_keyword_eq_some_iff.mpr hu, hu ▸ hstop⟩)
    fun _ => h).imp (fun _ _ => id) fun kind hk => ⟨hk.1, ?_⟩
  exact Option.eq_none_iff_forall_ne_some.mpr fun u hu => hk.2 (on_keyword_eq_some_iff.mp hu)

theorem Answers.sepBy (hstop : stop (.symbol k)) (h : Answers item derives offence tree stop) :
    Answers (sepBy (.symbol k) item) (SepBy (.symbol k) derives) (·.findSome? offence) (·.map tree)
      (fun kind => stop kind ∧ kind ≠ .symbol k) := by
  rintro c _ _ c' hts ⟨hf, hrest⟩ ⟨hs, hn⟩
  rename_i us vs first rest
  obtain ⟨c₁, hus, hvs⟩ := Cursor.passes_append_iff.mp hts
  have hs₁ : stop c₁.current.kind := by
    rcases hrest.kind_or_eq hvs with ⟨u, hu⟩ | rfl
    · exact hu ▸ hstop
    · exact hs
  have hm : ∀ kind u, just (.symbol k) kind u → on (.symbol k) kind = some u ∧ stop kind :=
    fun kind u hu => ⟨on_symbol_eq_some_iff.mpr hu, hu ▸ hstop⟩
  have hn' : on (.symbol k) c'.current.kind = none :=
    Option.eq_none_iff_forall_ne_some.mpr fun u hu => hn (on_symbol_eq_some_iff.mp hu)
  have hr := Answers.many hm (fun _ => h) hvs hrest ⟨hs, hn'⟩
  simp only [findSome?_cons_eq_or, List.findSome?_map, List.map_cons, List.map_map]
  exact (h hus hf hs₁).bind (hr.bind_ok rfl)

/-- A list with commas that may be empty, as it is read in front of a closing parenthesis. -/
theorem Answers.listed {ts : List (Token Name)} {fs : List φ} (hcomma : stop (.symbol .comma))
    (hclose : stop (.symbol .closeParen))
    (hhead : ∀ t us f, derives (t :: us) f → t.kind ≠ .symbol .closeParen)
    (hne : ∀ f, ¬derives [] f) (h : Answers item derives offence tree stop) (hts : c.Passes ts c')
    (hl : Listed derives ts fs) (hc' : c'.current.kind = .symbol .closeParen) :
    Reports (fs.findSome? offence) ((if c.current.toClass == .symbol .closeParen then pure []
      else Parser.sepBy (.symbol .comma) item : Parser (List α)) c) (fs.map tree, c') := by
  cases hl with
  | none =>
    obtain rfl := Cursor.passes_nil_iff.mp hts
    simp only [Token.toClass, hc', TokenKind.toClass, beq_self_eq_true, if_true]
    rfl
  | some hs =>
    have hk : c.current.kind ≠ .symbol .closeParen := by
      cases hs with
      | @intro us vs f rest hf _ =>
        cases us with
        | nil => exact absurd hf (hne f)
        | cons t us =>
          rw [hts.current_eq]
          exact hhead t us f hf
    have hb : (c.current.toClass == .symbol .closeParen) = false := by
      rw [beq_eq_false_iff_ne]
      exact fun he => hk (TokenKind.toClass_eq_symbol_iff.mp he)
    rw [hb]
    exact Answers.sepBy hcomma h hts hs ⟨hc' ▸ hclose, by rw [hc']; simp⟩

end

theorem Sound.sepBy (h : Sound item phrase) :
    Sound (sepBy (.symbol k) item) (SepBy (.symbol k) phrase) := by
  intro c as c' hc
  obtain ⟨first, c₁, hf, hc⟩ := bind_eq_ok_iff.mp hc
  obtain ⟨rest, c₂, hr, hc⟩ := bind_eq_ok_iff.mp hc
  obtain ⟨rfl, rfl⟩ := pure_eq_ok_iff.mp hc
  obtain ⟨us, hus, hp⟩ := h hf
  have hitem : ∀ _ : Unit, Sound item (Item phrase (fun _ a => a) ()) := by
    intro _ c a c' ha
    obtain ⟨ts, hts, hp⟩ := h ha
    exact ⟨ts, hts, a, hp, rfl⟩
  obtain ⟨vs, hvs, rest, hrest, rfl⟩ :=
    Sound.many (fun _ _ => on_symbol_eq_some_iff.mp) rfl hitem hr
  exact ⟨us ++ vs, hus.append hvs, .intro hp hrest⟩

/-- A list with commas that may be empty, as it is read in front of a closing parenthesis. -/
theorem Sound.listed {b : Bool} {as : List α} (h : Sound item phrase)
    (hc : (if b then pure [] else Parser.sepBy (.symbol .comma) item : Parser (List α)) c =
      .ok (as, c')) : ∃ ts, c.Passes ts c' ∧ Listed phrase ts as := by
  cases b with
  | true =>
    obtain ⟨rfl, rfl⟩ := pure_eq_ok_iff.mp hc
    exact ⟨[], Cursor.passes_nil_iff.mpr rfl, .none⟩
  | false =>
    obtain ⟨ts, hts, hs⟩ := Sound.sepBy h hc
    exact ⟨ts, hts, .some hs⟩

end

end Parser

end Enquanto

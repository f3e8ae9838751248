import Enquanto.Proofs.Phrases

/-!
# Induction over derivations

The levels of the grammar are there to read a phrase in one way only. What a phrase is made of does
not depend on them: an operator stands between two shorter phrases, whatever their levels.

* `Many.imp`, `SepBy.imp` and `Listed.imp`: the phrases of a repetition are shorter than it is;
* `ExprForm.Derives.induct` and `PredForm.Derives.induct`: one case for each form;
* `CommandForm.Derives.induct`: a command, if all shorter ones are done.
-/

namespace Enquanto

open Grammar

namespace Grammar

variable {α β : Type} {mark : TokenKind Name → β → Prop} {ts : List (Token Name)}
  {phrase phrase' : List (Token Name) → α → Prop}

theorem Many.imp {rest : List (β × α)} (h : Many mark phrase ts rest)
    (himp : ∀ us a, us.length < ts.length → phrase us a → phrase' us a) :
    Many mark phrase' ts rest := by
  induction h with
  | nil => exact .nil
  | cons hmark ha _ ih =>
    simp only [List.length_cons, List.length_append] at himp
    exact .cons hmark (himp _ _ (by omega) ha) (ih fun us a hlt => himp us a (by omega))

theorem SepBy.imp {k : TokenKind Name} {as : List α} (h : SepBy k phrase ts as)
    (himp : ∀ us a, us.length ≤ ts.length → phrase us a → phrase' us a) :
    SepBy k phrase' ts as := by
  cases h with
  | intro ha hrest =>
    simp only [List.length_append] at himp
    exact .intro (himp _ _ (by omega) ha) (hrest.imp fun us a hlt => himp us a (by omega))

theorem Listed.imp {as : List α} (h : Listed phrase ts as)
    (himp : ∀ us a, us.length ≤ ts.length → phrase us a → phrase' us a) :
    Listed phrase' ts as := by
  cases h with
  | none => exact .none
  | some hs => exact .some (hs.imp himp)

end Grammar

/-! ## Expressions -/

/-- How far a level is from the tightest one. -/
def ExprLevel.rank : ExprLevel → Nat
  | .operand => 0
  | .signed => 1
  | .power => 2
  | .product => 3
  | .sum => 4

namespace ExprForm

theorem chain_induct {P : List (Token Name) → ExprForm → Prop}
    (arith : ∀ op s ts us l r, P ts l → P us r →
      P (ts ++ symbolAt op.symbol s :: us) (.arith op l r))
    {ops : List ArithOp} {ts us : List (Token Name)} {e : ExprForm}
    {rest : List (ArithOp × ExprForm)} (he : P ts e) (h : Many (operator ops) P us rest) :
    P (ts ++ us) (chain e rest) := by
  induction h generalizing ts e with
  | nil => simpa [chain] using he
  | @cons t op us₁ us₂ a rest hmark ha _ ih =>
    obtain ⟨kind, s⟩ := t
    obtain ⟨-, rfl⟩ := hmark
    have h := ih (arith op s ts us₁ e a he ha)
    simpa [chain] using h

/-- What each form has if its parts have it, every derivation has. -/
theorem Derives.induct {P : List (Token Name) → ExprForm → Prop}
    (int : ∀ m s, P [integerAt m s] (.int m s))
    (read : ∀ s, P [keywordAt .leia s] (.read s))
    (call : ∀ x s s₁ s₂ ts args, Listed P ts args → P (identifierAt x s ::
      symbolAt .openParen s₁ :: (ts ++ [symbolAt .closeParen s₂])) (.call x s args (s.merge s₂)))
    (var : ∀ x s, P [identifierAt x s] (.var x s))
    (paren : ∀ s₁ s₂ ts e, P ts e →
      P (symbolAt .openParen s₁ :: (ts ++ [symbolAt .closeParen s₂])) (.paren e))
    (neg : ∀ s ts e, P ts e → P (symbolAt .minus s :: ts) (.neg e (s.merge (lastSpan ts))))
    (arith : ∀ op s ts us l r, P ts l → P us r →
      P (ts ++ symbolAt op.symbol s :: us) (.arith op l r))
    {level : ExprLevel} {ts : List (Token Name)} {e : ExprForm} (h : Derives level ts e) :
    P ts e := by
  -- A part has fewer tokens, or as many at a tighter level.
  generalize hn : 5 * ts.length + level.rank = n
  induction n using Nat.strongRecOn generalizing level ts e with
  | ind n ih =>
    subst hn
    cases h with
    | int => exact int _ _
    | read => exact read _
    | var => exact var _ _
    | call hargs =>
      refine call _ _ _ _ _ _ (hargs.imp fun us a hle ha => ih _ ?_ ha rfl)
      simp only [List.length_cons, List.length_append, List.length_nil, ExprLevel.rank]
      omega
    | paren he =>
      refine paren _ _ _ _ (ih _ ?_ he rfl)
      simp only [List.length_cons, List.length_append, List.length_nil, ExprLevel.rank]
      omega
    | neg he =>
      refine neg _ _ _ (ih _ ?_ he rfl)
      simp only [List.length_cons, ExprLevel.rank]
      omega
    | unsigned he => exact ih _ (by simp only [ExprLevel.rank]; omega) he rfl
    | power he hrest | product he hrest | sum he hrest =>
      refine chain_induct arith (ih _ ?_ he rfl) (hrest.imp fun us a hlt ha => ih _ ?_ ha rfl) <;>
        simp only [List.length_append, ExprLevel.rank] <;> omega

end ExprForm

/-! ## Predicates -/

/-- How far a level is from the tightest one. -/
def PredLevel.rank : PredLevel → Nat
  | .atom => 0
  | .negated => 1
  | .and => 2
  | .xor => 3
  | .or => 4

namespace PredForm

theorem chain_induct {P : List (Token Name) → PredForm → Prop}
    (logic : ∀ op s ts us l r, P ts l → P us r →
      P (ts ++ keywordAt op.keyword s :: us) (.logic op l r))
    {op : LogicOp} {ts us : List (Token Name)} {p : PredForm}
    {rest : List (LogicOp × PredForm)} (hp : P ts p) (h : Many (connective op) P us rest) :
    P (ts ++ us) (chain p rest) := by
  induction h generalizing ts p with
  | nil => simpa [chain] using hp
  | @cons t op' us₁ us₂ a rest hmark ha _ ih =>
    obtain ⟨kind, s⟩ := t
    obtain ⟨-, rfl⟩ := hmark
    have h := ih (logic op' s ts us₁ p a hp ha)
    simpa [chain] using h

/-- What each form has if its parts have it, every derivation has. -/
theorem Derives.induct {P : List (Token Name) → PredForm → Prop}
    (litTrue : ∀ s, P [keywordAt .verdadeiro s] (.lit Bool.true s))
    (litFalse : ∀ s, P [keywordAt .falso s] (.lit Bool.false s))
    (paren : ∀ s₁ s₂ ts p, P ts p →
      P (symbolAt .openParen s₁ :: (ts ++ [symbolAt .closeParen s₂])) (.paren p))
    (rel : ∀ op s ts us l r, ExprForm.Derives .sum ts l → ExprForm.Derives .sum us r →
      P (ts ++ symbolAt op.symbol s :: us) (.rel op l r))
    (not : ∀ s ts p, P ts p → P (keywordAt .nao s :: ts) (.not p (s.merge (lastSpan ts))))
    (logic : ∀ op s ts us l r, P ts l → P us r →
      P (ts ++ keywordAt op.keyword s :: us) (.logic op l r))
    {level : PredLevel} {ts : List (Token Name)} {p : PredForm} (h : Derives level ts p) :
    P ts p := by
  generalize hn : 5 * ts.length + level.rank = n
  induction n using Nat.strongRecOn generalizing level ts p with
  | ind n ih =>
    subst hn
    cases h with
    | true => exact litTrue _
    | false => exact litFalse _
    | rel hl hr => exact rel _ _ _ _ _ _ hl hr
    | paren hp =>
      refine paren _ _ _ _ (ih _ ?_ hp rfl)
      simp only [List.length_cons, List.length_append, List.length_nil, PredLevel.rank]
      omega
    | not hp =>
      refine not _ _ _ (ih _ ?_ hp rfl)
      simp only [List.length_cons, PredLevel.rank]
      omega
    | plain hp => exact ih _ (by simp only [PredLevel.rank]; omega) hp rfl
    | and hp hrest | xor hp hrest | or hp hrest =>
      refine chain_induct logic (ih _ ?_ hp rfl) (hrest.imp fun us a hlt ha => ih _ ?_ ha rfl) <;>
        simp only [List.length_append, PredLevel.rank] <;> omega

end PredForm

/-! ## Commands -/

/-- What a command has if all shorter ones have it, every command has. -/
theorem CommandForm.Derives.induct {P : List (Token Name) → CommandForm → Prop}
    (step : ∀ ts shape, CommandForm.Shape ts shape →
      (∀ us c, us.length < ts.length → CommandForm.Derives us c → P us c) →
      P ts (shape (wholeSpan ts)))
    {ts : List (Token Name)} {c : CommandForm} (h : CommandForm.Derives ts c) : P ts c := by
  generalize hn : ts.length = n
  induction n using Nat.strongRecOn generalizing ts c with
  | ind n ih =>
    subst hn
    cases h with
    | intro hshape => exact step _ _ hshape fun us c hlt hc => ih _ hlt hc rfl

end Enquanto

import Enquanto.Proofs.FormInduction
import Enquanto.Proofs.ProgramParsing

/-!
# Words that phrases lack

Some tokens have one place in a program. A declaration starts with `def`, and no other phrase has
one; a `;` separates instructions and the commands of a block, and stands in no expression; invalid
tokens and ends of file are in no phrase at all.

* `Grammar.Lacks`: tokens without those of some classes;
* `ExprForm.Derives.lacks`, `PredForm.Derives.lacks` and `CommandForm.Derives.lacks`: what phrases
  lack;
* `InstructionForm.Derives.command_or_declare`: an instruction has no `def`, or starts with its only
  one and has no `;`;
* `ProgramForm.Derives.lacks`: there is no invalid token in a program, and no end of file.
-/

namespace Enquanto

open Grammar

namespace Grammar

variable {α β : Type} {mark : TokenKind Name → β → Prop} {ts us : List (Token Name)}
  {phrase : List (Token Name) → α → Prop} {classes : List TokenClass}

/-- No token is of one of the classes. -/
def Lacks (classes : List TokenClass) (ts : List (Token Name)) : Prop :=
  ∀ t ∈ ts, t.toClass ∉ classes

@[simp] theorem lacks_nil : Lacks classes [] := List.forall_mem_nil _

@[simp] theorem lacks_cons {t : Token Name} :
    Lacks classes (t :: ts) ↔ t.toClass ∉ classes ∧ Lacks classes ts :=
  List.forall_mem_cons

@[simp] theorem lacks_append : Lacks classes (ts ++ us) ↔ Lacks classes ts ∧ Lacks classes us :=
  List.forall_mem_append

theorem Many.lacks {rest : List (β × α)} (h : Many mark (fun us _ => Lacks classes us) ts rest)
    (hmark : ∀ t b, mark t b → t.toClass ∉ classes) : Lacks classes ts := by
  induction h with
  | nil => exact lacks_nil
  | cons hm hp _ ih => exact lacks_cons.mpr ⟨hmark _ _ hm, lacks_append.mpr ⟨hp, ih⟩⟩

theorem SepBy.lacks {k : TokenKind Name} {as : List α}
    (h : SepBy k (fun us _ => Lacks classes us) ts as) (hk : k.toClass ∉ classes) :
    Lacks classes ts := by
  cases h with
  | intro hp hm =>
    refine lacks_append.mpr ⟨hp, hm.lacks ?_⟩
    rintro _ _ rfl
    exact hk

theorem Listed.lacks {as : List α} (h : Listed (fun us _ => Lacks classes us) ts as)
    (hk : .symbol .comma ∉ classes) : Lacks classes ts := by
  cases h with
  | none => exact lacks_nil
  | some hs => exact hs.lacks hk

/-- What no command has. -/
def outsideCommands : List TokenClass := [.invalid, .endOfFile, .keyword .definition]

/-- What no expression has, besides much else. -/
def outsideExprs : List TokenClass := .symbol .semicolon :: outsideCommands

theorem Lacks.mono {classes' : List TokenClass} (h : Lacks classes ts)
    (hsub : classes' ⊆ classes) : Lacks classes' ts :=
  fun t ht hmem => h t ht (hsub hmem)

theorem Lacks.outsideCommands (h : Lacks outsideExprs ts) : Lacks outsideCommands ts :=
  h.mono (List.subset_cons_self _ _)

@[simp] theorem symbol_notMem_outsideCommands (s : Symbol) :
    .symbol s ∉ Grammar.outsideCommands := by
  simp [Grammar.outsideCommands]

@[simp] theorem keyword_notMem_outsideCommands_iff (k : Keyword) :
    .keyword k ∉ Grammar.outsideCommands ↔ k ≠ .definition := by
  simp [Grammar.outsideCommands]

@[simp] theorem symbol_notMem_outsideExprs_iff (s : Symbol) :
    .symbol s ∉ outsideExprs ↔ s ≠ .semicolon := by
  simp [outsideExprs]

@[simp] theorem keyword_notMem_outsideExprs_iff (k : Keyword) :
    .keyword k ∉ outsideExprs ↔ k ≠ .definition := by
  simp [outsideExprs]

@[simp] theorem identifier_notMem_outsideExprs : .identifier ∉ outsideExprs := by
  decide

@[simp] theorem integer_notMem_outsideExprs : .integer ∉ outsideExprs := by
  decide

end Grammar

section
variable {ts : List (Token Name)}

/-! ## Phrases -/

theorem ExprForm.Derives.lacks {level : ExprLevel} {e : ExprForm} (h : Derives level ts e) :
    Lacks outsideExprs ts := by
  refine Derives.induct (P := fun ts _ => Lacks outsideExprs ts) ?_ ?_ ?_ ?_ ?_ ?_ ?_ h
  · intro m s
    simp [Token.toClass, TokenKind.toClass]
  · intro s
    simp [Token.toClass, TokenKind.toClass]
  · intro x s s₁ s₂ ts args hargs
    have hts : Lacks outsideExprs ts := hargs.lacks (by decide)
    simpa [Token.toClass, TokenKind.toClass] using hts
  · intro x s
    simp [Token.toClass, TokenKind.toClass]
  · intro s₁ s₂ ts e he
    simpa [Token.toClass, TokenKind.toClass] using he
  · intro s ts e he
    simpa [Token.toClass, TokenKind.toClass] using he
  · intro op s ts us l r hl hr
    have hop : op.symbol ≠ .semicolon := by
      cases op <;> decide
    simpa [Token.toClass, TokenKind.toClass, hop] using ⟨hl, hr⟩

theorem PredForm.Derives.lacks {level : PredLevel} {p : PredForm} (h : Derives level ts p) :
    Lacks outsideCommands ts := by
  refine Derives.induct (P := fun ts _ => Lacks outsideCommands ts) ?_ ?_ ?_ ?_ ?_ ?_ h
  · intro s
    simp [Token.toClass, TokenKind.toClass]
  · intro s
    simp [Token.toClass, TokenKind.toClass]
  · intro s₁ s₂ ts p hp
    simpa [Token.toClass, TokenKind.toClass] using hp
  · intro op s ts us l r hl hr
    simpa [Token.toClass, TokenKind.toClass] using
      ⟨hl.lacks.outsideCommands, hr.lacks.outsideCommands⟩
  · intro s ts p hp
    simpa [Token.toClass, TokenKind.toClass] using hp
  · intro op s ts us l r hl hr
    have hop : op.keyword ≠ .definition := by
      cases op <;> decide
    simpa [Token.toClass, TokenKind.toClass, hop] using ⟨hl, hr⟩

namespace CommandForm

theorem Branch.lacks {b : PredForm × CommandForm} (h : Branch ts b)
    (hshort : ∀ us c, us.length < ts.length → Derives us c → Lacks outsideCommands us) :
    Lacks outsideCommands ts := by
  cases h with
  | intro htest hbody =>
    have hb := hshort _ _ (by simp; omega) hbody
    simpa [Token.toClass, TokenKind.toClass] using ⟨htest.lacks, hb⟩

theorem Case.lacks {b : CaseLabel × CommandForm} (h : Case ts b)
    (hshort : ∀ us c, us.length < ts.length → Derives us c → Lacks outsideCommands us) :
    Lacks outsideCommands ts := by
  cases h with
  | intro hlabel hbody =>
    have hb := hshort _ _ (by simp; omega) hbody
    cases hlabel <;> simpa [Token.toClass, TokenKind.toClass, outsideCommands] using hb

theorem Shape.lacks {shape : Span → CommandForm} (h : Shape ts shape)
    (hshort : ∀ us c, us.length < ts.length → Derives us c → Lacks outsideCommands us) :
    Lacks outsideCommands ts := by
  have hmarked {α : Type} {k : Keyword} {us : List (Token Name)} {rest : List (Unit × α)}
      (hk : k ≠ .definition)
      (h : Many (just (.keyword k)) (fun us _ => Lacks outsideCommands us) us rest) :
      Lacks outsideCommands us := by
    refine h.lacks ?_
    rintro _ _ rfl
    simpa [TokenKind.toClass] using hk
  cases h with
  | assign he =>
    simpa [Token.toClass, TokenKind.toClass, outsideCommands] using he.lacks.outsideCommands
  | skip => simp [Token.toClass, TokenKind.toClass]
  | printText => simp [Token.toClass, TokenKind.toClass, outsideCommands]
  | printInt he => simpa [Token.toClass, TokenKind.toClass] using he.lacks.outsideCommands
  | loop htest hbody =>
    have hb := hshort _ _ (by simp; omega) hbody
    simpa [Token.toClass, TokenKind.toClass] using ⟨htest.lacks, hb⟩
  | block hbody =>
    have hb : Lacks outsideCommands _ := SepBy.lacks
      (hbody.imp fun us c hle hc => hshort us c (by simp; omega) hc) (by simp [TokenKind.toClass])
    simpa [Token.toClass, TokenKind.toClass] using hb
  | cond hfirst hothers hlast =>
    have hf := hfirst.lacks fun us c hlt => hshort us c (by simp; omega)
    have ho := hmarked (by decide) (hothers.imp fun us b hlt hb =>
      hb.lacks fun us c hlt' => hshort us c (by simp; omega))
    have hl := hshort _ _ (by simp; omega) hlast
    simpa [Token.toClass, TokenKind.toClass] using ⟨hf, ho, hl⟩
  | condOnly hfirst hothers =>
    have hf := hfirst.lacks fun us c hlt => hshort us c (by simp; omega)
    have ho := hmarked (by decide) (hothers.imp fun us b hlt hb =>
      hb.lacks fun us c hlt' => hshort us c (by simp; omega))
    simpa [Token.toClass, TokenKind.toClass] using ⟨hf, ho⟩
  | count hi hj hk hbody =>
    have hb := hshort _ _ (by simp; omega) hbody
    simpa [Token.toClass, TokenKind.toClass, outsideCommands] using
      ⟨hi.lacks.outsideCommands, hj.lacks.outsideCommands, hk.lacks.outsideCommands, hb⟩
  | countOnes hi hj hbody =>
    have hb := hshort _ _ (by simp; omega) hbody
    simpa [Token.toClass, TokenKind.toClass, outsideCommands] using
      ⟨hi.lacks.outsideCommands, hj.lacks.outsideCommands, hb⟩
  | switch hselector hcases hdefault =>
    have hc := hmarked (by decide) (hcases.imp fun us b hlt hb =>
      hb.lacks fun us c hlt' => hshort us c (by simp; omega))
    have hd := hshort _ _ (by simp; omega) hdefault
    simpa [Token.toClass, TokenKind.toClass] using ⟨hselector.lacks.outsideCommands, hc, hd⟩

theorem Derives.lacks {c : CommandForm} (h : Derives ts c) : Lacks outsideCommands ts :=
  h.induct fun _ _ hshape hshort => hshape.lacks fun us c hlt hc => hshort us c hlt hc

end CommandForm

/-! ## Instructions and programs -/

/-- An instruction has no `def`, or starts with one and has no other one and no `;`. -/
theorem InstructionForm.Derives.command_or_declare {i : InstructionForm} (h : Derives ts i) :
    Lacks outsideCommands ts ∨ ∃ x params body span s s₁ us,
      i = .declare x params body span ∧
      ts = keywordAt .definition s :: identifierAt x s₁ :: us ∧ Lacks outsideExprs us := by
  cases h with
  | command hc => exact .inl hc.lacks
  | declare hparams hbody =>
    refine .inr ⟨_, _, _, _, _, _, _, rfl, rfl, ?_⟩
    have hlisted : Listed (fun us _ => Lacks outsideExprs us) _ _ := hparams.imp fun us x _ hx => by
      cases hx
      simp [Token.toClass, TokenKind.toClass]
    have hp := hlisted.lacks (by decide)
    simpa [Token.toClass, TokenKind.toClass] using ⟨hp, hbody.lacks⟩

theorem ProgramForm.Derives.lacks {form : ProgramForm} (h : ProgramForm.Derives ts form) :
    Lacks [.invalid, .endOfFile] ts := by
  refine SepBy.lacks (SepBy.imp h fun us i _ hi => ?_) (by decide)
  rcases hi.command_or_declare with hus | ⟨x, params, body, span, s, s₁, us, -, rfl, hus⟩
  · exact hus.mono (by simp [outsideCommands])
  · have hinner : Lacks [.invalid, .endOfFile] us :=
      hus.mono (by simp [outsideExprs, outsideCommands])
    simpa [Token.toClass, TokenKind.toClass] using hinner

theorem ProgramForm.Derives.valid {form : ProgramForm} (h : ProgramForm.Derives ts form) :
    Lacks [.invalid] ts :=
  h.lacks.mono (by simp)

/-- All tokens of a program are read. -/
theorem ProgramForm.Derives.readable_append {form : ProgramForm} (h : ProgramForm.Derives ts form)
    {t : Token Name} (ht : t.isEndOfFile = true) : readable (ts ++ [t]) = ts := by
  have hts : ∀ u ∈ ts, (!u.isEndOfFile) = true := by
    intro u hu
    have hclass := h.lacks u hu
    simp_all [Token.isEndOfFile]
  rw [readable, List.takeWhile_append_of_pos hts]
  simp [ht]

end

end Enquanto

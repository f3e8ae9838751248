import Enquanto.Proofs.Congruence
import Enquanto.Proofs.JoinedPrograms

/-!
# Declarations that are left out

Where a declaration stands among the tokens of a program, it is one of its instructions, and what
stands before and behind it are programs. Without it the others are still a program, provided that
no call behind it is meant for its function, and the functions declared later have numbers that are
one less.

* `Grammar.without`: a list of parts with separators, without one of them;
* `ProgramForm.Leads` and `ProgramForm.Trails`: what stands before and behind an instruction;
* `ProgramForm.Derives.exists_split`: a declaration among the tokens of a program;
* `FunctionId.Renumbered`: the numbers of functions without the one with number `n`;
* `Program.Omits` and `Program.parse_omits`: a program without one of its declarations.
-/

namespace Enquanto

open Grammar

/-! ## Lists with separators -/

namespace Grammar

variable {α β : Type} {R : α → β → Prop} {sep : α}

theorem forall₂_append_inv {as bs : List α} {cs : List β} (h : List.Forall₂ R (as ++ bs) cs) :
    ∃ cs₁ cs₂, cs = cs₁ ++ cs₂ ∧ List.Forall₂ R as cs₁ ∧ List.Forall₂ R bs cs₂ := by
  refine ⟨cs.take as.length, cs.drop as.length, (List.take_append_drop ..).symm, ?_, ?_⟩
  · simpa using List.forall₂_take as.length h
  · simpa using List.forall₂_drop as.length h

/-- What is left without a part between others: the separator behind it goes with it, or else the
one before it. -/
def without (lead : List α) : List α → List α
  | [] => lead.dropLast
  | _ :: trail => lead ++ trail

theorem without_subset (lead trail : List α) : without lead trail ⊆ lead ++ trail := by
  cases trail with
  | nil => exact List.Subset.trans (List.dropLast_subset lead) (List.subset_append_left _ _)
  | cons a trail => simp [without]

theorem forall₂_without {as as' : List α} {bs bs' : List β}
    (h : List.Forall₂ R as bs) (h' : List.Forall₂ R as' bs') :
    List.Forall₂ R (without as as') (without bs bs') := by
  cases h' with
  | nil =>
    rw [without, without, List.dropLast_eq_take, List.dropLast_eq_take, ← h.length_eq]
    exact List.forall₂_take _ h
  | cons _ h' => exact List.rel_append h h'

/-- Where one of the lists stands among the others. -/
theorem intercalate_append_cons (before after : List (List α)) (inner : List α) :
    [sep].intercalate (before ++ inner :: after) =
      before.flatMap (· ++ [sep]) ++ (inner ++ after.flatMap (sep :: ·)) := by
  induction before with
  | nil =>
    induction after generalizing inner with
    | nil => simp
    | cons next after ih => simpa using ih next
  | cons first before ih =>
    cases before <;> simpa using ih

/-- The others without it. -/
theorem intercalate_append (before after : List (List α)) :
    [sep].intercalate (before ++ after) =
      without (before.flatMap (· ++ [sep])) (after.flatMap (sep :: ·)) := by
  cases after with
  | cons next after =>
    rw [intercalate_append_cons]
    rfl
  | nil =>
    rcases List.eq_nil_or_concat before with rfl | ⟨before, last, rfl⟩
    · rfl
    · rw [List.append_nil, List.concat_eq_append, intercalate_append_cons]
      simp [without, ← List.append_assoc]

theorem tail_flatMap_cons (after : List (List α)) :
    (after.flatMap (sep :: ·)).tail = [sep].intercalate after := by
  cases after with
  | nil => rfl
  | cons next after => exact (intercalate_append_cons [] after next).symm

end Grammar

/-! ## A declaration among other instructions -/

namespace ProgramForm

/-- What stands before an instruction: a program and a semicolon, or nothing. -/
inductive Leads : List (Token Name) → ProgramForm → Prop
  | nil : Leads [] []
  | program {ts : List (Token Name)} {form : ProgramForm} {t : Token Name} : Derives ts form →
    t.kind = .symbol .semicolon → Leads (ts ++ [t]) form

/-- What stands behind an instruction: a semicolon and a program, or nothing. -/
inductive Trails : List (Token Name) → ProgramForm → Prop
  | nil : Trails [] []
  | program {ts : List (Token Name)} {form : ProgramForm} {t : Token Name} :
    t.kind = .symbol .semicolon → Derives ts form → Trails (t :: ts) form

variable {lead trail inner : List (Token Name)} {form form' : ProgramForm} {i : InstructionForm}

/-- Another instruction and its semicolon before. -/
theorem Leads.cons {us : List (Token Name)} {t : Token Name} (h : Leads lead form)
    (hi : InstructionForm.Derives us i) (ht : t.kind = .symbol .semicolon) :
    Leads (us ++ t :: lead) (i :: form) := by
  cases h with
  | nil => exact .program (sepBy_cons_iff.mpr (.inl ⟨rfl, hi⟩)) ht
  | @program ts form t' hts ht' =>
    have hcons : Derives (us ++ t :: ts) (i :: form) :=
      sepBy_cons_iff.mpr (.inr ⟨us, t, ts, rfl, hi, ht, hts⟩)
    rw [← List.cons_append, ← List.append_assoc]
    exact .program hcons ht'

/-- What is left is a program, or nothing. -/
theorem Leads.without (h : Leads lead form) (h' : Trails trail form') :
    Derives (without lead trail) (form ++ form') ∨
      without lead trail = [] ∧ form ++ form' = [] := by
  cases h with
  | nil =>
    cases h' with
    | nil => exact .inr ⟨rfl, rfl⟩
    | program ht h' => exact .inl h'
  | program h ht =>
    cases h' with
    | nil => exact .inl (by simpa [without] using h)
    | program ht' h' => exact .inl (by simpa [without] using derives_append h ht h')

/-- An instruction with a `def` starts with its only one, and has no semicolon. -/
theorem declaration_tokens {us : List (Token Name)} (h : InstructionForm.Derives us i)
    (hdef : .keyword .definition ∈ us.map Token.kind) :
    .keyword .definition ∉ us.tail.map Token.kind ∧ .symbol .semicolon ∉ us.map Token.kind := by
  rcases h.command_or_declare with hlacks | ⟨x, params, body, span, s, s₁, us, -, rfl, hlacks⟩
  · exact absurd hdef (hlacks.definition_notMem (by simp [outsideCommands]))
  · have hdef := hlacks.definition_notMem (by simp [outsideExprs, outsideCommands])
    have hsemicolon : .symbol .semicolon ∉ us.map Token.kind := by
      intro hmem
      obtain ⟨t, ht, hk⟩ := List.mem_map.mp hmem
      exact hlacks t ht (by simp [Token.toClass, hk, TokenKind.toClass, outsideExprs])
    exact ⟨by simpa using hdef, by simpa using hsemicolon⟩

/-- A declaration among the tokens of a program, up to a semicolon or the end, is an instruction of
it. -/
theorem Derives.exists_split {d : Token Name} (hd : d.kind = .keyword .definition)
    (h : Derives (lead ++ (d :: inner ++ trail)) form)
    (hinner : .symbol .semicolon ∉ inner.map Token.kind)
    (htrail : ∀ t ∈ trail.head?, t.kind = .symbol .semicolon) :
    ∃ before i after, form = before ++ i :: after ∧ Leads lead before ∧
      InstructionForm.Derives (d :: inner) i ∧ Trails trail after := by
  induction form generalizing lead with
  | nil => exact absurd rfl (SepBy.ne_nil h)
  | cons i form ih =>
    -- Within one instruction, nothing can stand before a `def`.
    have hfirst {us : List (Token Name)} (hi : InstructionForm.Derives (lead ++ d :: us) i) :
        lead = [] ∧ .symbol .semicolon ∉ (d :: us).map Token.kind := by
      obtain ⟨htail, hsemicolon⟩ := declaration_tokens hi (by simp [hd])
      cases lead with
      | nil => exact ⟨rfl, hsemicolon⟩
      | cons l lead => simp [hd] at htail
    rcases sepBy_cons_iff.mp h with ⟨rfl, hi⟩ | ⟨us, t, vs, heq, hi, ht, hds⟩
    · rw [List.cons_append] at hi
      obtain ⟨rfl, hsemicolon⟩ := hfirst hi
      have hempty : trail = [] := by
        cases trail with
        | nil => rfl
        | cons t trail => simp [htrail t rfl] at hsemicolon
      subst hempty
      exact ⟨[], i, [], rfl, .nil, by simpa using hi, .nil⟩
    · rcases List.append_eq_append_iff.mp heq with ⟨us', rfl, hrest⟩ | ⟨lead', rfl, hrest⟩
      · cases us' with
        | nil =>
          obtain ⟨rfl, -⟩ := List.cons.inj hrest
          simp [hd] at ht
        | cons d' us =>
          obtain ⟨rfl, htails⟩ := List.cons.inj hrest
          obtain ⟨rfl, hsemicolon⟩ := hfirst hi
          -- Neither the declaration nor the instruction goes on over a semicolon.
          rcases List.append_eq_append_iff.mp htails with ⟨more, rfl, rfl⟩ | ⟨more, rfl, htrail'⟩
          · cases more with
            | nil =>
              refine ⟨[], i, form, rfl, .nil, by simpa using hi, .program ht hds⟩
            | cons t' more => simp [htrail t' rfl] at hsemicolon
          · cases more with
            | nil =>
              subst htrail'
              exact ⟨[], i, form, rfl, .nil, by simpa using hi, .program ht hds⟩
            | cons t' more =>
              obtain ⟨rfl, -⟩ := List.cons.inj htrail'
              simp [ht] at hinner
      · cases lead' with
        | nil =>
          obtain ⟨rfl, -⟩ := List.cons.inj hrest
          simp [hd] at ht
        | cons t' lead' =>
          obtain ⟨rfl, rfl⟩ := List.cons.inj hrest
          obtain ⟨before, i', after, rfl, hlead, hi', htrails⟩ := ih hds
          exact ⟨i :: before, i', after, rfl, hlead.cons hi ht, hi', htrails⟩

end ProgramForm

/-! ## Functions with other numbers -/

/-- Without the function with number `n`, the number of `f` is that of `f'`: one less, if it was
declared later. -/
def FunctionId.Renumbered (n : Nat) (f f' : FunctionId) : Prop :=
  f.index = if f'.index < n then f'.index else f'.index + 1

theorem FunctionId.Renumbered.eq_iff {n : Nat} {f f' g g' : FunctionId} (hf : f.Renumbered n f')
    (hg : g.Renumbered n g') : f = g ↔ f' = g' := by
  have hindex (a b : FunctionId) : a = b ↔ a.index = b.index :=
    ⟨congrArg TableId.index, fun h => congrArg TableId.mk h⟩
  rw [hindex f g, hindex f' g', hf, hg]
  split <;> split <;> omega

namespace Signature

variable {declared : List Signature} {x : Name} {n : Nat}

theorem Declares.callee_lt (h : Declares declared x n) :
    (callee declared x).index < declared.length := by
  unfold Declares at h
  unfold callee
  induction declared with
  | nil => simp at h
  | cons s declared ih =>
    by_cases hs : s.name = x
    · simp [hs]
    · simp only [List.find?_cons, beq_eq_false_iff_ne.mpr hs, List.dropWhile_cons, bne,
        Bool.not_false, if_true, List.length_cons] at h ⊢
      exact Nat.lt_succ_of_lt (ih h)

/-- Without the latest function, all others are still there. -/
theorem carries_tail (s : Signature) (declared : List Signature) :
    Carries (FunctionId.Renumbered declared.length) (· = s.name) (s :: declared) declared := by
  intro x n hx h
  simp only [Declares, callee, List.find?_cons, beq_eq_false_iff_ne.mpr (Ne.symm hx),
    List.dropWhile_cons, bne, Bool.not_false, if_true] at h ⊢
  exact ⟨h, (if_pos (Declares.callee_lt h)).symm⟩

end Signature

namespace ProgramForm

variable {lead trail : List (Token Name)} {form : ProgramForm}

/-- What stands before a declaration does not depend on it. -/
theorem Leads.renumbered (h : Leads lead form) (hadm : form.Admissible []) :
    List.Forall₂
      (Instruction.Translates (.ofFunctions (FunctionId.Renumbered (form.declares []).length)))
      (form.tree []) (form.tree []) := by
  have hnone : Signature.Carries (FunctionId.Renumbered (form.declares []).length)
      (fun _ => False) [] [] := fun _ _ _ hdeclares => nomatch hdeclares
  have hnew : ∀ k < (form.tree []).declarations.length,
      FunctionId.Renumbered (form.declares []).length ⟨0 + k⟩ ⟨0 + k⟩ := by
    intro k hk
    have hlt : 0 + k < (form.declares []).length := by
      rw [length_declares]
      exact Nat.add_lt_add_left hk 0
    exact (if_pos hlt).symm
  cases h with
  | nil => exact .nil
  | program hd _ => exact (hd.carried hnone hnew (fun _ hx => hx.elim) hadm).2

/-- What stands behind the declaration of a function that it does not call. -/
theorem Trails.renumbered {declared : List Signature} {s : Signature} (h : Trails trail form)
    (hfirst : DeclaredFirst s.name (trail.tail.map Token.kind))
    (hadm : form.Admissible (s :: declared)) : form.Admissible declared ∧
      List.Forall₂ (Instruction.Translates (.ofFunctions (FunctionId.Renumbered declared.length)))
        (form.tree (s :: declared)) (form.tree declared) := by
  have hnew : ∀ k : Nat, FunctionId.Renumbered declared.length ⟨(s :: declared).length + k⟩
      ⟨declared.length + k⟩ := by
    intro k
    simp [FunctionId.Renumbered, Nat.add_right_comm]
  cases h with
  | nil => exact ⟨trivial, .nil⟩
  | program _ hd =>
    exact hd.carried (Signature.carries_tail s declared) (fun k _ => hnew k)
      (fun x hx => hx ▸ hfirst) hadm

end ProgramForm

/-! ## Without a declaration -/

/-- The second program is a translation of the first one without its function with number `n`. -/
structure Program.Omits (τ : Translation) (n : Nat) (p p' : Program) : Prop where
  commands : List.Forall₂ (Command.Translates τ) p.commands p'.commands
  declarations : List.Forall₂ (Declaration.Translates τ) (p.declarations.eraseIdx n) p'.declarations
  lt : n < p.declarations.length

namespace Program

section
variable {τ σ : Translation} {n : Nat} {p p' p'' before before' after after' : Program}

theorem omits_append {d : Declaration} (hn : n = before.declarations.length)
    (h : List.Forall₂ (Instruction.Translates τ) before before')
    (h' : List.Forall₂ (Instruction.Translates τ) after after') :
    Omits τ n (before ++ .declare d :: after) (before' ++ after') where
  commands := by
    have hcommands : (before ++ .declare d :: after).commands = before.commands ++ after.commands :=
      commands_append before (.declare d :: after)
    rw [hcommands, commands_append]
    exact List.rel_append (commands_translate h) (commands_translate h')
  declarations := by
    rw [hn, declarations_append, declarations_append,
      List.eraseIdx_append_of_length_le (Nat.le_refl _), Nat.sub_self]
    exact List.rel_append (declarations_translate h) (declarations_translate h')
  lt := by
    rw [hn, declarations_append, List.length_append]
    exact Nat.lt_add_of_pos_right (Nat.succ_pos _)

theorem Omits.comp (h : p.Omits τ n p') (h' : List.Forall₂ (Instruction.Translates σ) p' p'') :
    p.Omits (τ.comp σ) n p'' where
  commands := (forall₂_comp h.commands (commands_translate h')).imp
    fun _ _ ⟨_, hc, hc'⟩ => hc.comp hc'
  declarations := (forall₂_comp h.declarations (declarations_translate h')).imp
    fun _ _ ⟨_, hd, hd'⟩ => hd.comp hd'
  lt := h.lt

variable {f f' : FunctionId}

theorem Omits.lt_iff (h : p.Omits τ n p') (hf : f.Renumbered n f') :
    f.index < p.declarations.length ↔ f'.index < p'.declarations.length := by
  have hlength := h.declarations.length_eq
  have hlt := h.lt
  rw [List.length_eraseIdx_of_lt hlt] at hlength
  rw [hf]
  split <;> omega

theorem Omits.declaration (h : p.Omits τ n p') (hf : f.Renumbered n f') {d d' : Declaration}
    (hd : p.declarations[f.index]? = some d) (hd' : p'.declarations[f'.index]? = some d') :
    d.Translates τ d' := by
  have herase : (p.declarations.eraseIdx n)[f'.index]? = some d := by
    rw [List.getElem?_eraseIdx, ← hd, hf]
    split <;> rfl
  obtain ⟨hlt, rfl⟩ := List.getElem?_eq_some_iff.mp herase
  obtain ⟨hlt', rfl⟩ := List.getElem?_eq_some_iff.mp hd'
  exact h.declarations.get hlt hlt'

end

/-- Without the tokens of a declaration, and of a semicolon beside it, the others are read as the
program without it, provided that its function is not called. -/
theorem parse_omits {names : Names} {tokens tokens' lead inner trail : List (Token Name)}
    {p : Program} {g : Name} {d t : Token Name} (h : parse names tokens = .ok p)
    (htokens : readable tokens = lead ++ (d :: t :: inner ++ trail))
    (hd : d.kind = .keyword .definition) (ht : t.kind = .identifier g)
    (hinner : .symbol .semicolon ∉ inner.map Token.kind)
    (htrail : ∀ t ∈ trail.head?, t.kind = .symbol .semicolon)
    (hfirst : DeclaredFirst g (trail.tail.map Token.kind))
    (htokens' : readable tokens' = without lead trail) :
    ∃ n p', parse names tokens' = .ok p' ∧
      p.Omits (.ofFunctions (FunctionId.Renumbered n)) n p' := by
  rcases parse_eq_ok_iff.mp h with ⟨hnil, -⟩ | ⟨form, hderives, hadm, hnear, rfl⟩
  · simp [htokens] at hnil
  rw [htokens] at hderives
  obtain ⟨before, i, after, rfl, hlead, hi, htrails⟩ :=
    hderives.exists_split hd (by simpa [ht] using hinner) htrail
  obtain ⟨params, body, span, rfl⟩ : ∃ params body span, i = .declare g params body span := by
    rcases hi.command_or_declare with hlacks | ⟨x, params, body, span, s, s₁, us, rfl, hts, -⟩
    · exact absurd (by simp [hd]) (hlacks.definition_notMem (by simp [outsideCommands]))
    · obtain ⟨rfl, htail⟩ := List.cons.inj hts
      obtain ⟨rfl, -⟩ := List.cons.inj htail
      obtain rfl := TokenKind.identifier.inj ht
      exact ⟨params, body, span, rfl⟩
  obtain ⟨hadmb, hadmi, hadma⟩ := ProgramForm.admissible_append.mp hadm
  obtain ⟨hnearb, hneara⟩ := ProgramForm.nearest_append.mp hnear
  have hlength := ProgramForm.length_declares [] before
  rw [List.length_nil, Nat.zero_add] at hlength
  have hafter := htrails.renumbered (s := ⟨g, params.length⟩) hfirst hadma
  refine ⟨(before.declares []).length, (before ++ after).tree [], ?_, ?_⟩
  · rw [parse_eq_ok_iff, htokens']
    refine (hlead.without htrails).symm.imp (fun hnone => ⟨hnone.1, by rw [hnone.2]; rfl⟩)
      fun hwithout => ⟨before ++ after, hwithout, ?_, ?_, rfl⟩
    · exact ProgramForm.admissible_append.mpr ⟨hadmb, hafter.1⟩
    · exact ProgramForm.nearest_append.mpr ⟨hnearb, (List.forall_mem_cons.mp hneara).2⟩
  · rw [ProgramForm.tree_append, ProgramForm.tree_append]
    exact omits_append hlength (hlead.renumbered hadmb) hafter.2

end Program

end Enquanto

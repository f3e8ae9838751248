import Enquanto.Proofs.JoinedSources
import Enquanto.Proofs.ParserTranslation
import Enquanto.Proofs.Redirection

/-!
# Joined programs

The tokens of two programs with a semicolon between them are those of one program: the instructions
of the first, and those of the second among the functions of the first. And tokens at other places
give the same program, with its spans moved.

* `ProgramForm.declares`: the functions declared after a program;
* `ProgramForm.derives_append`, `ProgramForm.admissible_append` and `ProgramForm.tree_append`:
  programs one behind the other;
* `Program.parse_append`: reading the tokens of two programs as one;
* `Program.parse_shift`: reading tokens that stand further on.
-/

namespace Enquanto

open Grammar

/-! ## One behind the other -/

theorem Grammar.SepBy.append {α : Type} {k : TokenKind Name}
    {phrase : List (Token Name) → α → Prop} {ts us : List (Token Name)} {as bs : List α}
    (h : SepBy k phrase ts as) {t : Token Name} (ht : t.kind = k) (h' : SepBy k phrase us bs) :
    SepBy k phrase (ts ++ t :: us) (as ++ bs) := by
  induction as generalizing ts with
  | nil => exact absurd rfl h.ne_nil
  | cons a as ih =>
    refine sepBy_cons_iff.mpr (.inr ?_)
    rcases sepBy_cons_iff.mp h with ⟨rfl, ha⟩ | ⟨vs, t', ws, rfl, ha, ht', hs⟩
    · exact ⟨ts, t, us, rfl, ha, ht, h'⟩
    · exact ⟨vs, t', ws ++ t :: us, by simp, ha, ht', ih hs⟩

namespace ProgramForm

/-- The functions declared after a program, the latest first. -/
def declares (declared : List Signature) (form : ProgramForm) : List Signature :=
  form.foldl (fun declared i => i.declares declared) declared

variable {declared : List Signature} {form form' : ProgramForm} {ts us : List (Token Name)}

theorem derives_append (h : Derives ts form) {t : Token Name} (ht : t.kind = .symbol .semicolon)
    (h' : Derives us form') : Derives (ts ++ t :: us) (form ++ form') :=
  SepBy.append h ht h'

theorem admissible_append : Admissible declared (form ++ form') ↔
    form.Admissible declared ∧ form'.Admissible (form.declares declared) := by
  induction form generalizing declared with
  | nil => exact (iff_of_eq (true_and _)).symm
  | cons i form ih => exact (and_congr_right fun _ => ih).trans and_assoc.symm

theorem tree_append (declared : List Signature) (form form' : ProgramForm) :
    tree declared (form ++ form') = form.tree declared ++ form'.tree (form.declares declared) := by
  induction form generalizing declared with
  | nil => rfl
  | cons i form ih => exact congrArg (i.tree declared :: ·) (ih _)

theorem nearest_append : Nearest (form ++ form') ↔ form.Nearest ∧ form'.Nearest :=
  List.forall_mem_append

theorem length_declares (declared : List Signature) (form : ProgramForm) :
    (form.declares declared).length =
      declared.length + (form.tree declared).declarations.length := by
  induction form generalizing declared with
  | nil => rfl
  | cons i form ih =>
    have hrest := ih (i.declares declared)
    cases i with
    | command c => exact hrest
    | declare x params body span =>
      exact hrest.trans (Nat.add_right_comm _ 1 _)

end ProgramForm

namespace Program

theorem commands_append (p q : Program) : (p ++ q).commands = p.commands ++ q.commands :=
  List.filterMap_append

theorem declarations_append (p q : Program) :
    (p ++ q).declarations = p.declarations ++ q.declarations :=
  List.filterMap_append

/-- A program that is not empty has a form. -/
theorem exists_form {names : Names} {tokens : List (Token Name)} {program : Program}
    (h : parse names tokens = .ok program) (hne : program ≠ []) :
    ∃ form, ProgramForm.Derives (readable tokens) form ∧ form.Admissible [] ∧ form.Nearest ∧
      program = form.tree [] := by
  rcases parse_eq_ok_iff.mp h with ⟨-, rfl⟩ | hform
  · exact absurd rfl hne
  · exact hform

/-- The functions of the second program get their numbers behind those of the first one. -/
def Behind (first second : Program) (f f' : FunctionId) : Prop :=
  f.index < second.declarations.length ∧ f'.index = first.declarations.length + f.index

/-- The tokens of two programs, with a semicolon between them, are read as the first program and,
behind it, the second one with other numbers for its functions. -/
theorem parse_append {names names' : Names} {tokens tokens' : List (Token Name)}
    {first second : Program} (h : parse names tokens = .ok first) (hne : first ≠ [])
    (h' : parse names' tokens' = .ok second) (hne' : second ≠ []) {t : Token Name}
    (ht : t.kind = .symbol .semicolon) {whole : List (Token Name)}
    (hwhole : readable whole = readable tokens ++ t :: readable tokens') (names'' : Names) :
    ∃ second', parse names'' whole = .ok (first ++ second') ∧
      List.Forall₂ (Instruction.Translates (.ofFunctions (Behind first second))) second
        second' := by
  obtain ⟨form, hd, hadm, hnear, rfl⟩ := exists_form h hne
  obtain ⟨form', hd', hadm', hnear', rfl⟩ := exists_form h' hne'
  have hnone : Signature.Carries (Behind (form.tree []) (form'.tree [])) (fun _ => False) []
      (form.declares []) := fun _ _ _ hdeclares => nomatch hdeclares
  have hnew : ∀ k < (form'.tree []).declarations.length,
      Behind (form.tree []) (form'.tree []) ⟨([] : List Signature).length + k⟩
        ⟨(form.declares []).length + k⟩ := by
    intro k hk
    simpa [Behind, ProgramForm.length_declares] using hk
  obtain ⟨hadm'', htrees⟩ := hd'.carried hnone hnew (fun _ hx => hx.elim) hadm'
  refine ⟨form'.tree (form.declares []), parse_eq_ok_iff.mpr (.inr ⟨form ++ form', ?_, ?_, ?_, ?_⟩),
    htrees⟩
  · rw [hwhole]
    exact ProgramForm.derives_append hd ht hd'
  · exact ProgramForm.admissible_append.mpr ⟨hadm, hadm''⟩
  · exact ProgramForm.nearest_append.mpr ⟨hnear, hnear'⟩
  · rw [ProgramForm.tree_append]

end Program

/-! ## Further on -/

namespace Span

/-- An end of a span is moved by `n` bytes, as far as offsets go, unless both it and its counterpart
are at the start of the source, where what has no place of its own is put. -/
def EndMoved (n a b : Nat) : Prop := b = min (a + n) maxOffset ∨ a = 0 ∧ b = 0

section
variable {n a b a' b' : Nat}

theorem endMoved_min (h : EndMoved n a b) (h' : EndMoved n a' b') :
    EndMoved n (min a a') (min b b') := by
  rcases h with rfl | ⟨rfl, rfl⟩
  · rcases h' with rfl | ⟨rfl, rfl⟩
    · left
      rcases Nat.le_total a a' with hle | hle
      · rw [Nat.min_eq_left hle, Nat.min_eq_left (shift_mono hle n)]
      · rw [Nat.min_eq_right hle, Nat.min_eq_right (shift_mono hle n)]
    · exact .inr ⟨Nat.min_zero _, Nat.min_zero _⟩
  · exact .inr ⟨Nat.zero_min _, Nat.zero_min _⟩

theorem endMoved_max (h : EndMoved n a b) (h' : EndMoved n a' b') :
    EndMoved n (max a a') (max b b') := by
  rcases h with rfl | ⟨rfl, rfl⟩
  · left
    rcases h' with rfl | ⟨rfl, rfl⟩
    · rcases Nat.le_total a a' with hle | hle
      · rw [Nat.max_eq_right hle, Nat.max_eq_right (shift_mono hle n)]
      · rw [Nat.max_eq_left hle, Nat.max_eq_left (shift_mono hle n)]
    · rw [Nat.max_zero, Nat.max_zero]
  · rw [Nat.zero_max, Nat.zero_max]
    exact h'

/-- An end that is not before the start of the moved text is moved. -/
theorem EndMoved.eq_min (h : EndMoved n a b) (hle : min n maxOffset ≤ b) :
    b = min (a + n) maxOffset := by
  rcases h with rfl | ⟨rfl, rfl⟩
  · rfl
  · rw [Nat.zero_add]
    exact (Nat.le_zero.mp hle).symm

end

/-- Both ends of the span are moved. -/
structure Moved (n : Nat) (s s' : Span) : Prop where
  start : EndMoved n s.start s'.start
  stop : EndMoved n s.stop s'.stop

theorem Moved.eq_shift {n : Nat} {s s' : Span} (h : s.Moved n s')
    (hstart : min n maxOffset ≤ s'.start) (hstop : min n maxOffset ≤ s'.stop) :
    s' = s.shift n :=
  congrArg₂ Span.mk (h.start.eq_min hstart) (h.stop.eq_min hstop)

end Span

/-- Nothing but the places differ. -/
def Translation.ofShift (n : Nat) : Translation := ⟨Eq, Eq, Span.Moved n⟩

theorem Translation.reads_ofShift (n : Nat) : (ofShift n).Reads where
  name_iff := by
    rintro x _ y _ rfl rfl
    exact Iff.rfl
  function _ := rfl
  nowhere := ⟨.inr ⟨rfl, rfl⟩, .inr ⟨rfl, rfl⟩⟩
  merge := fun hs ht => ⟨Span.endMoved_min hs.start ht.start, Span.endMoved_max hs.stop ht.stop⟩
  point := fun h => ⟨h.stop, h.stop⟩

theorem Token.translates_shift (n : Nat) (t : Token Name) :
    t.Translates (.ofShift n) (t.shift n) := by
  refine ⟨?_, .inl rfl, .inl rfl⟩
  obtain ⟨kind, span⟩ := t
  cases kind <;> constructor <;> rfl

/-- Tokens that stand further on are read as the same program with its spans moved. -/
theorem Program.parse_shift {names : Names} {tokens : List (Token Name)} {program : Program}
    (h : parse names tokens = .ok program) (n : Nat) :
    ∃ program', parse names (tokens.map (Token.shift n)) = .ok program' ∧
      List.Forall₂ (Instruction.Translates (.ofShift n)) program program' := by
  have htokens : List.Forall₂ (Token.Translates (.ofShift n)) tokens
      (tokens.map (Token.shift n)) :=
    List.forall₂_map_right_iff.mpr (List.forall₂_same.mpr fun t _ => t.translates_shift n)
  exact exists_parse_translates (Translation.reads_ofShift n) (fun hx => congrArg names.text hx)
    htokens h

end Enquanto

import Enquanto.Proofs.Construction

/-!
# Offences

A form that breaks a rule has an offence: the first literal, name of a callee, or call that is
against the rules, in the order in which they are read. The name of a call is looked up before its
arguments are read, and its arguments are counted after that.

A predicate in parentheses with an offence is read again, as the left side of a relation. That
reading meets the offence once more if it is in the expression that the predicate starts with. If
not, it goes wrong before it gets there, at a token that an expression cannot have, and the offence
is masked.

* `Offence`: an error against the rules, and whether it is masked;
* `ExprForm.offence`, `PredForm.offence`, `CommandForm.offence` and `ProgramForm.offence`: the first
  offence of a form;
* `offence_eq_none_iff`, for each of them: the forms without an offence satisfy the rules.
-/

namespace Enquanto

/-- The causes that are against the rules for forms, not against the grammar. -/
def ParseError.Cause.BreaksRule : ParseError.Cause → Prop
  | .integerOutOfRange | .undefinedFunction _ | .arity _ => True
  | .unexpected _ _ | .invalidToken => False

/-- An error against the rules for forms. -/
structure Offence where
  error : ParseError
  /-- Whether a second reading covers up the error. -/
  masked : Bool
  breaksRule : error.cause.BreaksRule

namespace Offence

/-- An offence that nothing covers up. -/
def plain (cause : ParseError.Cause) (span : Span) (h : cause.BreaksRule) : Offence :=
  ⟨⟨cause, span⟩, false, h⟩

/-- The error reported for an offence: its own, or an unexpected token in place of it. -/
def Shows (o : Offence) (e : ParseError) : Prop :=
  if o.masked then ∃ expected found, e.cause = .unexpected expected found else e = o.error

theorem plain_shows {cause : ParseError.Cause} {span : Span} (h : cause.BreaksRule) :
    (plain cause span h).Shows ⟨cause, span⟩ :=
  rfl

end Offence

/-- The first offence in a list, step by step. -/
theorem findSome?_cons_eq_or {α : Type} (f : α → Option Offence) (a : α) (l : List α) :
    (a :: l).findSome? f = (f a).or (l.findSome? f) := by
  rw [List.findSome?_cons]
  cases f a <;> rfl

/-- Lists with the same offences one by one have the same first offence. -/
theorem findSome?_eq_of_map_eq {α : Type} {f : α → Context → Option Offence} {l l' : List α}
    (h : l'.map f = l.map f) (ctx : Context) :
    l'.findSome? (f · ctx) = l.findSome? (f · ctx) := by
  have := congrArg (List.findSome? fun offence => offence ctx) h
  rwa [List.findSome?_map, List.findSome?_map] at this

/-! ## Expressions -/

namespace ExprForm

mutual

/-- The first offence of an expression. -/
def offence (ctx : Context) : ExprForm → Option Offence
  | .int m s => if m.toNat ≤ 2147483647 then none else some (.plain .integerOutOfRange s trivial)
  | .read _ => none
  | .call x s args span =>
    match (ctx.declared.find? (·.name == x)).map Signature.arity with
    | none => some (.plain (.undefinedFunction (ctx.names.text x)) s trivial)
    | some arity => (offences ctx args).or
        (if args.length = arity then none
        else some (.plain (.arity ⟨ctx.names.text x, arity, args.length⟩) span trivial))
  | .var _ _ => none
  | .paren e => offence ctx e
  | .neg e _ => if e.isLeast then none else offence ctx e
  | .arith _ l r => (offence ctx l).or (offence ctx r)

def offences (ctx : Context) : List ExprForm → Option Offence
  | [] => none
  | e :: es => (offence ctx e).or (offences ctx es)

end

variable {ctx : Context}

mutual

theorem offence_eq_none_iff : ∀ e : ExprForm, e.offence ctx = none ↔ e.Admissible ctx.declared
  | .int m s => by by_cases h : m.toNat ≤ 2147483647 <;> simp [offence, Admissible, h]
  | .read _ => by simp [offence, Admissible]
  | .call x s args span => by
    rw [offence, Admissible, Signature.Declares, ← offences_eq_none_iff args]
    cases (ctx.declared.find? (·.name == x)).map Signature.arity with
    | none => simp
    | some arity => by_cases h : args.length = arity <;> simp [h, eq_comm (a := arity)]
  | .var _ _ => by simp [offence, Admissible]
  | .paren e => offence_eq_none_iff e
  | .neg e _ => by by_cases h : e.isLeast <;> simp [offence, Admissible, h, offence_eq_none_iff e]
  | .arith _ l r => by
    simp [offence, Admissible, offence_eq_none_iff l, offence_eq_none_iff r]

theorem offences_eq_none_iff :
    ∀ es : List ExprForm, offences ctx es = none ↔ AdmissibleAll ctx.declared es
  | [] => by simp [offences, AdmissibleAll]
  | e :: es => by
    simp [offences, AdmissibleAll, offence_eq_none_iff e, offences_eq_none_iff es]

end

theorem offences_eq_findSome? (es : List ExprForm) :
    offences ctx es = es.findSome? (offence ctx) := by
  induction es with
  | nil => rfl
  | cons e es ih => rw [offences, ih, findSome?_cons_eq_or]

end ExprForm

/-! ## Predicates -/

namespace PredForm

/-- The expression that a predicate starts with, parentheses apart. -/
def lead : PredForm → Option ExprForm
  | .lit _ _ => none
  | .paren p => lead p
  | .rel _ l _ => some l
  | .not _ _ => none
  | .logic _ l _ => lead l

/-- The first offence of a predicate. Parentheses mask it, unless it is in the leading
expression. -/
def offence (ctx : Context) : PredForm → Option Offence
  | .lit _ _ => none
  | .paren p => (offence ctx p).map fun o =>
      { o with masked := o.masked || (p.lead.bind (·.offence ctx)).isNone }
  | .rel _ l r => (l.offence ctx).or (r.offence ctx)
  | .not p _ => offence ctx p
  | .logic _ l r => (offence ctx l).or (offence ctx r)

variable {ctx : Context}

theorem offence_eq_none_iff (p : PredForm) :
    p.offence ctx = none ↔ p.Admissible ctx.declared := by
  induction p with
  | lit _ _ => simp [offence, Admissible]
  | paren p ih => rw [offence, Option.map_eq_none_iff, ih, Admissible]
  | rel _ l r => simp [offence, Admissible, ExprForm.offence_eq_none_iff]
  | not p _ ih => exact ih
  | logic _ l r ihl ihr => simp [offence, Admissible, ihl, ihr]

/-- An offence of the leading expression is the first one of the predicate. -/
theorem offence_eq_of_lead {p : PredForm} {o : Offence}
    (h : p.lead.bind (·.offence ctx) = some o) : p.offence ctx = some o := by
  induction p with
  | lit _ _ | not _ _ _ => simp [lead] at h
  | paren p ih =>
    have h : p.lead.bind (·.offence ctx) = some o := h
    rw [offence, ih h, h]
    simp
  | rel _ l r =>
    have h : l.offence ctx = some o := h
    rw [offence, h, Option.some_or]
  | logic _ l r ih _ =>
    have h : l.lead.bind (·.offence ctx) = some o := h
    rw [offence, ih h, Option.some_or]

theorem lead_chain (p : PredForm) (rest : List (LogicOp × PredForm)) :
    (chain p rest).lead = p.lead := by
  induction rest generalizing p with
  | nil => rfl
  | cons x rest ih => exact ih _

end PredForm

/-! ## Commands -/

/-- A label has an offence if it is no value. -/
def CaseLabel.offence (label : CaseLabel) : Option Offence :=
  if -2147483648 ≤ label.number ∧ label.number ≤ 2147483647 then none
  else some (.plain .integerOutOfRange label.span trivial)

theorem CaseLabel.offence_eq_none_iff (label : CaseLabel) :
    label.offence = none ↔ label.Admissible := by
  simp [offence, Admissible]

/-- A literal without a sign is like a label. -/
theorem ExprForm.offence_int {ctx : Context} (m : UInt32) (s : Span) :
    (ExprForm.int m s).offence ctx = CaseLabel.offence ⟨false, m, s⟩ := by
  have hn : CaseLabel.number ⟨false, m, s⟩ = m.toNat := rfl
  rw [ExprForm.offence, CaseLabel.offence, hn]
  by_cases h : m.toNat ≤ 2147483647
  · rw [if_pos h, if_pos (by omega)]
  · rw [if_neg h, if_neg (by omega)]

namespace CommandForm

mutual

/-- The first offence of a command. -/
def offence (ctx : Context) : CommandForm → Option Offence
  | .skip _ => none
  | .assign _ e _ => e.offence ctx
  | .block body _ => offences ctx body
  | .cond test body others last _ => (test.offence ctx).or <| (offence ctx body).or <|
      (branchOffences ctx others).or (offence ctx last)
  | .condOnly test body others _ _ => (test.offence ctx).or <| (offence ctx body).or <|
      branchOffences ctx others
  | .loop test body _ => (test.offence ctx).or (offence ctx body)
  | .count _ start stop step body _ => (start.offence ctx).or <| (stop.offence ctx).or <|
      (step.offence ctx).or (offence ctx body)
  | .countOnes _ start stop _ body _ => (start.offence ctx).or <| (stop.offence ctx).or <|
      offence ctx body
  | .switch selector cases default _ => (selector.offence ctx).or <|
      (caseOffences ctx cases).or (offence ctx default)
  | .printInt e _ => e.offence ctx
  | .printText _ _ => none

def offences (ctx : Context) : List CommandForm → Option Offence
  | [] => none
  | c :: cs => (offence ctx c).or (offences ctx cs)

def branchOffences (ctx : Context) : List (PredForm × CommandForm) → Option Offence
  | [] => none
  | (test, body) :: rest =>
    ((test.offence ctx).or (offence ctx body)).or (branchOffences ctx rest)

def caseOffences (ctx : Context) : List (CaseLabel × CommandForm) → Option Offence
  | [] => none
  | (label, body) :: rest => (label.offence.or (offence ctx body)).or (caseOffences ctx rest)

end

variable {ctx : Context}

mutual

theorem offence_eq_none_iff :
    ∀ c : CommandForm, c.offence ctx = none ↔ c.Admissible ctx.declared
  | .skip _ | .printText _ _ => by simp [offence, Admissible]
  | .assign _ e _ | .printInt e _ => e.offence_eq_none_iff
  | .block body _ => offences_eq_none_iff body
  | .cond test body others last _ => by
    simp [offence, Admissible, test.offence_eq_none_iff, offence_eq_none_iff body,
      branchOffences_eq_none_iff others, offence_eq_none_iff last]
  | .condOnly test body others _ _ => by
    simp [offence, Admissible, test.offence_eq_none_iff, offence_eq_none_iff body,
      branchOffences_eq_none_iff others]
  | .loop test body _ => by
    simp [offence, Admissible, test.offence_eq_none_iff, offence_eq_none_iff body]
  | .count _ start stop step body _ => by
    simp [offence, Admissible, ExprForm.offence_eq_none_iff, offence_eq_none_iff body]
  | .countOnes _ start stop _ body _ => by
    simp [offence, Admissible, ExprForm.offence_eq_none_iff, offence_eq_none_iff body]
  | .switch selector cases default _ => by
    simp [offence, Admissible, ExprForm.offence_eq_none_iff, caseOffences_eq_none_iff cases,
      offence_eq_none_iff default]

theorem offences_eq_none_iff :
    ∀ cs : List CommandForm, offences ctx cs = none ↔ AdmissibleAll ctx.declared cs
  | [] => by simp [offences, AdmissibleAll]
  | c :: cs => by
    simp [offences, AdmissibleAll, offence_eq_none_iff c, offences_eq_none_iff cs]

theorem branchOffences_eq_none_iff : ∀ bs : List (PredForm × CommandForm),
    branchOffences ctx bs = none ↔ AdmissibleBranches ctx.declared bs
  | [] => by simp [branchOffences, AdmissibleBranches]
  | (test, body) :: rest => by
    simp [branchOffences, AdmissibleBranches, test.offence_eq_none_iff, offence_eq_none_iff body,
      branchOffences_eq_none_iff rest]

theorem caseOffences_eq_none_iff : ∀ cs : List (CaseLabel × CommandForm),
    caseOffences ctx cs = none ↔ AdmissibleCases ctx.declared cs
  | [] => by simp [caseOffences, AdmissibleCases]
  | (label, body) :: rest => by
    simp [caseOffences, AdmissibleCases, label.offence_eq_none_iff, offence_eq_none_iff body,
      caseOffences_eq_none_iff rest]

end

theorem offences_eq_findSome? (cs : List CommandForm) :
    offences ctx cs = cs.findSome? (offence ctx) := by
  induction cs with
  | nil => rfl
  | cons c cs ih => rw [offences, ih, findSome?_cons_eq_or]

theorem branchOffences_eq_findSome? (bs : List (PredForm × CommandForm)) :
    branchOffences ctx bs = bs.findSome? fun b => (b.1.offence ctx).or (b.2.offence ctx) := by
  induction bs with
  | nil => rfl
  | cons b bs ih => rw [branchOffences, ih, findSome?_cons_eq_or]

theorem caseOffences_eq_findSome? (cs : List (CaseLabel × CommandForm)) :
    caseOffences ctx cs = cs.findSome? fun c => c.1.offence.or (c.2.offence ctx) := by
  induction cs with
  | nil => rfl
  | cons c cs ih => rw [caseOffences, ih, findSome?_cons_eq_or]

end CommandForm

/-! ## Programs -/

namespace InstructionForm

/-- The context after an instruction. -/
def after (ctx : Context) (i : InstructionForm) : Context :=
  { ctx with declared := i.declares ctx.declared }

/-- The first offence of an instruction: a function may call itself. -/
def offence (ctx : Context) : InstructionForm → Option Offence
  | .command c => c.offence ctx
  | .declare x params body _ => body.offence (ctx.declare ⟨x, params.length⟩)

theorem offence_eq_none_iff {ctx : Context} (i : InstructionForm) :
    i.offence ctx = none ↔ i.Admissible ctx.declared := by
  cases i with
  | command c => exact c.offence_eq_none_iff
  | declare x params body _ => exact body.offence_eq_none_iff

end InstructionForm

/-- The first offence of a program: a declaration counts for all that follows. -/
def ProgramForm.offence (ctx : Context) : ProgramForm → Option Offence
  | [] => none
  | i :: rest => (i.offence ctx).or (ProgramForm.offence (i.after ctx) rest)

theorem ProgramForm.offence_eq_none_iff {ctx : Context} (program : ProgramForm) :
    ProgramForm.offence ctx program = none ↔ ProgramForm.Admissible ctx.declared program := by
  induction program generalizing ctx with
  | nil => simp [offence, Admissible]
  | cons i rest ih => simp [offence, Admissible, i.offence_eq_none_iff, ih, InstructionForm.after]

end Enquanto

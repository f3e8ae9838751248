import Enquanto.Proofs.Frames
import Mathlib.Logic.Relation

/-!
# Which functions a program reaches

A call leads to a function that was declared before it, or to the function whose body it stands in.
So the functions that are called inside each other have falling numbers, but for one that calls
itself.

* `Program.Reaches`, `Expr.Reaches` and `Pred.Reaches`: the functions that are called, directly or
  through the bodies of other functions;
* `Program.parse_descends`: the body of a function of a program that was read calls no later one;
* `Evaluates.effects` and `Decides.effects`: evaluation stores parameters of functions that are
  reached, and nothing else;
* `Evaluates.getLocal?_eq`: so it leaves the frames of functions that it does not reach as they are.
-/

namespace Enquanto

/-! ## Calls -/

namespace Expr

mutual

/-- The functions that an expression calls itself. -/
def callees : Expr → List FunctionId
  | .int _ _ | .var _ _ | .read _ => []
  | .neg operand _ => operand.callees
  | .arith _ left right _ => left.callees ++ right.callees
  | .call function args _ => function :: calleesAll args

def calleesAll : List Expr → List FunctionId
  | [] => []
  | e :: es => e.callees ++ calleesAll es

end

theorem mem_calleesAll {f : FunctionId} {es : List Expr} :
    f ∈ calleesAll es ↔ ∃ e ∈ es, f ∈ e.callees := by
  induction es with
  | nil => simp [calleesAll]
  | cons e es ih => simp [calleesAll, ih]

mutual

/-- A function that is called is called by one of the subtrees. -/
theorem exists_call_of_mem_callees (scope : ScopeId) {f : FunctionId} : ∀ {e : Expr},
    f ∈ e.callees → ∃ args span, (scope, Expr.call f args span) ∈ (e.flat scope).exprs
  | .int _ _, h | .var _ _, h | .read _, h => nomatch h
  | .neg e span, h => by
    obtain ⟨args, s, hm⟩ := exists_call_of_mem_callees scope (e := e) h
    exact ⟨args, s, List.mem_append_left _ hm⟩
  | .arith op l r span, h => by
    rcases List.mem_append.mp h with h | h
    · obtain ⟨args, s, hm⟩ := exists_call_of_mem_callees scope h
      exact ⟨args, s, List.mem_append_left _ (List.mem_append_left _ hm)⟩
    · obtain ⟨args, s, hm⟩ := exists_call_of_mem_callees scope h
      exact ⟨args, s, List.mem_append_left _ (List.mem_append_right _ hm)⟩
  | .call g args span, h => by
    rcases List.mem_cons.mp h with rfl | h
    · exact ⟨args, span, List.mem_append_right _ (List.mem_singleton.mpr rfl)⟩
    · obtain ⟨args', s, hm⟩ := exists_call_of_mem_calleesAll scope h
      exact ⟨args', s, List.mem_append_left _ hm⟩

theorem exists_call_of_mem_calleesAll (scope : ScopeId) {f : FunctionId} : ∀ {es : List Expr},
    f ∈ calleesAll es → ∃ args span, (scope, Expr.call f args span) ∈ (flatAll scope es).exprs
  | [], h => nomatch h
  | e :: es, h => by
    rcases List.mem_append.mp h with h | h
    · obtain ⟨args, s, hm⟩ := exists_call_of_mem_callees scope h
      exact ⟨args, s, List.mem_append_left _ hm⟩
    · obtain ⟨args, s, hm⟩ := exists_call_of_mem_calleesAll scope h
      exact ⟨args, s, List.mem_append_right _ hm⟩

end

end Expr

/-- The functions that a predicate calls itself. -/
def Pred.callees : Pred → List FunctionId
  | .lit _ _ => []
  | .not operand _ => operand.callees
  | .logic _ left right _ => left.callees ++ right.callees
  | .rel _ left right _ => left.callees ++ right.callees

/-! ## Reachable functions -/

/-- The body of the first function calls the second. -/
def Program.Calls (program : Program) (f g : FunctionId) : Prop :=
  ∃ d, program.declarations[f.index]? = some d ∧ g ∈ d.body.callees

/-- The first function is the second, or calls it, directly or through other functions' bodies. -/
def Program.Reaches (program : Program) : FunctionId → FunctionId → Prop :=
  Relation.ReflTransGen program.Calls

/-- The expression contains a call that reaches the function. -/
def Expr.Reaches (program : Program) (e : Expr) (g : FunctionId) : Prop :=
  ∃ f ∈ e.callees, program.Reaches f g

namespace Expr

variable {program : Program} {g : FunctionId}

@[simp] theorem reaches_neg {e : Expr} {span : Span} :
    (Expr.neg e span).Reaches program g ↔ e.Reaches program g := Iff.rfl

@[simp] theorem reaches_arith {op : ArithOp} {l r : Expr} {span : Span} :
    (Expr.arith op l r span).Reaches program g ↔ l.Reaches program g ∨ r.Reaches program g := by
  simp only [Reaches, callees, List.mem_append, or_and_right, exists_or]

@[simp] theorem reaches_call {f : FunctionId} {args : List Expr} {span : Span} :
    (Expr.call f args span).Reaches program g ↔
      program.Reaches f g ∨ ∃ arg ∈ args, arg.Reaches program g := by
  simp only [Reaches, callees, List.mem_cons, mem_calleesAll]
  constructor
  · rintro ⟨h, rfl | ⟨arg, harg, hh⟩, hr⟩
    · exact .inl hr
    · exact .inr ⟨arg, harg, h, hh, hr⟩
  · rintro (hr | ⟨arg, harg, h, hh, hr⟩)
    · exact ⟨f, .inl rfl, hr⟩
    · exact ⟨h, .inr ⟨arg, harg, hh⟩, hr⟩

theorem forall_reaches_arith {op : ArithOp} {l r : Expr} {span : Span} {P : FunctionId → Prop} :
    (∀ g, (Expr.arith op l r span).Reaches program g → P g) ↔
      (∀ g, l.Reaches program g → P g) ∧ ∀ g, r.Reaches program g → P g := by
  simp only [reaches_arith, or_imp, forall_and]

theorem forall_reaches_call {f : FunctionId} {args : List Expr} {span : Span}
    {P : FunctionId → Prop} : (∀ g, (Expr.call f args span).Reaches program g → P g) ↔
      (∀ g, program.Reaches f g → P g) ∧ ∀ arg ∈ args, ∀ g, arg.Reaches program g → P g := by
  simp only [reaches_call, or_imp, forall_and]
  refine and_congr_right fun _ => ⟨fun h arg harg g hg => h g ⟨arg, harg, hg⟩, ?_⟩
  rintro h g ⟨arg, harg, hg⟩
  exact h arg harg g hg

/-- What a body reaches its function reaches. -/
theorem Reaches.of_body {f : FunctionId} {d : Declaration}
    (hd : program.declarations[f.index]? = some d) (h : d.body.Reaches program g) :
    program.Reaches f g := by
  obtain ⟨h, hh, hr⟩ := h
  exact .head ⟨d, hd, hh⟩ hr

end Expr

/-- The predicate contains a call that reaches the function. -/
def Pred.Reaches (program : Program) (p : Pred) (g : FunctionId) : Prop :=
  ∃ f ∈ p.callees, program.Reaches f g

namespace Pred

variable {program : Program} {g : FunctionId} {span : Span}

@[simp] theorem not_reaches_lit {value : Bool} : ¬ (Pred.lit value span).Reaches program g := by
  rintro ⟨f, hf, -⟩
  cases hf

@[simp] theorem reaches_not {p : Pred} :
    (Pred.not p span).Reaches program g ↔ p.Reaches program g := Iff.rfl

@[simp] theorem reaches_logic {op : LogicOp} {l r : Pred} :
    (Pred.logic op l r span).Reaches program g ↔ l.Reaches program g ∨ r.Reaches program g := by
  simp only [Reaches, callees, List.mem_append, or_and_right, exists_or]

@[simp] theorem reaches_rel {op : RelOp} {l r : Expr} :
    (Pred.rel op l r span).Reaches program g ↔ l.Reaches program g ∨ r.Reaches program g := by
  simp only [Reaches, Expr.Reaches, callees, List.mem_append, or_and_right, exists_or]

end Pred

/-! ## Falling numbers -/

/-- The body of a function calls no function that is declared later. -/
def Program.Descends (program : Program) : Prop :=
  ∀ (i : Nat) (d : Declaration), program.declarations[i]? = some d →
    ∀ g ∈ d.body.callees, g.index ≤ i

theorem Signature.Resolves.lt {declared : List Signature} {f : FunctionId} {n : Nat}
    (h : Resolves declared f n) : f.index < declared.length := by
  obtain ⟨s, hs, -⟩ := Option.map_eq_some_iff.mp h
  have hi := (List.getElem?_eq_some_iff.mp hs).1
  rwa [List.length_reverse] at hi

/-- A body calls functions that are in force where it stands. -/
theorem ExprForm.lt_of_mem_callees {declared : List Signature} {form : ExprForm}
    (h : form.Admissible declared) {g : FunctionId} (hg : g ∈ (form.tree declared).callees) :
    g.index < declared.length := by
  obtain ⟨args, span, hm⟩ := Expr.exists_call_of_mem_callees .root hg
  exact (form.resolved_tree .root h _ _ _ _ hm).lt

namespace Program

theorem descends_tree : ∀ (form : ProgramForm) (declared : List Signature) (i : Nat)
    (d : Declaration), form.Admissible declared →
    (form.tree declared).declarations[i]? = some d →
    ∀ g ∈ d.body.callees, g.index ≤ declared.length + i
  | [], _, _, _, _, hd => by simp [ProgramForm.tree, declarations] at hd
  | .command c :: rest, declared, i, d, ⟨_, hs⟩, hd => descends_tree rest declared i d hs hd
  | .declare x params body span :: rest, declared, 0, d, ⟨h, _⟩, hd => by
    cases hd
    intro g hg
    exact Nat.le_of_lt_succ (ExprForm.lt_of_mem_callees h hg)
  | .declare x params body span :: rest, declared, i + 1, d, ⟨_, hs⟩, hd => by
    intro g hg
    have hle := descends_tree rest (⟨x, params.length⟩ :: declared) i d hs hd g hg
    rw [List.length_cons] at hle
    omega

theorem parse_descends {names : Names} {tokens : List (Token Name)} {program : Program}
    (h : parse names tokens = .ok program) : program.Descends := by
  intro i d hd g hg
  rcases parse_eq_ok_iff.mp h with ⟨-, rfl⟩ | ⟨form, -, hadm, -, rfl⟩
  · simp [declarations] at hd
  · have hle := descends_tree form [] i d hadm hd g hg
    simpa using hle

variable {program : Program}

/-- A function reaches itself and earlier ones only. -/
theorem Reaches.le (hp : program.Descends) {f g : FunctionId} (h : program.Reaches f g) :
    g.index ≤ f.index := by
  induction h with
  | refl => exact Nat.le_refl _
  | tail _ hc ih =>
    obtain ⟨d, hd, hg⟩ := hc
    exact Nat.le_trans (hp _ d hd _ hg) ih

end Program

/-! ## What evaluation changes -/

/-- All that evaluation does to a state is in the relation: it reads the input, and it stores
parameters of functions with `reached` in their frames. -/
structure Program.Effects (program : Program) (reached : FunctionId → Prop)
    (rel : State → State → Prop) : Prop where
  refl : ∀ s, rel s s
  trans : ∀ {s₁ s₂ s₃}, rel s₁ s₂ → rel s₂ s₃ → rel s₁ s₃
  read : ∀ s input, rel s (s.withInput input)
  store : ∀ {g d p} s value, program.declarations[g.index]? = some d → p ∈ d.params → reached g →
    rel s (s.store g.scope p value)

theorem forall_mem_zip {params : List Name} {args : List Expr} {p : Expr → Prop}
    (h : ∀ arg ∈ args, p arg) : ∀ q ∈ params.zip args, p q.2 :=
  fun _ hq => h _ (List.of_mem_zip hq).2

section
variable {w : Setting} {reached : FunctionId → Prop} {rel : State → State → Prop}

/-- The arguments of a call are stored for the parameters of its function. -/
theorem Program.Effects.store_zip (hr : w.program.Effects reached rel) {f : FunctionId}
    {d : Declaration} (hd : w.program.declarations[f.index]? = some d) (hf : reached f)
    {args : List Expr} : ∀ q ∈ d.params.zip args, ∀ s value, rel s (s.store f.scope q.1 value) :=
  fun _ hq s value => hr.store s value hd (List.of_mem_zip hq).1 hf

mutual

/-- Evaluating an expression does nothing else, if all functions that it reaches have
`reached`. -/
theorem Evaluates.effects (hr : w.program.Effects reached rel) : ∀ {depth : Nat}
    {scope : ScopeId} {e : Expr} {s s' : State} {result : Except Fault Int32},
    Evaluates w depth scope e s result s' → (∀ g, e.Reaches w.program g → reached g) → rel s s'
  | _, _, _, _, _, _, .int, _ | _, _, _, _, _, _, .var, _ => hr.refl _
  | _, _, _, _, _, _, .read _, _ | _, _, _, _, _, _, .read_fault _, _ => hr.read _ _
  | _, _, _, _, _, _, .neg h, hg | _, _, _, _, _, _, .neg_fault h, hg => h.effects hr hg
  | _, _, _, _, _, _, .arith hl hr' _, hg => by
    obtain ⟨hgl, hgr⟩ := Expr.forall_reaches_arith.mp hg
    exact hr.trans (hl.effects hr hgl) (hr'.effects hr hgr)
  | _, _, _, _, _, _, .arith_undefined hl hr' _, hg => by
    obtain ⟨hgl, hgr⟩ := Expr.forall_reaches_arith.mp hg
    exact hr.trans (hl.effects hr hgl) (hr'.effects hr hgr)
  | _, _, _, _, _, _, .arith_left hl, hg =>
    hl.effects hr (Expr.forall_reaches_arith.mp hg).1
  | _, _, _, _, _, _, .arith_right hl hr', hg => by
    obtain ⟨hgl, hgr⟩ := Expr.forall_reaches_arith.mp hg
    exact hr.trans (hl.effects hr hgl) (hr'.effects hr hgr)
  | _, _, _, _, _, _, .call hd _ hargs _ hbody, hg => by
    obtain ⟨hgf, hga⟩ := Expr.forall_reaches_call.mp hg
    exact hr.trans (hargs.effects hr (hr.store_zip hd (hgf _ .refl)) (forall_mem_zip hga))
      (hbody.effects hr fun g h => hgf g (h.of_body hd))
  | _, _, _, _, _, _, .call_limit hd _ hargs _, hg => by
    obtain ⟨hgf, hga⟩ := Expr.forall_reaches_call.mp hg
    exact hargs.effects hr (hr.store_zip hd (hgf _ .refl)) (forall_mem_zip hga)
  | _, _, _, _, _, _, .call_args hd _ hargs, hg => by
    obtain ⟨hgf, hga⟩ := Expr.forall_reaches_call.mp hg
    exact hargs.effects hr (hr.store_zip hd (hgf _ .refl)) (forall_mem_zip hga)

theorem Binds.effects (hr : w.program.Effects reached rel) : ∀ {depth : Nat}
    {scope callee : ScopeId} {args : List (Name × Expr)} {s s' : State}
    {result : Except Fault Unit}, Binds w depth scope callee args s result s' →
    (∀ q ∈ args, ∀ s value, rel s (s.store callee q.1 value)) →
    (∀ q ∈ args, ∀ g, q.2.Reaches w.program g → reached g) → rel s s'
  | _, _, _, _, _, _, _, .nil, _, _ => hr.refl _
  | _, _, _, _, _, _, _, .cons h hrest, hs, hg => by
    obtain ⟨hsarg, hsrest⟩ := List.forall_mem_cons.mp hs
    obtain ⟨hgarg, hgrest⟩ := List.forall_mem_cons.mp hg
    exact hr.trans (h.effects hr hgarg) (hr.trans (hsarg _ _) (hrest.effects hr hsrest hgrest))
  | _, _, _, _, _, _, _, .fault h, _, hg => h.effects hr (List.forall_mem_cons.mp hg).1

end

theorem Decides.effects (hr : w.program.Effects reached rel) {scope : ScopeId} {p : Pred}
    {s s' : State} {result : Except Fault Bool} (h : Decides w scope p s result s')
    (hg : ∀ g, p.Reaches w.program g → reached g) : rel s s' := by
  induction h with
  | lit => exact hr.refl _
  | not _ ih | not_fault _ ih => exact ih hg
  | logic _ _ ihl ihr | logic_right _ _ ihl ihr =>
    simp only [Pred.reaches_logic, or_imp, forall_and] at hg
    exact hr.trans (ihl hg.1) (ihr hg.2)
  | logic_left _ ihl =>
    simp only [Pred.reaches_logic, or_imp, forall_and] at hg
    exact ihl hg.1
  | rel hl hr' | rel_right hl hr' =>
    simp only [Pred.reaches_rel, or_imp, forall_and] at hg
    exact hr.trans (hl.effects hr hg.1) (hr'.effects hr hg.2)
  | rel_left hl =>
    simp only [Pred.reaches_rel, or_imp, forall_and] at hg
    exact hl.effects hr hg.1

end

/-! ## Frames that are left alone -/

/-- A store in another frame, or in none, leaves the frame of a function alone. -/
theorem Environment.getLocal?_store_of_scope_ne {env : Environment} {scope : ScopeId}
    {g : FunctionId} {name x : Name} {value : Int32} (h : scope ≠ g.scope) :
    (env.store scope name value).getLocal? g.scope x = env.getLocal? g.scope x := by
  refine getLocal?_store_of_ne fun hc => ?_
  have hs := hc.1
  unfold clamp at hs
  split at hs
  · exact h hs.symm
  · exact g.scope_ne_root hs

/-- Evaluating an expression leaves the frame of a function that it does not reach alone. -/
theorem Evaluates.getLocal?_eq {w : Setting} {g : FunctionId} {x : Name} {depth : Nat}
    {scope : ScopeId} {e : Expr} {s s' : State} {result : Except Fault Int32}
    (h : Evaluates w depth scope e s result s') (hg : ¬ e.Reaches w.program g) :
    s'.env.getLocal? g.scope x = s.env.getLocal? g.scope x := by
  have heffects : w.program.Effects (· ≠ g)
      fun s s' => s'.env.getLocal? g.scope x = s.env.getLocal? g.scope x :=
    { refl := fun _ => rfl
      trans := fun h₁ h₂ => h₂.trans h₁
      read := fun _ _ => rfl
      store := fun _ _ _ _ hne =>
        Environment.getLocal?_store_of_scope_ne fun he => hne (FunctionId.scope_injective he) }
  refine h.effects heffects fun g' hg' => ?_
  rintro rfl
  exact hg hg'

end Enquanto

import Enquanto.Proofs.Agreement
import Enquanto.Proofs.CommandSimulation

/-!
# Two runs of one machine

A machine looks at its state in two ways: it looks a variable up, and it reads the input. So two
runs from states in which it sees the same take the same steps, and agree.

What a body sees of the frame of its function is settled by the call that leads there: every
parameter is stored before the body is evaluated. Hence the states that are compared need to have in
common only what has been stored since, and a comparison has a set of bound parameters that grows
while arguments are bound.

* `Machine.Compares`: what has to be shown of single steps;
* `Machine.Compares.evalExpr_agree` and `Machine.Compares.agree`: what follows for runs.
-/

namespace Enquanto

open Run

/-- The variables of given names in a scope. -/
def boundBy (scope : ScopeId) (names : List Name) : Set (ScopeId × Name) :=
  {q | q.1 = scope ∧ q.2 ∈ names}

namespace Machine

/-- An expression of the scope is evaluated only now that all parameters of the scope are bound. -/
inductive Sees (m : Machine) (bound : Set (ScopeId × Name)) : ScopeId → Prop
  | root : Sees m bound .root
  | function {id : FunctionId} {f : Function} : m.module.functions.get? id = some f →
    boundBy f.scope f.params ⊆ bound → Sees m bound f.scope

theorem Sees.mono {m : Machine} {bound bound' : Set (ScopeId × Name)} {scope : ScopeId}
    (h : m.Sees bound scope) (hb : bound ⊆ bound') : m.Sees bound' scope := by
  cases h with
  | root => exact .root
  | function hf hp => exact .function hf (hp.trans hb)

/-- No step of the machine breaks the relation, and none tells two related states apart. The
relation may ask more of states the more parameters are bound. -/
structure Compares (m : Machine) (rel : Set (ScopeId × Name) → State → State → Prop) : Prop where
  anti : ∀ {bound bound' s t}, bound ⊆ bound' → rel bound' s t → rel bound s t
  lookup_root : ∀ {bound s t} (x : Name), rel bound s t →
    s.env.lookup .root x = t.env.lookup .root x
  /-- A body is evaluated with all parameters bound. -/
  lookup_local : ∀ {bound s t id f i x span}, m.module.functions.get? id = some f →
    boundBy f.scope f.params ⊆ bound → m.module.arena.expr? i = some ⟨.var x f.scope, span⟩ →
    rel bound s t → s.env.lookup f.scope x = t.env.lookup f.scope x
  store_root : ∀ {bound s t} (x : Name) (v : Int32), rel bound s t →
    rel bound (s.store .root x v) (t.store .root x v)
  store_param : ∀ {bound s t id f p} (v : Int32), m.module.functions.get? id = some f →
    p ∈ f.params → rel bound s t →
    rel (insert (f.scope, p) bound) (s.store f.scope p v) (t.store f.scope p v)
  print : ∀ {bound s t} (line : String), rel bound s t → rel bound (s.print line) (t.print line)
  input_eq : ∀ {bound s t}, rel bound s t → s.input = t.input
  read : ∀ {bound s t} (input : Input), rel bound s t →
    rel bound (s.withInput input) (t.withInput input)

namespace Compares

variable {m : Machine} {rel : Set (ScopeId × Name) → State → State → Prop}
  {bound : Set (ScopeId × Name)} {s t : State}

theorem forget (h : m.Compares rel) (hr : rel bound s t) : rel ∅ s t :=
  h.anti (Set.empty_subset _) hr

theorem lookup (h : m.Compares rel) {scope : ScopeId} {i : ExprId} {x : Name} {span : Span}
    (hs : m.Sees bound scope) (hi : m.module.arena.expr? i = some ⟨.var x scope, span⟩)
    (hr : rel bound s t) : s.env.lookup scope x = t.env.lookup scope x := by
  cases hs with
  | root => exact h.lookup_root x hr
  | function hf hp => exact h.lookup_local hf hp hi hr

/-! ## Expressions -/

/-- With this fuel, the values of expressions agree. -/
def EvalAgree (m : Machine) (rel : Set (ScopeId × Name) → State → State → Prop)
    (fuel : Nat) : Prop :=
  ∀ (bound : Set (ScopeId × Name)) (depth : Nat) (scope : ScopeId) (e : Expr) (id : ExprId)
    (s t : State), m.module.arena.HoldsExpr scope e id → m.Sees bound scope → rel bound s t →
    Agree (rel bound) (rel ∅) (m.evalExpr fuel depth id s) (m.evalExpr fuel depth id t)

/-- With this fuel, arguments are bound alike. -/
def BindAgree (m : Machine) (rel : Set (ScopeId × Name) → State → State → Prop)
    (fuel : Nat) : Prop :=
  ∀ (bound : Set (ScopeId × Name)) (depth : Nat) (scope : ScopeId) (function : FunctionId)
    (f : Function) (args : List (Name × Expr)) (ids : List (Name × ExprId)) (s t : State),
    m.module.functions.get? function = some f → m.module.arena.HoldsArgs scope args ids →
    (∀ p ∈ ids.map Prod.fst, p ∈ f.params) → m.Sees bound scope → rel bound s t →
    Agree (rel (bound ∪ boundBy f.scope (ids.map Prod.fst))) (rel ∅)
      (m.bindArgs fuel depth f.scope ids s) (m.bindArgs fuel depth f.scope ids t)

/-- With this fuel, the values of calls agree. -/
def CallAgree (m : Machine) (rel : Set (ScopeId × Name) → State → State → Prop)
    (fuel : Nat) : Prop :=
  ∀ (bound : Set (ScopeId × Name)) (depth : Nat) (scope : ScopeId) (function : FunctionId)
    (slice : Slice) (args : List Expr) (ids : List ExprId) (s t : State),
    m.module.arena.args? slice = some ids → m.module.arena.HoldsExprs scope args ids →
    m.Sees bound scope → rel bound s t →
    Agree (rel bound) (rel ∅) (m.call fuel depth function slice s)
      (m.call fuel depth function slice t)

variable {fuel : Nat}

theorem bindAgree_succ (h : m.Compares rel) (he : EvalAgree m rel fuel)
    (hb : BindAgree m rel fuel) : BindAgree m rel (fuel + 1) := by
  intro bound depth scope function f args ids s t hf hids hp hsees hr
  match args, ids, hids with
  | [], [], _ =>
    refine agree_pure (h.anti ?_ hr)
    simp [boundBy]
  | (_, arg) :: args, (p, id) :: ids, ⟨⟨rfl, hid⟩, hids⟩ =>
    obtain ⟨hpf, hps⟩ := List.forall_mem_cons.mp hp
    simp only [bindArgs]
    refine (he bound depth scope arg id s t hid hsees hr).bind fun v s₁ t₁ h₁ => ?_
    have h₂ := h.store_param v hf hpf h₁
    have hsees' := hsees.mono (Set.subset_insert (f.scope, p) bound)
    have hrest := hb _ depth scope function f args ids _ _ hf hids hps hsees' h₂
    -- What is bound by now: the old parameters, this one, and the later ones.
    have hsub : bound ∪ boundBy f.scope (p :: ids.map Prod.fst) ⊆
        insert (f.scope, p) bound ∪ boundBy f.scope (ids.map Prod.fst) := by
      rintro ⟨scope', x⟩ (hq | ⟨rfl, hx⟩)
      · exact .inl (.inr hq)
      · rcases List.mem_cons.mp hx with rfl | hx
        · exact .inl (.inl rfl)
        · exact .inr ⟨rfl, hx⟩
    exact hrest.imp (fun _ _ => h.anti hsub) fun _ _ hstop => hstop

theorem callAgree_succ (h : m.Compares rel) {program : Program}
    (hm : m.module.Represents program) (he : EvalAgree m rel fuel) (hb : BindAgree m rel fuel) :
    CallAgree m rel (fuel + 1) := by
  intro bound depth scope function slice args ids s t hs hids hsees hr
  cases hf : m.module.functions.get? function with
  | none =>
    simp only [call, hf]
    exact agree_fault (h.forget hr)
  | some f =>
    obtain ⟨body, e, hbody, hholds⟩ := hm.exists_body hf
    by_cases hn : ids.length = f.arity
    · rw [call_of_arity hf hbody hs hn]
      have hnames : (f.params.zip ids).map Prod.fst = f.params :=
        List.map_fst_zip (Nat.le_of_eq hn.symm)
      have hbind := hb bound depth scope function f _ _ s t hf (hids.zip f.params)
        (fun p hp => hnames ▸ hp) hsees hr
      rw [hnames] at hbind
      refine hbind.bind fun _ s₁ t₁ h₁ => agree_ite (fun _ => ?_) fun _ => ?_
      · have hbodies := he _ (depth + 1) f.scope e body s₁ t₁ hholds
          (.function hf Set.subset_union_right) h₁
        exact hbodies.imp (fun _ _ => h.anti Set.subset_union_left) fun _ _ hstop => hstop
      · exact agree_fault (h.forget h₁)
    · simp only [call, hf, hbody]
      rw [found_bind_of_eq hs, if_pos hn]
      exact agree_fault (h.forget hr)

theorem evalAgree_succ (h : m.Compares rel) (he : EvalAgree m rel fuel)
    (hc : CallAgree m rel fuel) : EvalAgree m rel (fuel + 1) := by
  intro bound depth scope e id s t hid hsees hr
  cases e with
  | int value span =>
    rw [evalExpr_int hid]
    exact agree_pure hr
  | var name span =>
    rw [evalExpr_var hid]
    exact agree_lookup hr (h.lookup hsees hid hr)
  | neg operand span =>
    obtain ⟨i, hn, -, hi⟩ := hid
    rw [evalExpr_neg hn]
    exact (he bound depth scope operand i s t hi hsees hr).bind fun _ _ _ h₁ => agree_pure h₁
  | arith op left right span =>
    obtain ⟨l, r, hn, -, -, hl, hr'⟩ := hid
    rw [evalExpr_arith hn]
    refine (he bound depth scope left l s t hl hsees hr).bind fun x s₁ t₁ h₁ => ?_
    refine (he bound depth scope right r s₁ t₁ hr' hsees h₁).bind fun y s₂ t₂ h₂ => ?_
    cases op.apply x y with
    | some value => exact agree_pure h₂
    | none => exact agree_fault (h.forget h₂)
  | read span =>
    rw [evalExpr_read hid]
    exact agree_readInt (h.input_eq hr) (fun input => h.read input hr)
      fun input => h.forget (h.read input hr)
  | call function args span =>
    obtain ⟨slice, ids, hn, hs, -, hids⟩ := hid
    rw [evalExpr_call hn]
    exact (hc bound depth scope function slice args ids s t hs hids hsees hr).orSpan span

theorem evalAgree (h : m.Compares rel) {program : Program} (hm : m.module.Represents program)
    (fuel : Nat) : EvalAgree m rel fuel ∧ CallAgree m rel fuel ∧ BindAgree m rel fuel := by
  induction fuel with
  | zero =>
    exact ⟨fun _ _ _ _ _ _ _ _ _ hr => agree_throw (h.forget hr),
      fun _ _ _ _ _ _ _ _ _ _ _ _ hr => agree_throw (h.forget hr),
      fun _ _ _ _ _ _ _ _ _ _ _ _ _ hr => agree_throw (h.forget hr)⟩
  | succ fuel ih =>
    obtain ⟨he, hc, hb⟩ := ih
    exact ⟨h.evalAgree_succ he hc, h.callAgree_succ hm he hb, h.bindAgree_succ he hb⟩

/-- Whatever is bound, an expression at the top of a program has agreeing values. -/
theorem evalExpr_agree (h : m.Compares rel) {program : Program}
    (hm : m.module.Represents program) (fuel : Nat) {e : Expr} {id : ExprId}
    (hid : m.module.arena.HoldsExpr .root e id) (hr : rel ∅ s t) :
    Agree (rel ∅) (rel ∅) (m.evalExpr fuel 0 id s) (m.evalExpr fuel 0 id t) :=
  (h.evalAgree hm fuel).1 ∅ 0 .root e id s t hid .root hr

/-! ## Predicates -/

theorem evalPred_agree (h : m.Compares rel) {program : Program}
    (hm : m.module.Represents program) (fuel : Nat) {p : Pred} {id : PredId}
    (hid : m.module.arena.HoldsPred .root p id) (hr : rel ∅ s t) :
    Agree (rel ∅) (rel ∅) (m.evalPred fuel id s) (m.evalPred fuel id t) := by
  induction fuel generalizing p id s t with
  | zero => exact agree_throw hr
  | succ fuel ih =>
    cases p with
    | lit value span =>
      rw [evalPred_lit hid]
      exact agree_pure hr
    | not operand span =>
      obtain ⟨i, hn, -, hi⟩ := hid
      rw [evalPred_not hn]
      exact (ih hi hr).bind fun _ _ _ h₁ => agree_pure h₁
    | logic op left right span =>
      obtain ⟨l, r, hn, -, -, hl, hr'⟩ := hid
      rw [evalPred_logic hn]
      refine (ih hl hr).bind fun x s₁ t₁ h₁ => ?_
      exact (ih hr' h₁).bind fun _ _ _ h₂ => agree_pure h₂
    | rel op left right span =>
      obtain ⟨l, r, hn, hl, hr'⟩ := hid
      rw [evalPred_rel hn]
      refine (h.evalExpr_agree hm fuel hl hr).bind fun x s₁ t₁ h₁ => ?_
      exact (h.evalExpr_agree hm fuel hr' h₁).bind fun _ _ _ h₂ => agree_pure h₂

/-! ## Commands -/

/-- With this fuel, the runs of work at the top of a program agree. -/
def ExecAgree (m : Machine) (rel : Set (ScopeId × Name) → State → State → Prop)
    (fuel : Nat) : Prop :=
  ∀ (work : Work) (run : Nat → Run Unit) (s t : State), m.Implements .root work run →
    rel ∅ s t → Agree (rel ∅) (rel ∅) (run fuel s) (run fuel t)

theorem agree_choice (h : m.Compares rel) {program : Program}
    (hm : m.module.Represents program) (ih : ExecAgree m rel fuel) {bs : List (Pred × Command)}
    {last : Command} {os : List (PredId × CommandId)} {l : CommandId}
    (hos : m.module.arena.HoldsBranches .root bs os)
    (hl : m.module.arena.HoldsCommand .root last l) (hr : rel ∅ s t) :
    Agree (rel ∅) (rel ∅) (m.execFirst (fuel + 1) os l s) (m.execFirst (fuel + 1) os l t) := by
  match bs, os, hos with
  | [], [], _ => exact ih _ _ s t (.command hl) hr
  | _ :: bs, (test, body) :: os, ⟨⟨ht, hb⟩, hos⟩ =>
    rw [execFirst_cons]
    refine (h.evalPred_agree hm fuel ht hr).bind fun x s₁ t₁ h₁ =>
      agree_ite (fun _ => ?_) fun _ => ?_
    · exact ih _ _ s₁ t₁ (.command hb) h₁
    · exact ih _ _ s₁ t₁ (.choice hos hl) h₁

theorem agree_command (h : m.Compares rel) {program : Program}
    (hm : m.module.Represents program) (ih : ExecAgree m rel fuel) {c : Command} {id : CommandId}
    (hid : m.module.arena.HoldsCommand .root c id) (hr : rel ∅ s t) :
    Agree (rel ∅) (rel ∅) (m.exec (fuel + 1) id s) (m.exec (fuel + 1) id t) := by
  cases c with
  | skip span =>
    rw [exec_skip hid]
    exact agree_pure hr
  | assign target value span =>
    obtain ⟨v, hn, hv⟩ := hid
    rw [exec_assign hn]
    refine (h.evalExpr_agree hm fuel hv hr).bind fun x s₁ t₁ h₁ => ?_
    exact .ok (h.store_root target x h₁)
  | block body span =>
    obtain ⟨slice, ids, hn, hs, -, hids⟩ := hid
    rw [exec_block hn hs]
    exact ih _ _ s t (.sequence hids) hr
  | cond test body others last span =>
    obtain ⟨t', b, slice, os, l, hn, hs, -, -, -, ht, hb, hos, hl⟩ := hid
    rw [exec_cond hn hs]
    have hbs : m.module.arena.HoldsBranches .root ((test, body) :: others) ((t', b) :: os) :=
      ⟨⟨ht, hb⟩, hos⟩
    exact h.agree_choice hm ih hbs hl hr
  | loop test body span =>
    obtain ⟨t', b, hn, hlt, ht, hb⟩ := hid
    have hid : m.module.arena.HoldsCommand .root (.loop test body span) id :=
      ⟨t', b, hn, hlt, ht, hb⟩
    rw [exec_loop hn]
    refine (h.evalPred_agree hm fuel ht hr).bind fun x s₁ t₁ h₁ =>
      agree_ite (fun _ => ?_) fun _ => ?_
    · refine (ih _ _ s₁ t₁ (.command hb) h₁).bind fun _ s₂ t₂ h₂ => ?_
      exact ih _ _ s₂ t₂ (.command hid) h₂
    · exact agree_pure h₁
  | count var start stop step body span =>
    obtain ⟨i, j, k, b, hn, -, hi, hj, hk, hb⟩ := hid
    rw [exec_count hn]
    refine (h.evalExpr_agree hm fuel hi hr).bind fun first s₁ t₁ h₁ => ?_
    refine (h.evalExpr_agree hm fuel hj (h.store_root var first h₁)).bind fun bound s₂ t₂ h₂ => ?_
    refine agree_ite (fun _ => ?_) fun _ => agree_pure h₂
    exact ih _ _ s₂ t₂ (.turns hj hk hb) h₂
  | switch selector cases default span =>
    obtain ⟨e, slice, cs, d, hn, hs, -, -, he, hcs, hd⟩ := hid
    rw [exec_switch hn hs]
    refine (h.evalExpr_agree hm fuel he hr).bind fun value s₁ t₁ h₁ => ?_
    rcases exists_first_case cases value with hne | ⟨before, c, after, hc, hne⟩
    · rw [hcs.lookup_eq_none hne]
      exact ih _ _ s₁ t₁ (.command hd) h₁
    · obtain ⟨b, hb, hcb⟩ := (hc ▸ hcs).lookup_eq_some hne
      rw [hb]
      exact ih _ _ s₁ t₁ (.command hcb) h₁
  | printInt value span =>
    obtain ⟨v, hn, hv⟩ := hid
    rw [exec_printInt hn]
    refine (h.evalExpr_agree hm fuel hv hr).bind fun x s₁ t₁ h₁ => ?_
    exact .ok (h.print _ h₁)
  | printText text span =>
    rw [exec_printText hid]
    exact .ok (h.print _ hr)

theorem agree_sequence (ih : ExecAgree m rel fuel) {cs : List Command} {ids : List CommandId}
    (hids : m.module.arena.HoldsCommands .root cs ids) (hr : rel ∅ s t) :
    Agree (rel ∅) (rel ∅) (m.execAll (fuel + 1) ids s) (m.execAll (fuel + 1) ids t) := by
  match cs, ids, hids with
  | [], [], _ => exact agree_pure hr
  | _ :: cs, id :: ids, ⟨hid, hids⟩ =>
    rw [execAll_cons]
    refine (ih _ _ s t (.command hid) hr).bind fun _ s₁ t₁ h₁ => ?_
    exact ih _ _ s₁ t₁ (.sequence hids) h₁

theorem agree_turns (h : m.Compares rel) {program : Program}
    (hm : m.module.Represents program) (ih : ExecAgree m rel fuel) {var : Name}
    {stop step : Expr} {body : Command} {j k : ExprId} {b : CommandId}
    (hj : m.module.arena.HoldsExpr .root stop j) (hk : m.module.arena.HoldsExpr .root step k)
    (hb : m.module.arena.HoldsCommand .root body b) (hr : rel ∅ s t) :
    Agree (rel ∅) (rel ∅) (m.execCount (fuel + 1) var .root j k b s)
      (m.execCount (fuel + 1) var .root j k b t) := by
  rw [execCount_succ]
  refine (ih _ _ s t (.command hb) hr).bind fun _ s₁ t₁ h₁ => ?_
  refine (agree_lookup h₁ (h.lookup_root var h₁)).bind fun current s₁ t₁ h₁ => ?_
  refine (h.evalExpr_agree hm fuel hk h₁).bind fun amount s₂ t₂ h₂ => ?_
  cases advance? current amount with
  | none => exact agree_pure h₂
  | some next =>
    refine (h.evalExpr_agree hm fuel hj h₂).bind fun bound s₃ t₃ h₃ => ?_
    refine agree_ite (fun _ => ?_) fun _ => agree_pure h₃
    exact ih _ _ _ _ (.turns hj hk hb) (h.store_root var next h₃)

theorem execAgree (h : m.Compares rel) {program : Program} (hm : m.module.Represents program)
    (fuel : Nat) : ExecAgree m rel fuel := by
  induction fuel with
  | zero =>
    intro work run s t hi hr
    cases hi <;> exact agree_throw hr
  | succ fuel ih =>
    intro work run s t hi hr
    cases hi with
    | command hid => exact h.agree_command hm ih hid hr
    | sequence hids => exact agree_sequence ih hids hr
    | choice hos hl => exact h.agree_choice hm ih hos hl hr
    | turns hj hk hb => exact h.agree_turns hm ih hj hk hb hr

/-- Related states are related after any work at the top of a program, which ends in the same way
in both. -/
theorem agree (h : m.Compares rel) {program : Program} (hm : m.module.Represents program)
    {work : Work} {run : Nat → Run Unit} (hi : m.Implements .root work run) (fuel : Nat)
    (hr : rel ∅ s t) : Agree (rel ∅) (rel ∅) (run fuel s) (run fuel t) :=
  h.execAgree hm fuel work run s t hi hr

end Compares

end Machine

end Enquanto

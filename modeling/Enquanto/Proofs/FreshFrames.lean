import Enquanto.Proofs.CallGraph
import Enquanto.Proofs.Isolation
import Enquanto.Proofs.Reference
import Mathlib

/-!
# Shared frames as good as fresh ones

The machine has one frame for each function, and stores an argument before it evaluates the next
one. As long as no call is made while another call of the same function is being prepared or is
open, this is the same as a fresh frame for each call.

* `Program.NonReentrant`: no body calls its own function, and no argument behind the first leads to
  another call of the function;
* `Mirrors` and `Environment.Shows`: how the states of the machine and of the reference belong
  together;
* `Module.parse_run_reference`: for such programs the machine gives the answers of the reference.
-/

namespace Enquanto

open Run

/-- No function body calls its own function, and in no call does an argument behind the first
contain a call that reaches the function called. -/
structure Program.NonReentrant (program : Program) : Prop where
  self : ∀ (f : FunctionId) (d : Declaration), program.declarations[f.index]? = some d →
    f ∉ d.body.callees
  args : ∀ (scope : ScopeId) (f : FunctionId) (args : List Expr) (span : Span),
    (scope, Expr.call f args span) ∈ program.flat.exprs →
    ∀ arg ∈ args.tail, ¬ arg.Reaches program f

/-- A body does not reach its own function. -/
theorem Program.NonReentrant.not_reaches_self {program : Program} (h : program.NonReentrant)
    (hp : program.Descends) {f : FunctionId} {d : Declaration}
    (hd : program.declarations[f.index]? = some d) : ¬ d.body.Reaches program f := by
  rintro ⟨g, hg, hr⟩
  have hle : f.index ≤ g.index := hr.le hp
  have hge : g.index ≤ f.index := hp f.index d hd g hg
  have heq : g = f := congrArg TableId.mk (Nat.le_antisymm hge hle)
  exact h.self f d hd (heq ▸ hg)

/-! ## States that belong together -/

/-- The frame of the scope, unless it is the root, holds these variables and no others. -/
def Environment.Shows (env : Environment) (scope : ScopeId) (locals : List (Name × Int32)) : Prop :=
  ∀ x, locals.lookup x = if scope = .root then none else env.getLocal? scope x

/-- The frame of the scope holds at least these variables. -/
def Environment.Holds (env : Environment) (scope : ScopeId) (bindings : List (Name × Int32)) :
    Prop :=
  ∀ x v, bindings.lookup x = some v → env.getLocal? scope x = some v

/-- A state of the machine and one of the reference that look the same from outside. -/
structure Mirrors (m : Module) (s t : State) : Prop where
  surface : s.SameSurface t
  fits : s.env.Fits m
  own : s.env.BindsOwn m
  root : t.env.legacy .root = .root
  pos : 0 < t.env.size

namespace Environment

theorem shows_root (env : Environment) : env.Shows .root [] := by
  intro x
  rw [if_pos rfl]
  rfl

variable {env env' : Environment} {scope : ScopeId} {locals : List (Name × Int32)}

/-- A frame that is left alone shows the same. -/
theorem Shows.of_eq (h : env.Shows scope locals)
    (he : ∀ (k : FunctionId) (x : Name), scope = k.scope →
      env'.getLocal? k.scope x = env.getLocal? k.scope x) : env'.Shows scope locals := by
  intro x
  rw [h x]
  by_cases hs : scope = .root
  · rw [if_pos hs, if_pos hs]
  · rw [if_neg hs, if_neg hs]
    have hi : scope.index ≠ 0 := fun e => hs (congrArg TableId.mk e)
    have hk : scope = FunctionId.scope ⟨scope.index - 1⟩ :=
      congrArg TableId.mk (by show scope.index = scope.index - 1 + 1; omega)
    rw [hk]
    exact (he _ x hk).symm

theorem Holds.store {bindings : List (Name × Int32)} (h : env.Holds scope bindings)
    (hs : scope.index < env.size) (p : Name) (v : Int32) :
    (env.store scope p v).Holds scope ((p, v) :: bindings) := by
  intro x y hx
  rw [List.lookup_cons] at hx
  by_cases hxp : x = p
  · subst hxp
    simp only [beq_self_eq_true, Option.some.injEq] at hx
    rw [getLocal?_store_self hs, hx]
  · rw [beq_eq_false_iff_ne.mpr hxp] at hx
    rw [getLocal?_store_of_ne fun hc => hxp hc.2]
    exact h x y hx

end Environment

namespace Mirrors

variable {m : Module} {program : Program} {s t : State}

theorem lookup_root (h : Mirrors m s t) (hm : m.Represents program) (x : Name) :
    s.env.lookup .root x = t.env.lookup .root x := by
  rw [Environment.lookup_root (h.fits.legacy_root hm) (h.fits.pos hm),
    Environment.lookup_root h.root h.pos, h.surface.root]

theorem store_root (h : Mirrors m s t) (hm : m.Represents program) (x : Name) (v : Int32) :
    Mirrors m (s.store .root x v) (t.store .root x v) where
  surface := by
    refine ⟨?_, h.surface.input, h.surface.output⟩
    simp only [State.store, Environment.root?_store_root, h.surface.root]
  fits := h.fits.store .root x v
  own := by
    have hown := (Environment.bindsOwn_iff hm).mp h.own
    exact (Environment.bindsOwn_iff hm).mpr (hown.store_root x v)
  root := by
    rw [State.store, Environment.legacy_store]
    exact h.root
  pos := by
    rw [State.store, Environment.size_store]
    exact h.pos

/-- Only the machine stores a parameter. -/
theorem store_param (h : Mirrors m s t) (hm : m.Represents program) {id : FunctionId}
    {f : Function} (hf : m.functions.get? id = some f) {p : Name} (hp : p ∈ f.params)
    (v : Int32) : Mirrors m (s.store f.scope p v) t where
  surface := by
    refine ⟨?_, h.surface.input, h.surface.output⟩
    have hroot : (s.env.store f.scope p v).root? = s.env.root? :=
      Environment.root?_store_of_ne (h.fits.scope_lt hm hf) (hm.scope_ne_root hf)
    exact hroot.trans h.surface.root
  fits := h.fits.store f.scope p v
  own := (Machine.keeps_bindsOwn (m := ⟨.initial, m, 0⟩) hm).store_param v hf hp h.own
  root := h.root
  pos := h.pos

theorem print (h : Mirrors m s t) (line : String) : Mirrors m (s.print line) (t.print line) := by
  refine ⟨⟨h.surface.root, h.surface.input, ?_⟩, h.fits, h.own, h.root, h.pos⟩
  simp only [State.print, h.surface.output]

theorem withInput (h : Mirrors m s t) (input : Input) :
    Mirrors m (s.withInput input) (t.withInput input) :=
  ⟨⟨h.surface.root, rfl, h.surface.output⟩, h.fits, h.own, h.root, h.pos⟩

/-- A variable reads the same on the machine and in the frame at hand. -/
theorem agree_lookup (h : Mirrors m s t) (hm : m.Represents program) {scope : ScopeId}
    (hs : scope.index < m.scopes.size) {locals : List (Name × Int32)}
    (hshows : s.env.Shows scope locals) (x : Name) :
    Agree (Mirrors m) State.SameSurface (Run.lookup scope x s) (Reference.lookup locals x t) := by
  have hx := hshows x
  unfold Reference.lookup
  by_cases hroot : scope = .root
  · subst hroot
    rw [if_pos rfl] at hx
    rw [hx]
    exact Run.agree_lookup h (h.lookup_root hm x)
  · rw [if_neg hroot] at hx
    have hl : s.env.legacy scope = .root := by rw [h.fits.legacy scope hs, hm.legacy_eq]
    have hread : s.env.lookup scope x = (s.env.getLocal? scope x).getD (s.env.lookup .root x) :=
      Environment.lookup_function (h.fits.legacy_root hm) hl (Nat.lt_of_lt_of_le hs h.fits.size)
        hroot
    rw [hx]
    cases hlocal : s.env.getLocal? scope x with
    | some v =>
      rw [hlocal] at hread
      show Agree _ _ (.ok (s.env.lookup scope x) s) (.ok v t)
      rw [hread]
      exact .ok h
    | none =>
      rw [hlocal] at hread
      exact Run.agree_lookup h (hread.trans (h.lookup_root hm x))

end Mirrors

/-! ## The frame of a call -/

theorem Reference.frame_cons (p : Name) (params : List Name) (v : Int32) (values : List Int32)
    (bound : List (Name × Int32)) :
    frame (p :: params) (v :: values) ++ bound = frame params values ++ (p, v) :: bound := by
  simp [frame]

theorem Reference.lookup_frame_ne_none {params : List Name} {values : List Int32}
    (h : values.length = params.length) {x : Name} (hx : x ∈ params) :
    (frame params values).lookup x ≠ none := by
  intro hnone
  rw [frame, List.lookup_eq_none_iff] at hnone
  rw [← List.map_fst_zip (Nat.le_of_eq h.symm)] at hx
  obtain ⟨q, hq, rfl⟩ := List.mem_map.mp hx
  have hne := hnone q (List.mem_reverse.mpr hq)
  simp at hne

/-- Where all parameters are stored, the frame of the function shows the frame of the call. -/
theorem Environment.Holds.shows {env : Environment} {m : Module} {program : Program}
    (hm : m.Represents program) {id : FunctionId} {f : Function}
    (hf : m.functions.get? id = some f) (hown : env.BindsOwn m) {values : List Int32}
    (hlen : values.length = f.params.length)
    (h : env.Holds f.scope (Reference.frame f.params values)) :
    env.Shows f.scope (Reference.frame f.params values) := by
  intro x
  rw [if_neg (hm.scope_ne_root hf)]
  cases hx : (Reference.frame f.params values).lookup x with
  | some v => exact (h x v hx).symm
  | none =>
    symm
    rw [Option.eq_none_iff_forall_ne_some]
    intro v hv
    exact Reference.lookup_frame_ne_none hlen (hown id f hf x v hv) hx

/-! ## Expressions -/

namespace Machine

/-- The expression does not reach the function in whose scope it stands. -/
def Clear (program : Program) (scope : ScopeId) (e : Expr) : Prop :=
  ∀ k : FunctionId, scope = k.scope → ¬ e.Reaches program k

theorem clear_root (program : Program) (e : Expr) : Clear program .root e :=
  fun k hk => (k.scope_ne_root hk.symm).elim

variable {m : Machine} {w : Setting} {fuel : Nat}

/-- The machine leaves the frame of a function alone that the expression does not reach. -/
theorem Serves.getLocal?_eq (hm : m.Serves w) {depth : Nat} {scope : ScopeId} {e : Expr}
    {id : ExprId} {s s' : State} {v : Int32} (hid : m.module.arena.HoldsExpr scope e id)
    (hw : (e.flat scope).Within w.program.flat) (h : m.evalExpr fuel depth id s = .ok v s')
    {k : FunctionId} (hk : ¬ e.Reaches w.program k) (x : Name) :
    s'.env.getLocal? k.scope x = s.env.getLocal? k.scope x := by
  have heval := (evalExpr_yields hm fuel depth hid hw s).of_ended (r := .ok v) h
  exact heval.getLocal?_eq hk

/-- With this fuel, an expression has the value that the reference gives it. -/
def EvalMirrors (m : Machine) (w : Setting) (fuel : Nat) : Prop :=
  ∀ (depth : Nat) (scope : ScopeId) (locals : List (Name × Int32)) (e : Expr) (id : ExprId)
    (s t : State), m.module.arena.HoldsExpr scope e id →
    (e.flat scope).Within w.program.flat → scope.index < m.module.scopes.size →
    Clear w.program scope e → Mirrors m.module s t → s.env.Shows scope locals →
    Agree (fun s t => Mirrors m.module s t ∧ s.env.Shows scope locals) State.SameSurface
      (m.evalExpr fuel depth id s) (Reference.evalExpr w fuel depth locals e t)

/-- With this fuel, a call has the value that the reference gives it. -/
def CallMirrors (m : Machine) (w : Setting) (fuel : Nat) : Prop :=
  ∀ (depth : Nat) (scope : ScopeId) (locals : List (Name × Int32)) (function : FunctionId)
    (args : List Expr) (span : Span) (slice : Slice) (ids : List ExprId) (s t : State),
    m.module.arena.args? slice = some ids → m.module.arena.HoldsExprs scope args ids →
    ((Expr.call function args span).flat scope).Within w.program.flat →
    scope.index < m.module.scopes.size → Clear w.program scope (.call function args span) →
    Mirrors m.module s t → s.env.Shows scope locals →
    Agree (Mirrors m.module) State.SameSurface (m.call fuel depth function slice s)
      (Reference.call w fuel depth locals function args t)

/-- With this fuel, arguments are stored with the values that the reference gives them. Nothing that
is bound already is lost: an argument that leads to another call of the function can only be the
first one. -/
def BindMirrors (m : Machine) (w : Setting) (fuel : Nat) : Prop :=
  ∀ (depth : Nat) (scope : ScopeId) (locals : List (Name × Int32)) (function : FunctionId)
    (f : Function) (args : List (Name × Expr)) (ids : List (Name × ExprId))
    (bound : List (Name × Int32)) (s t : State), m.module.functions.get? function = some f →
    m.module.arena.HoldsArgs scope args ids →
    (Expr.flatAll scope (args.map Prod.snd)).Within w.program.flat →
    scope.index < m.module.scopes.size → scope ≠ f.scope →
    (∀ q ∈ args, q.1 ∈ f.params ∧ Clear w.program scope q.2) →
    (∀ q ∈ args.tail, ¬ q.2.Reaches w.program function) →
    (bound ≠ [] → ∀ q ∈ args, ¬ q.2.Reaches w.program function) →
    Mirrors m.module s t → s.env.Shows scope locals → s.env.Holds f.scope bound →
    Related (fun _ values s t => Mirrors m.module s t ∧ s.env.Shows scope locals ∧
        values.length = args.length ∧
        s.env.Holds f.scope (Reference.frame (args.map Prod.fst) values ++ bound))
      State.SameSurface (m.bindArgs fuel depth f.scope ids s)
      (Reference.evalArgs w fuel depth locals (args.map Prod.snd) t)

theorem bindMirrors_succ (hm : m.Serves w) (he : EvalMirrors m w fuel) (hb : BindMirrors m w fuel) :
    BindMirrors m w (fuel + 1) := by
  intro depth scope locals function f args ids bound s t hf hids hw hscope hne hq htail hall
    hst hshows hholds
  match args, ids, hids with
  | [], [], _ =>
    simp only [bindArgs, Reference.evalArgs, List.map_nil]
    exact .ok ⟨hst, hshows, rfl, hholds⟩
  | (p, arg) :: args, (_, id) :: ids, ⟨⟨rfl, hid⟩, hids⟩ =>
    obtain ⟨hwarg, hwargs⟩ := Flattening.within_append.mp hw
    obtain ⟨⟨hp, hclear⟩, hq⟩ := List.forall_mem_cons.mp hq
    have hscope_eq := hm.module.scope_eq hf
    simp only [bindArgs, Reference.evalArgs, List.map_cons]
    -- The argument keeps what is bound: unless nothing is, it does not reach the function.
    have hkept : ∀ v s₁, m.evalExpr fuel depth id s = .ok v s₁ → s₁.env.Holds f.scope bound := by
      intro v s₁ hrun x y hx
      have hbound : bound ≠ [] := by
        rintro rfl
        cases hx
      have hnot := hall hbound (_, arg) List.mem_cons_self
      rw [hscope_eq, hm.getLocal?_eq hid hwarg hrun hnot x, ← hscope_eq]
      exact hholds x y hx
    have harg := he depth scope locals arg id s t hid hwarg hscope hclear hst hshows
    refine Related.bind (harg.and_left hkept) fun v v' s₁ t₁ h₁ => ?_
    obtain ⟨⟨rfl, hst₁, hshows₁⟩, hholds₁⟩ := h₁
    have hst₂ := hst₁.store_param hm.module hf hp v
    have hshows₂ : (s₁.store f.scope p v).env.Shows scope locals := by
      refine hshows₁.of_eq fun k x hk => ?_
      exact Environment.getLocal?_store_of_scope_ne fun e => hne (hk.trans e.symm)
    have hholds₂ := hholds₁.store (hst₁.fits.scope_lt hm.module hf) p v
    have hrest := hb depth scope locals function f args ids _ _ t₁ hf hids hwargs hscope hne hq
      (fun q hq => htail q (List.mem_of_mem_tail hq)) (fun _ => htail) hst₂ hshows₂ hholds₂
    refine hrest.map_right fun _ values s₂ t₂ h => ?_
    obtain ⟨h₁, h₂, h₃, h₄⟩ := h
    refine ⟨h₁, h₂, congrArg (· + 1) h₃, ?_⟩
    rw [Reference.frame_cons]
    exact h₄

theorem callMirrors_succ (hm : m.Serves w) (hp : w.program.Descends)
    (hn : w.program.NonReentrant) (he : EvalMirrors m w fuel) (hb : BindMirrors m w fuel) :
    CallMirrors m w (fuel + 1) := by
  intro depth scope locals function args span slice ids s t hs hids hw hscope hclear hst hshows
  obtain ⟨hwargs, hcall⟩ := Flattening.within_call hw
  obtain ⟨d, body, hd, hlen, hf, hbody, hwbody⟩ := hm.callee hcall
  have hzip : (d.params.zip args).map Prod.snd = args := List.map_snd_zip (Nat.le_of_eq hlen)
  have hfst : (d.params.zip args).map Prod.fst = d.params :=
    List.map_fst_zip (Nat.le_of_eq hlen.symm)
  have hbind := hb depth scope locals function _ (d.params.zip args) (d.params.zip ids) [] s t hf
    (hids.zip d.params) (Flattening.within_args hlen hw) hscope ?_ ?_ ?_ (fun h => (h rfl).elim)
    hst hshows (fun x v hx => nomatch hx)
  · rw [call_of_arity hf rfl hs (hids.length_eq.trans hlen)]
    simp only [Reference.call, hd, hm.maxDepth]
    rw [if_neg (not_not_intro hlen)]
    rw [hzip, hfst] at hbind
    simp only [List.append_nil] at hbind
    refine Related.bind hbind fun _ values s₁ t₁ h₁ => ?_
    obtain ⟨hst₁, -, hvalues, hholds⟩ := h₁
    refine agree_ite (fun _ => ?_) fun _ => agree_fault hst₁.surface
    have hvalues : values.length = d.params.length := by
      rw [hvalues, List.length_zip, hlen, Nat.min_self]
    have hshows₁ := Environment.Holds.shows hm.module hf hst₁.own hvalues hholds
    have hclear₁ : Clear w.program function.scope d.body := by
      intro k hk
      rw [← FunctionId.scope_injective hk]
      exact hn.not_reaches_self hp hd
    have hvalue := he (depth + 1) function.scope _ d.body body s₁ t₁ hbody hwbody
      (hm.module.scope_lt hf) hclear₁ hst₁ hshows₁
    exact hvalue.imp (fun _ _ h => h.1) fun _ _ h => h
  · -- The caller is another function.
    intro e
    exact hclear function e ⟨function, List.mem_cons_self, .refl⟩
  · intro q hq
    obtain ⟨hq₁, hq₂⟩ := List.of_mem_zip hq
    exact ⟨hq₁, fun k hk hr => hclear k hk (Expr.reaches_call.mpr (.inr ⟨_, hq₂, hr⟩))⟩
  · intro q hq
    refine hn.args scope function args span hcall q.2 ?_
    rw [← hzip, ← List.map_tail]
    exact List.mem_map_of_mem hq

theorem evalMirrors_succ (hm : m.Serves w) (he : EvalMirrors m w fuel)
    (hc : CallMirrors m w fuel) : EvalMirrors m w (fuel + 1) := by
  intro depth scope locals e id s t hid hw hscope hclear hst hshows
  -- The frame at hand is left alone, as the expression does not reach its function.
  have hkept : ∀ v s₁, m.evalExpr (fuel + 1) depth id s = .ok v s₁ →
      s₁.env.Shows scope locals := by
    intro v s₁ hrun
    exact hshows.of_eq fun k x hk => hm.getLocal?_eq hid hw hrun (hclear k hk) x
  suffices hagree : Agree (Mirrors m.module) State.SameSurface
      (m.evalExpr (fuel + 1) depth id s) (Reference.evalExpr w (fuel + 1) depth locals e t) by
    refine (hagree.and_left hkept).imp (fun v v' s₁ t₁ h => ?_) fun _ _ h => h
    exact ⟨h.1.1, h.1.2, h.2⟩
  cases e with
  | int value span =>
    rw [evalExpr_int hid]
    exact agree_pure hst
  | var name span =>
    rw [evalExpr_var hid]
    exact hst.agree_lookup hm.module hscope hshows name
  | neg operand span =>
    obtain ⟨i, hn, -, hi⟩ := hid
    rw [evalExpr_neg hn]
    refine Agree.bind (he depth scope locals operand i s t hi (Flattening.within_append.mp hw).1
      hscope hclear hst hshows) fun x s₁ t₁ h₁ => agree_pure h₁.1
  | arith op left right span =>
    obtain ⟨l, r, hn, -, -, hl, hr⟩ := hid
    obtain ⟨hwl, hwr, -⟩ := Flattening.within_arith hw
    have hcl : Clear w.program scope left := fun k hk h =>
      hclear k hk (Expr.reaches_arith.mpr (.inl h))
    have hcr : Clear w.program scope right := fun k hk h =>
      hclear k hk (Expr.reaches_arith.mpr (.inr h))
    rw [evalExpr_arith hn]
    refine (he depth scope locals left l s t hl hwl hscope hcl hst hshows).bind
      fun x s₁ t₁ h₁ => ?_
    refine (he depth scope locals right r s₁ t₁ hr hwr hscope hcr h₁.1 h₁.2).bind
      fun y s₂ t₂ h₂ => ?_
    cases op.apply x y with
    | some value => exact agree_pure h₂.1
    | none => exact agree_fault h₂.1.surface
  | read span =>
    rw [evalExpr_read hid]
    exact agree_readInt hst.surface.input (fun input => hst.withInput input)
      fun input => (hst.withInput input).surface
  | call function args span =>
    obtain ⟨slice, ids, hn, hs, -, hids⟩ := hid
    rw [evalExpr_call hn]
    exact (hc depth scope locals function args span slice ids s t hs hids hw hscope hclear hst
      hshows).orSpan span

theorem evalMirrors (hm : m.Serves w) (hp : w.program.Descends) (hn : w.program.NonReentrant)
    (fuel : Nat) : EvalMirrors m w fuel ∧ CallMirrors m w fuel ∧ BindMirrors m w fuel := by
  induction fuel with
  | zero =>
    refine ⟨?_, ?_, ?_⟩
    · intro depth scope locals e id s t hid hw hscope hclear hst hshows
      exact agree_throw hst.surface
    · intro depth scope locals function args span slice ids s t hs hids hw hscope hclear hst hshows
      exact agree_throw hst.surface
    · intro depth scope locals function f args ids bound s t hf hids hw hscope hne hq htail hall hst
        hshows hholds
      exact .error hst.surface
  | succ fuel ih =>
    obtain ⟨he, hc, hb⟩ := ih
    exact ⟨evalMirrors_succ hm he hc, callMirrors_succ hm hp hn he hb, bindMirrors_succ hm he hb⟩

section
variable {s t : State}

theorem evalExpr_mirrors (hm : m.Serves w) (hp : w.program.Descends)
    (hn : w.program.NonReentrant) (fuel : Nat) {e : Expr} {id : ExprId}
    (hid : m.module.arena.HoldsExpr .root e id) (hw : (e.flat .root).Within w.program.flat)
    (hst : Mirrors m.module s t) :
    Agree (Mirrors m.module) State.SameSurface (m.evalExpr fuel 0 id s)
      (Reference.evalExpr w fuel 0 [] e t) := by
  have hroot : ScopeId.root.index < m.module.scopes.size := by
    rw [hm.module.scopes_size]
    exact Nat.succ_pos _
  have hagree := (evalMirrors hm hp hn fuel).1 0 .root [] e id s t hid hw hroot
    (clear_root w.program e) hst (Environment.shows_root s.env)
  exact hagree.imp (fun _ _ h => h.1) fun _ _ h => h

/-! ## Predicates and commands -/

theorem evalPred_mirrors (hm : m.Serves w) (hp : w.program.Descends)
    (hn : w.program.NonReentrant) (fuel : Nat) {p : Pred} {id : PredId}
    (hid : m.module.arena.HoldsPred .root p id) (hw : (p.flat .root).Within w.program.flat)
    (hst : Mirrors m.module s t) :
    Agree (Mirrors m.module) State.SameSurface (m.evalPred fuel id s)
      (Reference.evalPred w fuel p t) := by
  induction fuel generalizing p id s t with
  | zero => exact agree_throw hst.surface
  | succ fuel ih =>
    cases p with
    | lit value span =>
      rw [evalPred_lit hid]
      exact agree_pure hst
    | not operand span =>
      obtain ⟨i, hnode, -, hi⟩ := hid
      rw [evalPred_not hnode]
      exact (ih hi (Flattening.within_append.mp hw).1 hst).bind fun _ _ _ h₁ => agree_pure h₁
    | logic op left right span =>
      obtain ⟨l, r, hnode, -, -, hl, hr⟩ := hid
      obtain ⟨hwl, hwr⟩ := Flattening.within_append.mp (Flattening.within_append.mp hw).1
      rw [evalPred_logic hnode]
      refine (ih hl hwl hst).bind fun x s₁ t₁ h₁ => ?_
      exact (ih hr hwr h₁).bind fun _ _ _ h₂ => agree_pure h₂
    | rel op left right span =>
      obtain ⟨l, r, hnode, hl, hr⟩ := hid
      obtain ⟨hwl, hwr⟩ := Flattening.within_append.mp (Flattening.within_append.mp hw).1
      rw [evalPred_rel hnode]
      refine (evalExpr_mirrors hm hp hn fuel hl hwl hst).bind fun x s₁ t₁ h₁ => ?_
      exact (evalExpr_mirrors hm hp hn fuel hr hwr h₁).bind fun _ _ _ h₂ => agree_pure h₂

end

/-- With this fuel, work is done as the reference does it. -/
def ExecMirrors (m : Machine) (w : Setting) (fuel : Nat) : Prop :=
  ∀ (work : Work) (run : Nat → Run Unit) (s t : State), m.Implements .root work run →
    (work.flat .root).Within w.program.flat → Mirrors m.module s t →
    Agree (Mirrors m.module) State.SameSurface (run fuel s) (Reference.perform w fuel work t)

open Flattening

section
variable {s t : State}

theorem choice_mirrors (hm : m.Serves w) (hp : w.program.Descends)
    (hn : w.program.NonReentrant) (ih : ExecMirrors m w fuel) {bs : List (Pred × Command)}
    {last : Command} {os : List (PredId × CommandId)} {l : CommandId}
    (hos : m.module.arena.HoldsBranches .root bs os)
    (hl : m.module.arena.HoldsCommand .root last l)
    (hw : ((Work.choice bs last).flat .root).Within w.program.flat)
    (hst : Mirrors m.module s t) :
    Agree (Mirrors m.module) State.SameSurface (m.execFirst (fuel + 1) os l s)
      (Reference.perform w (fuel + 1) (.choice bs last) t) := by
  match bs, os, hos with
  | [], [], _ => exact ih _ _ s t (.command hl) (within_append.mp hw).2 hst
  | (test, body) :: bs, (i, b) :: os, ⟨⟨ht, hb⟩, hos⟩ =>
    simp only [Work.flat, Command.flatBranches, within_append] at hw
    obtain ⟨⟨⟨hwt, hwb⟩, hwo⟩, hwl⟩ := hw
    rw [execFirst_cons]
    refine (evalPred_mirrors hm hp hn fuel ht hwt hst).bind fun x s₁ t₁ h₁ =>
      agree_ite (fun _ => ?_) fun _ => ?_
    · exact ih _ _ s₁ t₁ (.command hb) hwb h₁
    · exact ih _ _ s₁ t₁ (.choice hos hl) (within_append.mpr ⟨hwo, hwl⟩) h₁

theorem command_mirrors (hm : m.Serves w) (hp : w.program.Descends)
    (hn : w.program.NonReentrant) (ih : ExecMirrors m w fuel) {c : Command} {id : CommandId}
    (hid : m.module.arena.HoldsCommand .root c id) (hw : (c.flat .root).Within w.program.flat)
    (hst : Mirrors m.module s t) :
    Agree (Mirrors m.module) State.SameSurface (m.exec (fuel + 1) id s)
      (Reference.perform w (fuel + 1) (.command c) t) := by
  cases c with
  | skip span =>
    rw [exec_skip hid]
    exact agree_pure hst
  | assign target value span =>
    obtain ⟨v, hnode, hv⟩ := hid
    rw [exec_assign hnode]
    refine (evalExpr_mirrors hm hp hn fuel hv (within_append.mp hw).1 hst).bind
      fun x s₁ t₁ h₁ => ?_
    exact .ok (h₁.store_root hm.module target x)
  | block body span =>
    obtain ⟨slice, ids, hnode, hs, -, hids⟩ := hid
    rw [exec_block hnode hs]
    exact ih _ _ s t (.sequence hids) (within_append.mp hw).1 hst
  | cond test body others last span =>
    obtain ⟨i, b, slice, os, l, hnode, hs, -, -, -, ht, hb, hos, hl⟩ := hid
    rw [exec_cond hnode hs]
    have hbs : m.module.arena.HoldsBranches .root ((test, body) :: others) ((i, b) :: os) :=
      ⟨⟨ht, hb⟩, hos⟩
    exact choice_mirrors hm hp hn ih hbs hl (within_append.mp hw).1 hst
  | loop test body span =>
    obtain ⟨i, b, hnode, hlt, ht, hb⟩ := hid
    obtain ⟨hwt, hwb⟩ := within_append.mp (within_append.mp hw).1
    have hid : m.module.arena.HoldsCommand .root (.loop test body span) id :=
      ⟨i, b, hnode, hlt, ht, hb⟩
    rw [exec_loop hnode]
    refine (evalPred_mirrors hm hp hn fuel ht hwt hst).bind fun x s₁ t₁ h₁ =>
      agree_ite (fun _ => ?_) fun _ => agree_pure h₁
    refine (ih _ _ s₁ t₁ (.command hb) hwb h₁).bind fun _ s₂ t₂ h₂ => ?_
    exact ih _ _ s₂ t₂ (.command hid) hw h₂
  | count var start stop step body span =>
    obtain ⟨i, j, k, b, hnode, -, hi, hj, hk, hb⟩ := hid
    simp only [Command.flat, within_append] at hw
    obtain ⟨⟨⟨⟨hwi, hwj⟩, hwk⟩, hwb⟩, -⟩ := hw
    rw [exec_count hnode]
    refine (evalExpr_mirrors hm hp hn fuel hi hwi hst).bind fun first s₁ t₁ h₁ => ?_
    refine (evalExpr_mirrors hm hp hn fuel hj hwj (h₁.store_root hm.module var first)).bind
      fun bound s₂ t₂ h₂ => ?_
    refine agree_ite (fun _ => ?_) fun _ => agree_pure h₂
    exact ih _ _ s₂ t₂ (.turns hj hk hb)
      (within_append.mpr ⟨within_append.mpr ⟨hwj, hwk⟩, hwb⟩) h₂
  | switch selector cases default span =>
    obtain ⟨e, slice, cs, d, hnode, hs, -, -, he, hcs, hd⟩ := hid
    simp only [Command.flat, within_append] at hw
    obtain ⟨⟨⟨hwe, hwc⟩, hwd⟩, -⟩ := hw
    rw [exec_switch hnode hs]
    refine (evalExpr_mirrors hm hp hn fuel he hwe hst).bind fun value s₁ t₁ h₁ => ?_
    cases hlookup : cases.lookup value with
    | none =>
      have hne : ∀ label ∈ cases, label.1 ≠ value := fun label hl =>
        (bne_iff_ne.mp (List.lookup_eq_none_iff.mp hlookup label hl)).symm
      rw [hcs.lookup_eq_none hne]
      exact ih _ _ s₁ t₁ (.command hd) hwd h₁
    | some c =>
      obtain ⟨before, after, hc, hne⟩ := List.lookup_eq_some_iff.mp hlookup
      obtain ⟨b, hb, hcb⟩ := (hc ▸ hcs).lookup_eq_some
        fun label hl => (bne_iff_ne.mp (hne label hl)).symm
      have hmem : (value, c) ∈ cases := hc ▸ List.mem_append_right _ List.mem_cons_self
      rw [hb]
      exact ih _ _ s₁ t₁ (.command hcb) (within_case hmem hwc) h₁
  | printInt value span =>
    obtain ⟨v, hnode, hv⟩ := hid
    rw [exec_printInt hnode]
    refine (evalExpr_mirrors hm hp hn fuel hv (within_append.mp hw).1 hst).bind
      fun x s₁ t₁ h₁ => ?_
    exact .ok (h₁.print _)
  | printText text span =>
    rw [exec_printText hid, hm.names]
    exact .ok (hst.print _)

theorem sequence_mirrors (ih : ExecMirrors m w fuel) {cs : List Command} {ids : List CommandId}
    (hids : m.module.arena.HoldsCommands .root cs ids)
    (hw : (Command.flatAll .root cs).Within w.program.flat) (hst : Mirrors m.module s t) :
    Agree (Mirrors m.module) State.SameSurface (m.execAll (fuel + 1) ids s)
      (Reference.perform w (fuel + 1) (.sequence cs) t) := by
  match cs, ids, hids with
  | [], [], _ => exact agree_pure hst
  | _ :: cs, id :: ids, ⟨hid, hids⟩ =>
    obtain ⟨hwc, hwcs⟩ := within_append.mp hw
    rw [execAll_cons]
    refine (ih _ _ s t (.command hid) hwc hst).bind fun _ s₁ t₁ h₁ => ?_
    exact ih _ _ s₁ t₁ (.sequence hids) hwcs h₁

theorem turns_mirrors (hm : m.Serves w) (hp : w.program.Descends)
    (hn : w.program.NonReentrant) (ih : ExecMirrors m w fuel) {var : Name} {stop step : Expr}
    {body : Command} {j k : ExprId} {b : CommandId}
    (hj : m.module.arena.HoldsExpr .root stop j) (hk : m.module.arena.HoldsExpr .root step k)
    (hb : m.module.arena.HoldsCommand .root body b)
    (hw : ((Work.turns var stop step body).flat .root).Within w.program.flat)
    (hst : Mirrors m.module s t) :
    Agree (Mirrors m.module) State.SameSurface (m.execCount (fuel + 1) var .root j k b s)
      (Reference.perform w (fuel + 1) (.turns var stop step body) t) := by
  obtain ⟨hws, hwb⟩ := within_append.mp hw
  obtain ⟨hwj, hwk⟩ := within_append.mp hws
  rw [execCount_succ]
  refine (ih _ _ s t (.command hb) hwb hst).bind fun _ s₁ t₁ h₁ => ?_
  refine (Run.agree_lookup h₁ (h₁.lookup_root hm.module var)).bind fun current s₁ t₁ h₁ => ?_
  refine (evalExpr_mirrors hm hp hn fuel hk hwk h₁).bind fun amount s₂ t₂ h₂ => ?_
  cases advance? current amount with
  | none => exact agree_pure h₂
  | some next =>
    refine (evalExpr_mirrors hm hp hn fuel hj hwj h₂).bind fun bound s₃ t₃ h₃ => ?_
    refine agree_ite (fun _ => ?_) fun _ => agree_pure h₃
    exact ih _ _ _ _ (.turns hj hk hb) hw (h₃.store_root hm.module var next)

end

theorem execMirrors (hm : m.Serves w) (hp : w.program.Descends) (hn : w.program.NonReentrant)
    (fuel : Nat) : ExecMirrors m w fuel := by
  induction fuel with
  | zero =>
    intro work run s t hi hw hst
    cases hi <;> exact agree_throw hst.surface
  | succ fuel ih =>
    intro work run s t hi hw hst
    cases hi with
    | command hid => exact command_mirrors hm hp hn ih hid hw hst
    | sequence hids => exact sequence_mirrors ih hids hw hst
    | choice hos hl => exact choice_mirrors hm hp hn ih hos hl hw hst
    | turns hj hk hb => exact turns_mirrors hm hp hn ih hj hk hb hw hst

end Machine

/-- A fresh environment and the root frame alone look the same. -/
theorem mirrors_start {m : Module} {program : Program} (hm : m.Represents program)
    (input : Input) : Mirrors m (Machine.start m input) ⟨.initial, input, ""⟩ where
  surface := by
    refine ⟨?_, rfl, rfl⟩
    have hlink : m.scopes.links[0]? = some .root := by
      rw [← Array.getElem?_toList, hm.scopes]
      rfl
    simp [Machine.start, Environment.root?, Environment.ofScopes, hlink, Environment.initial]
  fits := Environment.fits_ofScopes m
  own := (Environment.bindsOwn_iff hm).mpr (Environment.bindsOnly_ofScopes _ _)
  root := rfl
  pos := Nat.one_pos

/-- A source that was read and in whose program no call is re-entered is run as the reference runs
its trees: with the same output, result, input left and root frame. -/
theorem Module.parse_run_reference (source : String) (names names' : Names) (m : Module)
    (h : Module.parse source names = (.ok m, names')) :
    ∃ program, m.program? = some program ∧ (program.NonReentrant →
      ∀ (maxDepth fuel : Nat) (input : Input),
        SameAnswer (Machine.run ⟨names', m, maxDepth⟩ fuel (Machine.start m input))
          (Reference.run ⟨names', program, maxDepth⟩ fuel ⟨.initial, input, ""⟩)) := by
  obtain ⟨program, rfl, hp⟩ := Module.exists_program_of_parse h
  refine ⟨program, Module.program?_ofProgram program, fun hn maxDepth fuel input => ?_⟩
  have hm : Machine.Serves ⟨names', .ofProgram program, maxDepth⟩ ⟨names', program, maxDepth⟩ :=
    Machine.serves_ofProgram hp maxDepth
  have hagree := Machine.execMirrors hm (Program.parse_descends hp) hn fuel _ _ _ _
    hm.implements_run program.commands_within (mirrors_start hm.module input)
  exact hagree.imp (fun _ _ h => h.surface) fun _ _ h => h

/-- A call may have another call of its function as its first argument, and calls of other functions
behind it. -/
theorem Module.parse_run_reference_nested : ∃ (m : Module) (names : Names) (program : Program),
    Module.parse "def h(x) = x + 1; def f(a, b) = a - b; escreva f(f(9, 1), h(2))" .initial =
      (.ok m, names) ∧
    (Machine.finalState
      (Reference.run ⟨names, program, 10⟩ 20 ⟨.initial, default, ""⟩)).output = "5\n" ∧
    ∀ (fuel : Nat) (input : Input),
      SameAnswer (Machine.run ⟨names, m, 10⟩ fuel (Machine.start m input))
        (Reference.run ⟨names, program, 10⟩ fuel ⟨.initial, input, ""⟩) := by
  have h : Module.parse "def h(x) = x + 1; def f(a, b) = a - b; escreva f(f(9, 1), h(2))" .initial =
      (.ok (.ofProgram [
        .declare ⟨⟨1⟩, [⟨2⟩], .arith .add (.var ⟨2⟩ ⟨11, 12⟩) (.int 1 ⟨15, 16⟩) ⟨11, 16⟩, ⟨0, 10⟩⟩,
        .declare ⟨⟨3⟩, [⟨4⟩, ⟨5⟩], .arith .sub (.var ⟨4⟩ ⟨32, 33⟩) (.var ⟨5⟩ ⟨36, 37⟩) ⟨32, 37⟩,
          ⟨18, 31⟩⟩,
        .command (.printInt (.call ⟨1⟩ [.call ⟨1⟩ [.int 9 ⟨51, 52⟩, .int 1 ⟨54, 55⟩] ⟨49, 56⟩,
          .call ⟨0⟩ [.int 2 ⟨60, 61⟩] ⟨58, 62⟩] ⟨47, 63⟩) ⟨39, 63⟩)]),
        ⟨#["", "h", "x", "f", "a", "b"]⟩) := by
    decide +kernel
  obtain ⟨program, hprogram, hrun⟩ := Module.parse_run_reference _ _ _ _ h
  rw [Module.program?_ofProgram, Option.some_inj] at hprogram
  refine ⟨_, _, program, h, ?_, hrun ⟨?_, ?_⟩ 10⟩
  · rw [← hprogram]
    cbv
  · rw [← hprogram]
    rintro ⟨i⟩ d hd
    rcases i with _ | _ | i
    · cases hd
      decide
    · cases hd
      decide
    · cases hd
  · intro scope f args span hc arg harg
    rw [← hprogram] at hc ⊢
    simp [Program.flat, Program.flatFrom, Expr.flat, Expr.flatAll, Command.flat,
      Flattening.expr, Flattening.command] at hc
    obtain ⟨-, rfl, rfl, -⟩ | ⟨-, rfl, rfl, -⟩ | ⟨-, rfl, rfl, -⟩ := hc
    · cases List.mem_singleton.mp harg
      rintro ⟨g, hg, -⟩
      cases hg
    · cases harg
    · cases List.mem_singleton.mp harg
      rintro ⟨g, hg, hr⟩
      cases List.mem_singleton.mp hg
      -- The body of `h` calls nothing.
      rcases hr.cases_head with hr | ⟨g, ⟨d, hd, hg⟩, -⟩
      · cases hr
      · cases hd
        cases hg

end Enquanto

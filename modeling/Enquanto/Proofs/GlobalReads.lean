import Enquanto.Proofs.CountedLoops

/-!
# Where a global variable is read

An expression reads a global variable where it mentions it, or where a function that it reaches
does so without having a parameter of that name. If it does neither, the value of the variable does
not matter to it: it evaluates in the same way after a store to the variable, which is still there
when it ends.

* `Expr.Mentions` and `Program.Ignores`: where a variable stands in an expression, and in the
  functions that it reaches;
* `Evaluates.store_root`: evaluation after a store to a variable that is ignored;
* `Module.ReadsGlobal`: the same of the nodes of a module.
-/

namespace Enquanto

/-! ## Stores to different frames -/

namespace Environment

variable {env : Environment} {scope other : ScopeId} {x y : Name} {v u : Int32}

theorem clamp_store : (env.store scope x v).clamp other = env.clamp other := by
  simp [clamp, store]

/-- Stores to different frames commute. -/
theorem store_comm (h : env.clamp scope ≠ env.clamp other) :
    (env.store scope x v).store other y u = (env.store other y u).store scope x v := by
  have hi : (env.clamp scope).index ≠ (env.clamp other).index := fun e => h (congrArg TableId.mk e)
  rw [store, clamp_store, store, store, clamp_store]
  congr 1
  apply Array.ext_getElem?
  intro i
  simp only [store, Array.getElem?_modify]
  grind

theorem lookupFrom_store_of_ne (hy : y ≠ x) (steps : Nat) :
    (env.store scope x v).lookupFrom y steps other = env.lookupFrom y steps other := by
  induction steps generalizing other with
  | zero => rfl
  | succ steps ih =>
    rw [lookupFrom_succ, lookupFrom_succ, getLocal?_store_of_ne fun h => hy h.2, legacy_store, ih,
      size_store]

/-- A store of one variable does not show in another one. -/
theorem lookup_store_of_ne (hy : y ≠ x) :
    (env.store scope x v).lookup other y = env.lookup other y := by
  rw [lookup, clamp_store, lookupFrom_store_of_ne hy]
  simp [lookup, store]

theorem lt_of_isSome_getLocal? (h : (env.getLocal? scope x).isSome) : scope.index < env.size := by
  by_contra hs
  rw [getLocal?_eq_none hs] at h
  cases h

end Environment

/-! ## Mentions -/

namespace Expr

/-- The variable stands somewhere in the expression. -/
def Mentions (e : Expr) (x : Name) : Prop :=
  ∃ span, (Tree.expr e).Contains (.expr (.var x span))

variable {x y : Name} {e l r : Expr} {span : Span}

theorem Mentions.of_child {c : Expr} (hc : Tree.expr c ∈ (Tree.expr e).children)
    (h : c.Mentions x) : e.Mentions x :=
  let ⟨span, h⟩ := h
  ⟨span, .child hc h⟩

theorem not_mentions_neg (h : ¬ (Expr.neg e span).Mentions x) : ¬ e.Mentions x :=
  fun he => h (he.of_child List.mem_cons_self)

theorem not_mentions_arith {op : ArithOp} (h : ¬ (Expr.arith op l r span).Mentions x) :
    ¬ l.Mentions x ∧ ¬ r.Mentions x :=
  ⟨fun hl => h (hl.of_child (List.mem_pair.mpr (.inl rfl))),
    fun hr => h (hr.of_child (List.mem_pair.mpr (.inr rfl)))⟩

theorem not_mentions_call {f : FunctionId} {args : List Expr}
    (h : ¬ (Expr.call f args span).Mentions x) : ∀ arg ∈ args, ¬ arg.Mentions x :=
  fun _ harg hm => h (hm.of_child (List.mem_map_of_mem harg))

end Expr

/-- A function with `reached` whose body mentions the variable has it as a parameter. -/
def Program.Hides (program : Program) (reached : FunctionId → Prop) (x : Name) : Prop :=
  ∀ g d, reached g → program.declarations[g.index]? = some d → x ∈ d.params ∨ ¬ d.body.Mentions x

/-- Neither the expression nor a function that it reaches reads the global variable. -/
def Program.Ignores (program : Program) (e : Expr) (x : Name) : Prop :=
  ¬ e.Mentions x ∧ program.Hides (e.Reaches program) x

/-! ## Bindings stay -/

/-- The environment has as many frames, and a variable that has a value in a frame still has one. -/
structure State.Grows (s s' : State) : Prop where
  size : s'.env.size = s.env.size
  isSome : ∀ scope x, (s.env.getLocal? scope x).isSome → (s'.env.getLocal? scope x).isSome

namespace State.Grows

theorem refl (s : State) : s.Grows s := ⟨rfl, fun _ _ h => h⟩

theorem trans {s₁ s₂ s₃ : State} (h : s₁.Grows s₂) (h' : s₂.Grows s₃) : s₁.Grows s₃ :=
  ⟨h'.size.trans h.size, fun scope x hx => h'.isSome scope x (h.isSome scope x hx)⟩

theorem store (s : State) (scope : ScopeId) (x : Name) (v : Int32) :
    s.Grows (s.store scope x v) where
  size := Environment.size_store ..
  isSome := by
    intro other y h
    rw [State.store, Environment.getLocal?_store _ _ _ _ _ _ (Environment.lt_of_isSome_getLocal? h)]
    split
    · rfl
    · exact h

theorem lt {s s' : State} (h : s.Grows s') {n : Nat} (hs : n < s.env.size) : n < s'.env.size :=
  h.size ▸ hs

end State.Grows

section
variable {w : Setting} {x : Name}

theorem Program.effects_grows (program : Program) (reached : FunctionId → Prop) :
    program.Effects reached State.Grows where
  refl := .refl
  trans := .trans
  read := fun _ _ => ⟨rfl, fun _ _ h => h⟩
  store := fun s v _ _ _ => .store s _ _ v

theorem Evaluates.grows {depth : Nat} {scope : ScopeId} {e : Expr} {s s' : State}
    {r : Except Fault Int32} (h : Evaluates w depth scope e s r s') : s.Grows s' :=
  h.effects (w.program.effects_grows fun _ => True) fun _ _ => trivial

theorem Binds.grows {depth : Nat} {scope callee : ScopeId} {args : List (Name × Expr)}
    {s s' : State} {r : Except Fault Unit} (h : Binds w depth scope callee args s r s') :
    s.Grows s' :=
  h.effects (w.program.effects_grows fun _ => True) (fun _ _ _ _ => .store _ _ _ _)
    fun _ _ _ _ => trivial

theorem Setting.keeps_grows (w : Setting) (s : State) : w.Keeps (s.Grows ·) fun _ => True where
  store := fun _ _ _ _ h => h.trans (.store ..)
  print := fun _ _ h => h.trans ⟨rfl, fun _ _ hx => hx⟩
  read := fun _ _ _ h _ => h.trans ⟨rfl, fun _ _ hx => hx⟩
  read_fault := fun _ _ _ _ _ _ h _ => ⟨h.trans ⟨rfl, fun _ _ hx => hx⟩, trivial⟩
  division := fun _ _ _ _ _ => trivial
  limit := fun _ _ _ _ _ => trivial

theorem Executes.grows {scope : ScopeId} {work : Work} {s s' : State} {r : Except Fault Unit}
    (h : Executes w scope work s r s') (hw : (work.flat scope).Within w.program.flat) :
    s.Grows s' :=
  (h.keeps (w.keeps_grows s) hw (.refl s)).1

/-- Each parameter has a value when the arguments are bound. -/
theorem Binds.isSome : ∀ {depth : Nat} {scope callee : ScopeId} {args : List (Name × Expr)}
    {s s' : State}, Binds w depth scope callee args s (.ok ()) s' → callee.index < s.env.size →
    ∀ q ∈ args, (s'.env.getLocal? callee q.1).isSome
  | _, _, _, _, _, _, .nil, _, _, hq => nomatch hq
  | _, _, _, _ :: _, _, _, .cons h hrest, hs, _, hq => by
    have hs₁ := h.grows.lt hs
    rcases List.mem_cons.mp hq with rfl | hq
    · refine hrest.grows.isSome _ _ ?_
      rw [State.store, Environment.getLocal?_store_self hs₁]
      rfl
    · exact hrest.isSome ((State.Grows.store ..).lt hs₁) _ hq

/-! ## Evaluation after a store -/

/-- With a frame for every function, one is there for the scope of a function. -/
theorem Program.scope_lt {program : Program} {f : FunctionId} {d : Declaration} {n : Nat}
    (hd : program.declarations[f.index]? = some d) (hs : program.declarations.length < n) :
    f.scope.index < n :=
  Nat.lt_of_le_of_lt (List.getElem?_eq_some_iff.mp hd).1 hs

/-- A store to the global variable does not show in an expression of the scope: the expression does
not mention the variable, or the frame of the scope has a value for it. -/
def State.Shields (s : State) (x : Name) (scope : ScopeId) (e : Expr) : Prop :=
  ¬ e.Mentions x ∨ scope ≠ .root ∧ (s.env.getLocal? scope x).isSome

theorem State.Shields.of_grows {s s' : State} {scope : ScopeId} {e e' : Expr}
    (h : s.Shields x scope e) (hg : s.Grows s') (he : ¬ e.Mentions x → ¬ e'.Mentions x) :
    s'.Shields x scope e' :=
  h.imp he fun ⟨hne, hx⟩ => ⟨hne, hg.isSome _ _ hx⟩

theorem State.Shields.arith {s s' : State} {scope : ScopeId} {op : ArithOp} {l r : Expr}
    {span : Span} (h : s.Shields x scope (.arith op l r span)) (hg : s.Grows s') :
    s.Shields x scope l ∧ s'.Shields x scope r :=
  ⟨h.of_grows (.refl s) fun hno => (Expr.not_mentions_arith hno).1,
    h.of_grows hg fun hno => (Expr.not_mentions_arith hno).2⟩

theorem State.Shields.args {s : State} {scope : ScopeId} {f : FunctionId} {args : List Expr}
    {span : Span} (h : s.Shields x scope (.call f args span)) :
    ∀ arg ∈ args, s.Shields x scope arg :=
  fun arg harg => h.of_grows (.refl s) fun hno => Expr.not_mentions_call hno arg harg

theorem State.Shields.lookup_eq {s : State} {scope : ScopeId} {y : Name} {span : Span}
    (h : s.Shields x scope (.var y span)) (hs : 0 < s.env.size) (v : Int32) :
    (s.store .root x v).env.lookup scope y = s.env.lookup scope y := by
  by_cases hy : y = x
  · subst hy
    obtain hno | ⟨hne, hx⟩ := h
    · exact absurd ⟨span, .refl⟩ hno
    · obtain ⟨a, ha⟩ := Option.isSome_iff_exists.mp hx
      have hlt := Environment.lt_of_isSome_getLocal? hx
      have hstored : (s.store .root y v).env.getLocal? scope y = some a := by
        rw [State.store, Environment.getLocal?_store_of_ne, ha]
        rw [Environment.clamp_of_lt (show ScopeId.root.index < s.env.size from hs)]
        exact fun h => hne h.1
      rw [Environment.lookup_of_getLocal? hlt ha, Environment.lookup_of_getLocal? _ hstored]
      rwa [State.store, Environment.size_store]
  · exact Environment.lookup_store_of_ne hy

/-- Stores to the root and to the frame of a function commute. -/
theorem State.store_root_comm {s : State} {callee : ScopeId} (hs : callee.index < s.env.size)
    (hne : callee ≠ .root) (v : Int32) (p : Name) (value : Int32) :
    (s.store .root x v).store callee p value = (s.store callee p value).store .root x v := by
  have hroot : ScopeId.root.index < s.env.size := Nat.zero_lt_of_lt hs
  refine congrArg (fun env => ({ s with env } : State)) (Environment.store_comm ?_)
  rw [Environment.clamp_of_lt hroot, Environment.clamp_of_lt hs]
  exact hne.symm

section
variable {reached : FunctionId → Prop}

mutual

/-- A store to a global variable that does not show in an expression neither changes how the
expression ends, nor is it lost. -/
theorem Evaluates.store_root (hb : w.program.Hides reached x) (v : Int32) : ∀ {depth : Nat}
    {scope : ScopeId} {e : Expr} {s s' : State} {r : Except Fault Int32},
    Evaluates w depth scope e s r s' →
    (∀ g, e.Reaches w.program g → reached g) → w.program.declarations.length < s.env.size →
    s.Shields x scope e → Evaluates w depth scope e (s.store .root x v) r (s'.store .root x v)
  | _, _, _, _, _, _, .int, _, _, _ => .int
  | _, _, _, s, _, _, .var, _, hs, hx => by
    rw [← hx.lookup_eq (Nat.zero_lt_of_lt hs) v]
    exact .var
  | _, _, _, _, _, _, .neg h, hg, hs, hx =>
    .neg (h.store_root hb v hg hs (hx.of_grows (.refl _) Expr.not_mentions_neg))
  | _, _, _, _, _, _, .neg_fault h, hg, hs, hx =>
    .neg_fault (h.store_root hb v hg hs (hx.of_grows (.refl _) Expr.not_mentions_neg))
  | _, _, _, _, _, _, .arith hl hr hop, hg, hs, hx => by
    obtain ⟨hgl, hgr⟩ := Expr.forall_reaches_arith.mp hg
    obtain ⟨hxl, hxr⟩ := hx.arith hl.grows
    exact .arith (hl.store_root hb v hgl hs hxl) (hr.store_root hb v hgr (hl.grows.lt hs) hxr) hop
  | _, _, _, _, _, _, .arith_undefined hl hr hop, hg, hs, hx => by
    obtain ⟨hgl, hgr⟩ := Expr.forall_reaches_arith.mp hg
    obtain ⟨hxl, hxr⟩ := hx.arith hl.grows
    exact .arith_undefined (hl.store_root hb v hgl hs hxl)
      (hr.store_root hb v hgr (hl.grows.lt hs) hxr) hop
  | _, _, _, _, _, _, .arith_left hl, hg, hs, hx =>
    .arith_left (hl.store_root hb v (Expr.forall_reaches_arith.mp hg).1 hs (hx.arith (.refl _)).1)
  | _, _, _, _, _, _, .arith_right hl hr, hg, hs, hx => by
    obtain ⟨hgl, hgr⟩ := Expr.forall_reaches_arith.mp hg
    obtain ⟨hxl, hxr⟩ := hx.arith hl.grows
    exact .arith_right (hl.store_root hb v hgl hs hxl) (hr.store_root hb v hgr (hl.grows.lt hs) hxr)
  | _, _, _, _, _, _, .read h, _, _, _ => .read h
  | _, _, _, _, _, _, .read_fault h, _, _, _ => .read_fault h
  | _, _, _, _, _, _, .call hd hlen hargs hdepth hbody, hg, hs, hx => by
    obtain ⟨hgf, hga⟩ := Expr.forall_reaches_call.mp hg
    have hcallee := Program.scope_lt hd hs
    have hargs' := hargs.store_root hb v (forall_mem_zip hga) hs (FunctionId.scope_ne_root _)
      hcallee (forall_mem_zip hx.args)
    refine .call hd hlen hargs' hdepth (hbody.store_root hb v (fun g h => hgf g (h.of_body hd))
      (hargs.grows.lt hs) ?_)
    refine (hb _ _ (hgf _ .refl) hd).symm.imp_right fun hp => ⟨FunctionId.scope_ne_root _, ?_⟩
    rw [← List.map_fst_zip (Nat.le_of_eq hlen.symm)] at hp
    obtain ⟨q, hq, rfl⟩ := List.mem_map.mp hp
    exact hargs.isSome hcallee q hq
  | _, _, _, _, _, _, .call_limit hd hlen hargs hdepth, hg, hs, hx => by
    obtain ⟨-, hga⟩ := Expr.forall_reaches_call.mp hg
    exact .call_limit hd hlen (hargs.store_root hb v (forall_mem_zip hga) hs
      (FunctionId.scope_ne_root _) (Program.scope_lt hd hs) (forall_mem_zip hx.args)) hdepth
  | _, _, _, _, _, _, .call_args hd hlen hargs, hg, hs, hx => by
    obtain ⟨-, hga⟩ := Expr.forall_reaches_call.mp hg
    exact .call_args hd hlen (hargs.store_root hb v (forall_mem_zip hga) hs
      (FunctionId.scope_ne_root _) (Program.scope_lt hd hs) (forall_mem_zip hx.args))

theorem Binds.store_root (hb : w.program.Hides reached x) (v : Int32) : ∀ {depth : Nat}
    {scope callee : ScopeId} {args : List (Name × Expr)} {s s' : State} {r : Except Fault Unit},
    Binds w depth scope callee args s r s' →
    (∀ q ∈ args, ∀ g, q.2.Reaches w.program g → reached g) →
    w.program.declarations.length < s.env.size → callee ≠ .root → callee.index < s.env.size →
    (∀ q ∈ args, s.Shields x scope q.2) →
    Binds w depth scope callee args (s.store .root x v) r (s'.store .root x v)
  | _, _, _, _, _, _, _, .nil, _, _, _, _, _ => .nil
  | _, _, _, _, _, _, _, @Binds.cons _ _ _ callee param _ _ _ s₁ _ value _ h hrest, hg, hs, hne,
      hcallee, hx => by
    obtain ⟨hgarg, hgrest⟩ := List.forall_mem_cons.mp hg
    obtain ⟨hxarg, hxrest⟩ := List.forall_mem_cons.mp hx
    have hgrows := h.grows.trans (.store s₁ callee param value)
    have hrest' := hrest.store_root hb v hgrest (hgrows.lt hs) hne (hgrows.lt hcallee)
      fun q hq => (hxrest q hq).of_grows hgrows id
    rw [← State.store_root_comm (h.grows.lt hcallee) hne] at hrest'
    exact .cons (h.store_root hb v hgarg hs hxarg) hrest'
  | _, _, _, _, _, _, _, .fault h, hg, hs, _, _, hx =>
    .fault (h.store_root hb v (List.forall_mem_cons.mp hg).1 hs (List.forall_mem_cons.mp hx).1)

end

end

/-- An expression that ignores a global variable ends in the same way whatever is stored there. -/
theorem Program.Ignores.store_root {e : Expr} {s s' : State} {r : Except Fault Int32}
    (h : w.program.Ignores e x) (he : Evaluates w 0 .root e s r s')
    (hs : w.program.declarations.length < s.env.size) (v : Int32) :
    Evaluates w 0 .root e (s.store .root x v) r (s'.store .root x v) :=
  he.store_root h.2 v (fun _ hg => hg) hs (.inl h.1)

end

/-! ## In a module -/

/-- Below the node the global variable is looked up, or a function is reached whose body looks up
the variable and does not have it as a parameter. -/
def Module.ReadsGlobal (m : Module) (n : Node) (x : Name) : Prop :=
  (∃ id span, m.arena.Below n (.expr id) ∧ m.arena.expr? id = some ⟨.var x .root, span⟩) ∨
  ∃ g f body id span, m.ReachesBelow n g ∧ m.functions.get? g = some f ∧ f.body = some body ∧
    x ∉ f.params ∧ m.arena.Below (.expr body) (.expr id) ∧
    m.arena.expr? id = some ⟨.var x f.scope, span⟩

theorem Arena.HoldsExpr.exists_var {a : Arena} {scope : ScopeId} {e : Expr} {id : ExprId}
    {x : Name} (h : a.HoldsExpr scope e id) (hx : e.Mentions x) :
    ∃ i span, a.Below (.expr id) (.expr i) ∧ a.expr? i = some ⟨.var x scope, span⟩ := by
  obtain ⟨span, hc⟩ := hx
  obtain ⟨q, hbelow, hq⟩ := exists_below hc (show a.Holds scope (.expr e) (.expr id) from h)
  match q, hq with
  | .expr i, hi => exact ⟨i, span, hbelow, hi⟩

/-- What reads a global variable nowhere ignores it. -/
theorem Module.Represents.ignores {m : Module} {program : Program} (h : m.Represents program)
    {e : Expr} {id : ExprId} {x : Name} (hid : m.arena.HoldsExpr .root e id)
    (hx : ¬ m.ReadsGlobal (.expr id) x) : program.Ignores e x := by
  refine ⟨fun hm => hx (.inl (hid.exists_var hm)), fun g d hg hd => ?_⟩
  by_contra hno
  obtain ⟨hp, hm⟩ := not_or.mp hno
  obtain ⟨body, hf, hb⟩ := h.function hd
  obtain ⟨i, span, hbelow, hi⟩ := hb.exists_var (not_not.mp hm)
  exact hx (.inr ⟨g, _, body, i, span, (h.reachesBelow_expr hid).mpr hg, hf, rfl, hp, hbelow, hi⟩)

end Enquanto

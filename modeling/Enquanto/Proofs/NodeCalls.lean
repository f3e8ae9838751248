import Enquanto.Proofs.Scoping

/-!
# Calls and stores below nodes

Which functions are called below a node, which ones are reached from there through the bodies of
the functions called, and which variables are stored below it. What is below a node is inside the
tree that stands there, so all of this can be read off the trees of a program.

* `Tree.Calls`: the functions that are called inside a tree;
* `Module.CallsBelow`, `Module.Calls` and `Module.ReachesBelow`: the same of the nodes of a module;
* `Module.Represents.reachesBelow_expr` and `Module.Represents.reachesBelow_pred`: a node reaches
  what the tree reaches that stands there;
* `Module.StoresBelow`: a node below stores the variable, as every target of a command is stored
  by one: `Arena.HoldsCommand.storesBelow`.
-/

namespace Enquanto

/-! ## Calls inside trees -/

namespace Tree

/-- A call of the function is inside the tree. -/
def Calls (t : Tree) (f : FunctionId) : Prop :=
  ∃ args span, t.Contains (.expr (.call f args span))

theorem Calls.of_child {t c : Tree} {f : FunctionId} (hc : c ∈ t.children) (h : c.Calls f) :
    t.Calls f := by
  obtain ⟨args, span, h⟩ := h
  exact ⟨args, span, .child hc h⟩

mutual

theorem calls_of_mem_callees {f : FunctionId} : ∀ {e : Expr}, f ∈ e.callees → (expr e).Calls f
  | .int _ _, h | .var _ _, h | .read _, h => nomatch h
  | .neg e _, h => (calls_of_mem_callees (e := e) h).of_child List.mem_cons_self
  | .arith _ _ _ _, h => by
    rcases List.mem_append.mp h with h | h
    · exact (calls_of_mem_callees h).of_child (List.mem_pair.mpr (.inl rfl))
    · exact (calls_of_mem_callees h).of_child (List.mem_pair.mpr (.inr rfl))
  | .call _ args span, h => by
    rcases List.mem_cons.mp h with rfl | h
    · exact ⟨args, span, .refl⟩
    · obtain ⟨arg, harg, hcalls⟩ := exists_calls_of_mem_calleesAll h
      exact hcalls.of_child (List.mem_map_of_mem harg)

theorem exists_calls_of_mem_calleesAll {f : FunctionId} : ∀ {es : List Expr},
    f ∈ Expr.calleesAll es → ∃ e ∈ es, (expr e).Calls f
  | [], h => nomatch h
  | e :: es, h => by
    rcases List.mem_append.mp h with h | h
    · exact ⟨e, List.mem_cons_self, calls_of_mem_callees h⟩
    · obtain ⟨e', he, hcalls⟩ := exists_calls_of_mem_calleesAll h
      exact ⟨e', List.mem_cons_of_mem _ he, hcalls⟩

end

theorem calls_expr_iff {e : Expr} {f : FunctionId} : (expr e).Calls f ↔ f ∈ e.callees := by
  constructor
  · rintro ⟨args, span, h⟩
    obtain ⟨e', he, hsub⟩ := h.exists_callees_subset
    cases he
    exact hsub List.mem_cons_self
  · exact calls_of_mem_callees

/-- What a predicate calls one of its parts calls. -/
theorem calls_pred_iff_children {p : Pred} {f : FunctionId} :
    (pred p).Calls f ↔ ∃ c ∈ children (.pred p), c.Calls f := by
  constructor
  · rintro ⟨args, span, ⟨⟩ | ⟨hc, h⟩⟩
    exact ⟨_, hc, args, span, h⟩
  · rintro ⟨c, hc, h⟩
    exact h.of_child hc

theorem calls_pred_iff {p : Pred} {f : FunctionId} : (pred p).Calls f ↔ f ∈ p.callees := by
  induction p with
  | lit value span => simp [calls_pred_iff_children, children, Pred.callees]
  | not p span ih => simp [calls_pred_iff_children, children, Pred.callees, ih]
  | logic op l r span ihl ihr =>
    simp [calls_pred_iff_children, children, Pred.callees, ihl, ihr]
  | rel op l r span => simp [calls_pred_iff_children, children, Pred.callees, calls_expr_iff]

end Tree

/-! ## Calls below nodes -/

namespace Module

/-- A call of the function stands below the node. -/
def CallsBelow (m : Module) (n : Node) (f : FunctionId) : Prop :=
  ∃ id args span, m.arena.Below n (.expr id) ∧ m.arena.expr? id = some ⟨.call f args, span⟩

/-- The body of the first function contains a call of the second. -/
def Calls (m : Module) (f g : FunctionId) : Prop :=
  ∃ function body, m.functions.get? f = some function ∧ function.body = some body ∧
    m.CallsBelow (.expr body) g

/-- Below the node there is a call of the function, or of one that leads to it through the bodies of
the functions called. -/
def ReachesBelow (m : Module) (n : Node) (g : FunctionId) : Prop :=
  ∃ f, m.CallsBelow n f ∧ Relation.ReflTransGen m.Calls f g

variable {m : Module} {program : Program} {scope : ScopeId}

theorem callsBelow_iff {t : Tree} {n : Node} {f : FunctionId} (ht : m.arena.Holds scope t n) :
    m.CallsBelow n f ↔ t.Calls f := by
  constructor
  · rintro ⟨id, args, span, hbelow, hn⟩
    obtain ⟨t', ht', hc⟩ := hbelow.exists_contained ht
    match t', ht' with
    | .expr e, he =>
      obtain ⟨args', ids, rfl, -⟩ := Arena.HoldsExpr.eq_call he hn
      exact ⟨args', span, hc⟩
  · rintro ⟨args, span, hc⟩
    obtain ⟨q, hbelow, hq⟩ := Arena.exists_below hc ht
    match q, hq with
    | .expr id, ⟨slice, ids, hn, _⟩ => exact ⟨id, slice, span, hbelow, hn⟩

theorem callsBelow_expr {e : Expr} {id : ExprId} {f : FunctionId}
    (he : m.arena.HoldsExpr scope e id) : m.CallsBelow (.expr id) f ↔ f ∈ e.callees :=
  (callsBelow_iff (t := .expr e) (n := .expr id) he).trans Tree.calls_expr_iff

theorem callsBelow_pred {p : Pred} {id : PredId} {f : FunctionId}
    (hp : m.arena.HoldsPred scope p id) : m.CallsBelow (.pred id) f ↔ f ∈ p.callees :=
  (callsBelow_iff (t := .pred p) (n := .pred id) hp).trans Tree.calls_pred_iff

/-- The functions of a module call each other as those of its program do. -/
theorem Represents.calls_iff (h : m.Represents program) {f g : FunctionId} :
    m.Calls f g ↔ program.Calls f g := by
  constructor
  · rintro ⟨function, body, hf, hbody, hcalls⟩
    obtain ⟨d, body', hd, rfl, hholds⟩ := h.exists_declaration hf
    cases hbody
    exact ⟨d, hd, (callsBelow_expr hholds).mp hcalls⟩
  · rintro ⟨d, hd, hg⟩
    obtain ⟨body, hf, hholds⟩ := h.function hd
    exact ⟨_, body, hf, rfl, (callsBelow_expr hholds).mpr hg⟩

theorem Represents.calls_eq (h : m.Represents program) : m.Calls = program.Calls := by
  funext f g
  exact propext h.calls_iff

theorem Represents.reachesBelow_expr (h : m.Represents program) {e : Expr} {id : ExprId}
    {g : FunctionId} (he : m.arena.HoldsExpr scope e id) :
    m.ReachesBelow (.expr id) g ↔ e.Reaches program g := by
  simp only [ReachesBelow, callsBelow_expr he, h.calls_eq]
  rfl

theorem Represents.reachesBelow_pred (h : m.Represents program) {p : Pred} {id : PredId}
    {g : FunctionId} (hp : m.arena.HoldsPred scope p id) :
    m.ReachesBelow (.pred id) g ↔ p.Reaches program g := by
  simp only [ReachesBelow, callsBelow_pred hp, h.calls_eq]
  rfl

end Module

/-! ## Stores below nodes -/

/-- The variable that a command assigns or counts with itself, and not through its parts. -/
def Command.target? : Command → Option Name
  | .assign target _ _ => some target
  | .count var _ _ _ _ _ => some var
  | _ => none

/-- The variable that a node assigns or counts with. -/
def Arena.target? (a : Arena) : Node → Option Name
  | .expr _ | .pred _ => none
  | .command id => (a.command? id).bind fun node =>
    match node.shape with
    | .assign target _ _ => some target
    | .count var _ _ _ _ _ => some var
    | _ => none

/-- A node below assigns the variable, or counts with it. -/
def Module.StoresBelow (m : Module) (n : Node) (x : Name) : Prop :=
  ∃ q, m.arena.Below n q ∧ m.arena.target? q = some x

namespace Tree

/-- A command that assigns the variable, or counts with it, is inside the tree. -/
def Stores (t : Tree) (x : Name) : Prop := ∃ c, t.Contains (.command c) ∧ c.target? = some x

theorem Stores.of_child {t c : Tree} {x : Name} (hc : c ∈ t.children) (h : c.Stores x) :
    t.Stores x := by
  obtain ⟨c', h, hx⟩ := h
  exact ⟨c', .child hc h, hx⟩

mutual

theorem stores_of_mem_targets {x : Name} : ∀ c : Command, x ∈ c.targets → (command c).Stores x
  | .skip _, h | .printInt _ _, h | .printText _ _, h => nomatch h
  | .assign target value span, h => by
    obtain rfl := List.mem_singleton.mp h
    exact ⟨_, .refl, rfl⟩
  | .block body _, h => by
    obtain ⟨c, hc, hs⟩ := exists_stores_of_mem_targetsAll body h
    exact hs.of_child (List.mem_map_of_mem hc)
  | .cond test body others last _, h => by
    rcases List.mem_append.mp h with h | h
    · rcases List.mem_append.mp h with h | h
      · exact (stores_of_mem_targets body h).of_child (by simp [children])
      · obtain ⟨c, hc, hs⟩ := exists_stores_of_mem_targetsBranches others h
        exact hs.of_child (List.mem_append_left _ (List.mem_append_right _ hc))
    · exact (stores_of_mem_targets last h).of_child (by simp [children])
  | .loop test body _, h => (stores_of_mem_targets body h).of_child (by simp [children])
  | .count var start stop step body span, h => by
    rcases List.mem_cons.mp h with rfl | h
    · exact ⟨_, .refl, rfl⟩
    · exact (stores_of_mem_targets body h).of_child (by simp [children])
  | .switch selector cases default _, h => by
    rcases List.mem_append.mp h with h | h
    · obtain ⟨c, hc, hs⟩ := exists_stores_of_mem_targetsCases cases h
      exact hs.of_child (List.mem_append_left _ (List.mem_append_right _ hc))
    · exact (stores_of_mem_targets default h).of_child (by simp [children])

theorem exists_stores_of_mem_targetsAll {x : Name} : ∀ cs : List Command,
    x ∈ Command.targetsAll cs → ∃ c ∈ cs, (command c).Stores x
  | [], h => nomatch h
  | c :: cs, h => by
    rcases List.mem_append.mp h with h | h
    · exact ⟨c, List.mem_cons_self, stores_of_mem_targets c h⟩
    · obtain ⟨c', hc, hs⟩ := exists_stores_of_mem_targetsAll cs h
      exact ⟨c', List.mem_cons_of_mem _ hc, hs⟩

theorem exists_stores_of_mem_targetsBranches {x : Name} : ∀ bs : List (Pred × Command),
    x ∈ Command.targetsBranches bs →
    ∃ t ∈ bs.flatMap (fun b => [pred b.1, command b.2]), t.Stores x
  | [], h => nomatch h
  | (_, body) :: rest, h => by
    rcases List.mem_append.mp h with h | h
    · exact ⟨command body, by simp, stores_of_mem_targets body h⟩
    · obtain ⟨t, ht, hs⟩ := exists_stores_of_mem_targetsBranches rest h
      exact ⟨t, List.mem_append_right _ ht, hs⟩

theorem exists_stores_of_mem_targetsCases {x : Name} : ∀ cs : List (Int32 × Command),
    x ∈ Command.targetsCases cs → ∃ t ∈ cs.map (command ·.2), t.Stores x
  | [], h => nomatch h
  | (_, body) :: rest, h => by
    rcases List.mem_append.mp h with h | h
    · exact ⟨command body, by simp, stores_of_mem_targets body h⟩
    · obtain ⟨t, ht, hs⟩ := exists_stores_of_mem_targetsCases rest h
      exact ⟨t, List.mem_cons_of_mem _ ht, hs⟩

end

end Tree

theorem Arena.HoldsCommand.target?_eq {a : Arena} {scope : ScopeId} {c : Command} {id : CommandId}
    (h : a.HoldsCommand scope c id) {x : Name} (hx : c.target? = some x) :
    a.target? (.command id) = some x := by
  cases c with
  | assign target value span =>
    obtain ⟨v, hn, -⟩ := h
    simpa [target?, hn, Command.target?] using hx
  | count var start stop step body span =>
    obtain ⟨i, j, k, b, hn, -⟩ := h
    simpa [target?, hn, Command.target?] using hx
  | skip _ | block _ _ | cond _ _ _ _ _ | loop _ _ _ | switch _ _ _ _ | printInt _ _
  | printText _ _ => cases hx

/-- A node below stores each target of the command. -/
theorem Arena.HoldsCommand.storesBelow {m : Module} {scope : ScopeId} {c : Command}
    {id : CommandId} (h : m.arena.HoldsCommand scope c id) {x : Name} (hx : x ∈ c.targets) :
    m.StoresBelow (.command id) x := by
  obtain ⟨c', hc, hx⟩ := Tree.stores_of_mem_targets c hx
  have hholds : m.arena.Holds scope (.command c) (.command id) := h
  obtain ⟨q, hbelow, hq⟩ := exists_below hc hholds
  match q, hq with
  | .command i, hq => exact ⟨.command i, hbelow, HoldsCommand.target?_eq hq hx⟩

end Enquanto

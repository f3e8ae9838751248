import Enquanto.Proofs.CallGraph
import Enquanto.Proofs.InPlaceParsing
import Enquanto.Proofs.SourceSpans

/-!
# Scopes and callees

Every function has a scope of its own right below the root, and what its body looks up is looked up
there; commands look up and store in the root. A call leads to the latest function of its name with
a header before the call, and has as many arguments as that function has parameters.

* `Arena.scope?`: the scope that a node carries;
* `Module.Scoped`: the rules, for all nodes of a module;
* `Module.parse_scoped`: the modules of sources, which are parsed in place, satisfy them.
-/

namespace Enquanto

open Grammar

namespace Arena

/-- The scope that a node looks its variable up in, or stores it in. -/
def scope? (a : Arena) : Node → Option ScopeId
  | .expr id => (a.expr? id).bind fun node =>
    match node.shape with
    | .var _ scope => some scope
    | _ => none
  | .pred _ => none
  | .command id => (a.command? id).bind fun node =>
    match node.shape with
    | .assign _ scope _ | .count _ scope _ _ _ _ => some scope
    | _ => none

variable {a : Arena} {scope scope' : ScopeId}

theorem HoldsExpr.scope?_eq {e : Expr} {id : ExprId} (h : a.HoldsExpr scope e id)
    (hs : a.scope? (.expr id) = some scope') : scope' = scope := by
  cases e with
  | int _ _ | read _ =>
    have hn : a.expr? id = some _ := h
    simp [scope?, hn] at hs
  | var _ _ =>
    have hn : a.expr? id = some _ := h
    simpa [scope?, hn, eq_comm] using hs
  | neg _ _ =>
    obtain ⟨i, hn, -⟩ := h
    simp [scope?, hn] at hs
  | arith _ _ _ _ =>
    obtain ⟨l, r, hn, -⟩ := h
    simp [scope?, hn] at hs
  | call _ _ _ =>
    obtain ⟨slice, ids, hn, -⟩ := h
    simp [scope?, hn] at hs

theorem HoldsCommand.scope?_eq {c : Command} {id : CommandId} (h : a.HoldsCommand scope c id)
    (hs : a.scope? (.command id) = some scope') : scope' = scope := by
  cases c with
  | skip _ | printText _ _ =>
    have hn : a.command? id = some _ := h
    simp [scope?, hn] at hs
  | assign _ _ _ =>
    obtain ⟨v, hn, -⟩ := h
    simpa [scope?, hn, eq_comm] using hs
  | printInt _ _ =>
    obtain ⟨v, hn, -⟩ := h
    simp [scope?, hn] at hs
  | block _ _ =>
    obtain ⟨slice, ids, hn, -⟩ := h
    simp [scope?, hn] at hs
  | cond _ _ _ _ _ =>
    obtain ⟨t, b, slice, os, l, hn, -⟩ := h
    simp [scope?, hn] at hs
  | loop _ _ _ =>
    obtain ⟨t, b, hn, -⟩ := h
    simp [scope?, hn] at hs
  | count _ _ _ _ _ _ =>
    obtain ⟨i, j, k, b, hn, -⟩ := h
    simpa [scope?, hn, eq_comm] using hs
  | switch _ _ _ _ =>
    obtain ⟨s, slice, cs, d, hn, -⟩ := h
    simp [scope?, hn] at hs

/-- What is below the node of a tree carries the scope of the tree, or none. -/
theorem Below.scope?_eq {t : Tree} {n q : Node} (h : a.Below n q) (ht : a.Holds scope t n)
    (hs : a.scope? q = some scope') : scope' = scope := by
  obtain ⟨t', ht', -⟩ := h.exists_holds (P := fun _ => True) (fun _ _ _ _ => trivial) ht trivial
  match t', q, ht' with
  | .expr _, .expr _, h => exact HoldsExpr.scope?_eq h hs
  | .pred _, .pred _, _ => simp [scope?] at hs
  | .command _, .command _, h => exact HoldsCommand.scope?_eq h hs

theorem HoldsExpr.eq_call {e : Expr} {id : ExprId} {f : FunctionId} {slice : Slice} {span : Span}
    (h : a.HoldsExpr scope e id) (hn : a.expr? id = some ⟨.call f slice, span⟩) :
    ∃ args ids, e = .call f args span ∧ a.args? slice = some ids ∧
      a.HoldsExprs scope args ids := by
  cases e with
  | int _ _ | var _ _ | read _ => cases hn.symm.trans h
  | neg _ _ =>
    obtain ⟨i, hn', -⟩ := h
    cases hn.symm.trans hn'
  | arith _ _ _ _ =>
    obtain ⟨l, r, hn', -⟩ := h
    cases hn.symm.trans hn'
  | call _ args _ =>
    obtain ⟨slice', ids, hn', hs, -, hargs⟩ := h
    cases hn.symm.trans hn'
    exact ⟨args, ids, rfl, hs, hargs⟩

end Arena

/-- A part of an expression is an expression, and calls what the whole calls. -/
theorem Tree.exists_callees_subset {e : Expr} {child : Tree} (h : child ∈ children (.expr e)) :
    ∃ e', child = .expr e' ∧ e'.callees ⊆ e.callees := by
  cases e with
  | int _ _ | var _ _ | read _ => cases h
  | neg operand _ =>
    obtain rfl := List.mem_singleton.mp h
    exact ⟨operand, rfl, List.Subset.refl _⟩
  | arith _ left right _ =>
    rcases List.mem_pair.mp h with rfl | rfl
    · exact ⟨left, rfl, List.subset_append_left ..⟩
    · exact ⟨right, rfl, List.subset_append_right ..⟩
  | call _ args _ =>
    obtain ⟨arg, harg, rfl⟩ := List.mem_map.mp h
    refine ⟨arg, rfl, fun g hg => List.mem_cons_of_mem _ ?_⟩
    exact Expr.mem_calleesAll.mpr ⟨arg, harg, hg⟩

/-- What is inside an expression is an expression, and calls what the whole calls. -/
theorem Tree.Contains.exists_callees_subset {e : Expr} {t : Tree} (h : (expr e).Contains t) :
    ∃ e', t = .expr e' ∧ e'.callees ⊆ e.callees := by
  generalize ht : expr e = t₀ at h
  induction h generalizing e with
  | refl => exact ⟨e, ht.symm, List.Subset.refl _⟩
  | child hc _ ih =>
    subst ht
    obtain ⟨e₁, rfl, hsub⟩ := Tree.exists_callees_subset hc
    obtain ⟨e', rfl, hsub'⟩ := ih rfl
    exact ⟨e', rfl, List.Subset.trans hsub' hsub⟩

/-- What is called below the node of an expression is called in the expression. -/
theorem Arena.Below.mem_callees {a : Arena} {scope : ScopeId} {e : Expr} {id id' : ExprId}
    {f : FunctionId} {slice : Slice} {span : Span} (h : a.Below (.expr id) (.expr id'))
    (he : a.HoldsExpr scope e id) (hn : a.expr? id' = some ⟨.call f slice, span⟩) :
    f ∈ e.callees := by
  obtain ⟨t, ht, hc⟩ := h.exists_contained (t := .expr e) he
  obtain ⟨e', rfl, hsub⟩ := hc.exists_callees_subset
  obtain ⟨args, ids, rfl, -⟩ := HoldsExpr.eq_call ht hn
  exact hsub (List.mem_cons_self ..)

theorem Slice.length_eq_count {α : Type} {slice : Slice} {table : Array α} {xs : List α}
    (h : slice.of? table = some xs) : xs.length = slice.count := by
  obtain ⟨hle, rfl⟩ := Slice.of?_eq_some_iff.mp h
  rw [List.length_take, List.length_drop, Array.length_toList]
  omega

namespace Module

/-- Where a call of `g` at a span leads: the tokens name `x` there, and `f` is the last function of
that name with a header before the call, as far as offsets tell what is before. It has as many
parameters as the call has arguments. -/
structure Callee (m : Module) (tokens : List (Token Name)) (span : Span) (g : FunctionId)
    (args : Slice) (x : Name) (f : Function) : Prop where
  named : ∃ s, identifierAt x s ∈ tokens ∧ s.start = span.start
  function : m.functions.get? g = some f
  name : f.name = x
  before : f.span.stop ≤ span.start
  latest : ∀ g' f', m.functions.get? g' = some f' → f'.name = x → f'.span.stop ≤ span.start →
    f'.span.stop < Span.maxOffset → g'.index ≤ g.index
  arity : ∃ ids, m.arena.args? args = some ids ∧ ids.length = f.arity ∧ args.count = f.arity

/-- Scopes belong to functions, nodes are in the scopes that they should be in, and calls lead to
the latest functions of their names. -/
structure Scoped (m : Module) (tokens : List (Token Name)) : Prop where
  scopes_size : m.scopes.size = m.functions.size + 1
  /-- A function has its own scope, with the root behind it, and a body. The body is in that scope
  and calls no later function. -/
  function : ∀ (k : Nat) (f : Function), m.functions.get? ⟨k⟩ = some f →
    f.scope = ⟨k + 1⟩ ∧ m.scopes.links[k + 1]? = some .root ∧
    ∃ body, f.body = some body ∧
      (∀ n scope, m.arena.Below (.expr body) n → m.arena.scope? n = some scope →
        scope = ⟨k + 1⟩) ∧
      ∀ id g args span, m.arena.Below (.expr body) (.expr id) →
        m.arena.expr? id = some ⟨.call g args, span⟩ → g.index ≤ k
  /-- Top-level commands are in the root scope. -/
  command : ∀ id ∈ m.commands, ∀ n scope, m.arena.Below (.command id) n →
    m.arena.scope? n = some scope → scope = .root
  call : ∀ id g args span, m.arena.expr? id = some ⟨.call g args, span⟩ →
    ∃ x f, m.Callee tokens span g args x f

section
variable {m : Module} {program : Program}

/-- Every function is a declaration of the program. -/
theorem Represents.exists_declaration (h : m.Represents program) {id : FunctionId} {f : Function}
    (hf : m.functions.get? id = some f) : ∃ d body, program.declarations[id.index]? = some d ∧
      f = ⟨d.name, d.params, some body, id.scope, d.span⟩ ∧
      m.arena.HoldsExpr id.scope d.body body := by
  have hi : id.index < m.functions.size := (Array.getElem?_eq_some_iff.mp hf).1
  rw [h.functions_size] at hi
  obtain ⟨body, hf', hbody⟩ := h.function (List.getElem?_eq_getElem hi)
  cases hf.symm.trans hf'
  exact ⟨_, body, List.getElem?_eq_getElem hi, rfl, hbody⟩

/-- The functions of a module are looked up as the declarations of its program are. -/
theorem Represents.exists_callee (h : m.Represents program) {tokens : List (Token Name)} {a b : Nat}
    {names : Names} (hp : Program.parse names tokens = .ok program)
    (hruns : Runs a b (readable tokens)) {id : ExprId} {g : FunctionId} {args : Slice} {span : Span}
    (hn : m.arena.expr? id = some ⟨.call g args, span⟩) :
    ∃ x f, m.Callee tokens span g args x f := by
  obtain ⟨scope, e, he, hholds⟩ := h.arena.exists_holdsExpr hn
  obtain ⟨es, ids, rfl, hargs, hes⟩ := hholds.eq_call hn
  obtain ⟨-, x, s, hx, hstart, d, hd, rfl, hbefore, hlatest⟩ :=
    (Program.parse_readFrom hp hruns).exprs _ he
  obtain ⟨body, hf, -⟩ := h.function hd
  obtain ⟨d', hd', harity⟩ := Program.resolves_headers_iff.mp (Program.parse_resolved hp _ _ _ _ he)
  cases hd.symm.trans hd'
  have hlength : ids.length = d.params.length := by rw [hes.length_eq, harity]
  refine ⟨d.name, _, ⟨s, List.takeWhile_subset _ hx, hstart⟩, hf, rfl, hbefore,
    fun g' f' hf' hname hstop hnear => ?_, ids, hargs, hlength, ?_⟩
  · obtain ⟨d', body', hd', rfl, -⟩ := h.exists_declaration hf'
    exact hlatest g'.index d' hd' hname hstop hnear
  · rw [← Slice.length_eq_count hargs]
    exact hlength

end

/-- Scopes and callees in the module of a source: the one that its tokens are parsed into in place.
If offsets reach to the end of the source, no header is at the last one, and offsets tell all
headers before a call. -/
theorem parse_scoped (source : String) (names names' : Names) (m : Module)
    (h : Module.parse source names = (.ok m, names')) :
    Drafting.parse names' (lex source names).1 = .ok m ∧ m.Scoped (lex source names).1 ∧
    (source.utf8ByteSize ≤ Span.maxOffset →
      ∀ g f, m.functions.get? g = some f → f.span.stop < Span.maxOffset) := by
  obtain ⟨program, rfl, hp⟩ := exists_program_of_parse h
  have hm := ofProgram_represents program
  have hplace : Drafting.parse names' (lex source names).1 = .ok (ofProgram program) := by
    rw [Drafting.parse_eq, hp]
    rfl
  have hnear (hsize : source.utf8ByteSize ≤ Span.maxOffset) (g : FunctionId) (f : Function)
      (hf : (ofProgram program).functions.get? g = some f) : f.span.stop < Span.maxOffset := by
    obtain ⟨d, body, hd, rfl, -⟩ := hm.exists_declaration hf
    have hstop := Program.parse_stop_lt hp (runs_lex source names)
      (fun t => start_lt_stop_of_mem_readable hsize) d (List.mem_of_getElem? hd)
    exact Nat.lt_of_lt_of_le hstop (Nat.min_le_right ..)
  refine ⟨hplace, ⟨hm.scopes_size, fun k f hf => ?_, fun id hid n scope hn hscope => ?_,
    fun id g args span hn => hm.exists_callee hp (runs_lex source names) hn⟩, hnear⟩
  · obtain ⟨d, body, hd, rfl, hbody⟩ := hm.exists_declaration hf
    refine ⟨rfl, ?_, body, rfl, fun n scope hn hscope => ?_, fun id g args span hbelow hn => ?_⟩
    · have hk := (List.getElem?_eq_some_iff.mp hd).1
      rw [← Array.getElem?_toList, hm.scopes, List.getElem?_replicate, if_pos (by simpa using hk)]
    · exact hn.scope?_eq (t := .expr d.body) hbody hscope
    · exact Program.parse_descends hp k d hd g (hbelow.mem_callees hbody hn)
  · obtain ⟨t, -, ht⟩ := Arena.exists_child hm.commands.forall₂ (List.mem_map_of_mem hid)
    exact hn.scope?_eq ht hscope

/-- A function that is declared twice and calls itself, with a call before its second
declaration. -/
def redeclared : String := "def f(x) = x; escreva f(1); def f(x, y) = f(y, x); x := f(1, 2)"

/-- The program of `redeclared`. -/
def redeclaredProgram : Program :=
  [.declare ⟨⟨1⟩, [⟨2⟩], .var ⟨2⟩ ⟨11, 12⟩, ⟨0, 10⟩⟩,
    .command (.printInt (.call ⟨0⟩ [.int 1 ⟨24, 25⟩] ⟨22, 26⟩) ⟨14, 26⟩),
    .declare ⟨⟨1⟩, [⟨2⟩, ⟨3⟩],
      .call ⟨1⟩ [.var ⟨3⟩ ⟨44, 45⟩, .var ⟨2⟩ ⟨47, 48⟩] ⟨42, 49⟩, ⟨28, 41⟩⟩,
    .command (.assign ⟨2⟩ (.call ⟨1⟩ [.int 1 ⟨58, 59⟩, .int 2 ⟨61, 62⟩] ⟨56, 63⟩) ⟨51, 63⟩)]

/-- The first call keeps its function; the call in the second body and the one after it lead to the
second function. -/
theorem parse_scoped_redeclared : ∃ (m : Module) (names' : Names),
    Module.parse redeclared .initial = (.ok m, names') ∧
    Drafting.parse names' (lex redeclared .initial).1 = .ok m ∧
    m.Scoped (lex redeclared .initial).1 ∧
    (∀ g f, m.functions.get? g = some f → f.span.stop < Span.maxOffset) ∧
    (m.arena.exprs.toList.filterMap fun node =>
      match node.shape with
      | .call g _ => some g
      | _ => none) = [⟨0⟩, ⟨1⟩, ⟨1⟩] := by
  have h : Module.parse redeclared .initial =
      (.ok (.ofProgram redeclaredProgram), ⟨#["", "f", "x", "y"]⟩) := by
    decide +kernel
  obtain ⟨hp, hscoped, hnear⟩ := Module.parse_scoped _ _ _ _ h
  exact ⟨_, _, h, hp, hscoped, hnear (by decide +kernel), by decide +kernel⟩

end Module

end Enquanto

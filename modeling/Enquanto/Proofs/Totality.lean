import Enquanto.Proofs.Invariants

/-!
# Evaluation ends

The rules give every expression and every predicate of a program a result. A call adds one to the
number of open calls, which is bounded, and all else descends in the tree.

* `exists_evaluates`: every expression has a value or a fault;
* `exists_decides`: so has every predicate.
-/

namespace Enquanto

open Flattening

variable {w : Setting}

section
variable {depth : Nat}

mutual

/-- Expressions have a result inside `depth` open calls if bodies have one inside one call more. -/
theorem exists_evaluates_of_bodies (hr : w.program.flat.Resolved w.program.headers)
    (hbody : depth < w.maxDepth → ∀ i d s, w.program.declarations[i]? = some d →
      ∃ r s', Evaluates w (depth + 1) ⟨i + 1⟩ d.body s r s') (scope : ScopeId) :
    ∀ (e : Expr) (s : State), (e.flat scope).Within w.program.flat →
      ∃ r s', Evaluates w depth scope e s r s'
  | .int _ _, _, _ => ⟨_, _, .int⟩
  | .var _ _, _, _ => ⟨_, _, .var⟩
  | .neg e _, s, hw => by
    obtain ⟨r, s', h⟩ :=
      exists_evaluates_of_bodies hr hbody scope e s (within_append.mp hw).1
    cases r with
    | ok value => exact ⟨_, _, .neg h⟩
    | error f => exact ⟨_, _, .neg_fault h⟩
  | .arith op l r _, s, hw => by
    obtain ⟨hwl, hwr, -⟩ := within_arith hw
    obtain ⟨rl, s₁, hl⟩ := exists_evaluates_of_bodies hr hbody scope l s hwl
    cases rl with
    | error f => exact ⟨_, _, .arith_left hl⟩
    | ok x =>
      obtain ⟨rr, s₂, hr⟩ := exists_evaluates_of_bodies hr hbody scope r s₁ hwr
      cases rr with
      | error f => exact ⟨_, _, .arith_right hl hr⟩
      | ok y =>
        cases hop : op.apply x y with
        | some value => exact ⟨_, _, .arith hl hr hop⟩
        | none => exact ⟨_, _, .arith_undefined hl hr hop⟩
  | .read _, s, _ => by
    rcases hread : s.input.readInt with ⟨error | value, input⟩
    · exact ⟨_, _, .read_fault hread⟩
    · exact ⟨_, _, .read hread⟩
  | .call function args _, s, hw => by
    obtain ⟨hwargs, hcall⟩ := within_call hw
    obtain ⟨d, hd, hn⟩ := Program.resolves_headers_iff.mp (hr _ _ _ _ hcall)
    obtain ⟨rb, s₁, hb⟩ :=
      exists_binds_of_bodies hr hbody scope function.scope args d.params s hwargs
    cases rb with
    | error f => exact ⟨_, _, .call_args hd hn.symm hb⟩
    | ok _ =>
      by_cases hdepth : depth < w.maxDepth
      · obtain ⟨r, s₂, h⟩ := hbody hdepth function.index d s₁ hd
        exact ⟨_, _, .call hd hn.symm hb hdepth h⟩
      · exact ⟨_, _, .call_limit hd hn.symm hb hdepth⟩

theorem exists_binds_of_bodies (hr : w.program.flat.Resolved w.program.headers)
    (hbody : depth < w.maxDepth → ∀ i d s, w.program.declarations[i]? = some d →
      ∃ r s', Evaluates w (depth + 1) ⟨i + 1⟩ d.body s r s') (scope callee : ScopeId) :
    ∀ (args : List Expr) (params : List Name) (s : State),
      (Expr.flatAll scope args).Within w.program.flat →
      ∃ r s', Binds w depth scope callee (params.zip args) s r s'
  | [], params, s, _ => ⟨_, _, by rw [List.zip_nil_right]; exact .nil⟩
  | _ :: _, [], s, _ => ⟨_, _, .nil⟩
  | e :: es, param :: params, s, hw => by
    obtain ⟨hwe, hwes⟩ := within_append.mp hw
    obtain ⟨r, s₁, h⟩ := exists_evaluates_of_bodies hr hbody scope e s hwe
    cases r with
    | error f => exact ⟨_, _, .fault h⟩
    | ok value =>
      obtain ⟨r, s₂, hs⟩ := exists_binds_of_bodies hr hbody scope callee es params
        (s₁.store callee param value) hwes
      exact ⟨_, _, .cons h hs⟩

end

end

/-- Every expression of a program has a value or a fault. -/
theorem exists_evaluates (hr : w.program.flat.Resolved w.program.headers) (depth : Nat)
    {scope : ScopeId} {e : Expr} (hw : (e.flat scope).Within w.program.flat) (s : State) :
    ∃ r s', Evaluates w depth scope e s r s' := by
  -- How many more calls may be opened.
  induction hroom : w.maxDepth - depth generalizing depth scope e s with
  | zero =>
    refine exists_evaluates_of_bodies hr (fun hdepth => ?_) scope e s hw
    omega
  | succ room ih =>
    refine exists_evaluates_of_bodies hr (fun hdepth i d s hd => ?_) scope e s hw
    exact ih (depth + 1) (Program.body_within hd) s (by omega)

/-- Every predicate of a program has a truth value or a fault. -/
theorem exists_decides (hr : w.program.flat.Resolved w.program.headers) {scope : ScopeId}
    (p : Pred) (hw : (p.flat scope).Within w.program.flat) (s : State) :
    ∃ r s', Decides w scope p s r s' := by
  induction p generalizing s with
  | lit value span => exact ⟨_, _, .lit⟩
  | not p span ih =>
    obtain ⟨r, s', h⟩ := ih (within_append.mp hw).1 s
    cases r with
    | ok value => exact ⟨_, _, .not h⟩
    | error f => exact ⟨_, _, .not_fault h⟩
  | logic op l r span ihl ihr =>
    obtain ⟨hwl, hwr⟩ := within_append.mp (within_append.mp hw).1
    obtain ⟨rl, s₁, hl⟩ := ihl hwl s
    cases rl with
    | error f => exact ⟨_, _, .logic_left hl⟩
    | ok x =>
      obtain ⟨rr, s₂, hr⟩ := ihr hwr s₁
      cases rr with
      | error f => exact ⟨_, _, .logic_right hl hr⟩
      | ok y => exact ⟨_, _, .logic hl hr⟩
  | rel op l r span =>
    obtain ⟨hwl, hwr⟩ := within_append.mp (within_append.mp hw).1
    obtain ⟨rl, s₁, hl⟩ := exists_evaluates hr 0 hwl s
    cases rl with
    | error f => exact ⟨_, _, .rel_left hl⟩
    | ok x =>
      obtain ⟨rr, s₂, hr⟩ := exists_evaluates hr 0 hwr s₁
      cases rr with
      | error f => exact ⟨_, _, .rel_right hl hr⟩
      | ok y => exact ⟨_, _, .rel hl hr⟩

end Enquanto

import Enquanto.Proofs.GlobalReads

/-!
# Counting loops as loops

A counting loop does what its expansion does: assign the first value, and then, while the variable
has not passed the bound, run the body and move the variable. The loop tests the moved value before
it stores it, and the expansion stores it before it tests it, so that the bound must not depend on
the variable; and the loop ends where the expansion would wrap around, so that no advance may
overflow. This is said here by the rules.

* `CountTree.expansion`: the expansion of a loop;
* `CountTree.Unrolls`: what the expansion needs of a loop;
* `CountTree.Unrolls.exists_overruns` and `CountTree.Unrolls.exists_turns`: what is left of a loop
  when its body starts, and a turn of the expansion with all that follows;
* `CountTree.Unrolls.exists_expanded` and `CountTree.Unrolls.exists_count`: the loop and its
  expansion, of which one ends if the other does. `CountTree.Follows` says how.
-/

namespace Enquanto

open Filter Run Flattening

/-! ## Loops by the rules -/

section
variable {w : Setting} {scope : ScopeId} {test : Pred} {body : Command} {span : Span}
  {s s₁ s' : State} {r : Except Fault Unit}

/-- A loop that passes its test runs its body, and then itself. -/
theorem Executes.loop_of_sequence (ht : Decides w scope test s (.ok true) s₁)
    (h : Executes w scope (.sequence [body, .loop test body span]) s₁ r s') :
    Executes w scope (.command (.loop test body span)) s r s' := by
  cases h with
  | sequence_fault h => exact .loop_body ht h
  | sequence_cons h hrest =>
    cases hrest with
    | sequence_fault hrest => exact .loop_turn ht h hrest
    | sequence_cons hrest hnil =>
      cases hnil
      exact .loop_turn ht h hrest

/-- One command behind another. -/
theorem Executes.sequence_pair {c d : Command} (hc : Executes w scope (.command c) s (.ok ()) s₁)
    (hd : Executes w scope (.command d) s₁ r s') :
    Executes w scope (.sequence [c, d]) s r s' := by
  cases r with
  | ok _ => exact .sequence_cons hc (.sequence_cons hd .sequence_nil)
  | error f => exact .sequence_cons hc (.sequence_fault hd)

theorem Executes.of_sequence_pair {c d : Command}
    (h : Executes w scope (.sequence [c, d]) s r s') :
    (∃ f, r = .error f ∧ Executes w scope (.command c) s (.error f) s') ∨
      ∃ s₁, Executes w scope (.command c) s (.ok ()) s₁ ∧
        Executes w scope (.command d) s₁ r s' := by
  cases h with
  | sequence_fault h => exact .inl ⟨_, rfl, h⟩
  | sequence_cons h hrest =>
    refine .inr ⟨_, h, ?_⟩
    cases hrest with
    | sequence_fault hrest => exact hrest
    | sequence_cons hrest hnil =>
      cases hnil
      exact hrest

end

/-- The sum is the only value that is the sum as an integer. -/
theorem Int32.add_eq_of_toInt {x y next : Int32} (h : next.toInt = x.toInt + y.toInt) :
    x + y = next := by
  rw [← Int32.ofInt_toInt next, h, Int32.ofInt_add, Int32.ofInt_toInt, Int32.ofInt_toInt]

/-! ## States but for one variable -/

/-- The second state is the first one but for the global variable. -/
structure State.SameBut (x : Name) (s t : State) : Prop where
  output : t.output = s.output
  input : t.input = s.input
  size : t.env.size = s.env.size
  legacy : ∀ scope, t.env.legacy scope = s.env.legacy scope
  getLocal? : ∀ scope y, ¬ (scope = .root ∧ y = x) →
    t.env.getLocal? scope y = s.env.getLocal? scope y

theorem State.SameBut.refl {x : Name} (s : State) : s.SameBut x s :=
  ⟨rfl, rfl, rfl, fun _ => rfl, fun _ _ _ => rfl⟩

theorem State.SameBut.store {x : Name} {s : State} (hs : 0 < s.env.size) (v : Int32) :
    s.SameBut x (s.store .root x v) where
  output := rfl
  input := rfl
  size := Environment.size_store ..
  legacy := fun _ => Environment.legacy_store
  getLocal? := by
    intro scope y h
    refine Environment.getLocal?_store_of_ne ?_
    rwa [Environment.clamp_of_lt (show ScopeId.root.index < s.env.size from hs)]

/-! ## The expansion of a counting loop -/

/-- The parts of a counting loop, as trees. -/
structure CountTree where
  var : Name
  start : Expr
  stop : Expr
  step : Expr
  body : Command

namespace CountTree

def count (c : CountTree) (span : Span) : Command := .count c.var c.start c.stop c.step c.body span

/-- The variable has not passed the bound. -/
def test (c : CountTree) (place : Span) : Pred := .rel .le (.var c.var place) c.stop place

/-- The variable is moved by one step. -/
def move (c : CountTree) (place : Span) : Command :=
  .assign c.var (.arith .add (.var c.var place) c.step place) place

/-- The body, and then the move of the variable. -/
def turn (c : CountTree) (place : Span) : Command := .block [c.body, c.move place] place

def loop (c : CountTree) (place : Span) : Command := .loop (c.test place) (c.turn place) place

/-- The first value is assigned, and then the loop is run. -/
def expansion (c : CountTree) (place : Span) : Command :=
  .block [.assign c.var c.start place, c.loop place] place

/-- The variable with a value. -/
def set (c : CountTree) (s : State) (value : Int32) : State := s.store .root c.var value

variable {c : CountTree} {w : Setting} {place : Span} {s t t' u s' : State} {r : Except Fault Unit}

theorem lookup_set (hs : 0 < s.env.size) (v : Int32) :
    (c.set s v).env.lookup .root c.var = v := by
  have hroot : ScopeId.root.index < s.env.size := hs
  refine Environment.lookup_of_getLocal? ?_ (Environment.getLocal?_store_self hroot)
  rwa [set, State.store, Environment.size_store]

/-- The test reads the variable, and then evaluates the bound. -/
theorem decides_test_iff {b : Except Fault Bool} :
    Decides w .root (c.test place) t b t' ↔ ∃ bound, Evaluates w 0 .root c.stop t bound t' ∧
      b = bound.map fun bound => decide (t.env.lookup .root c.var ≤ bound) := by
  constructor
  · intro h
    cases h with
    | rel hl hr =>
      cases hl
      exact ⟨_, hr, rfl⟩
    | rel_left hl => cases hl
    | rel_right hl hr =>
      cases hl
      exact ⟨_, hr, rfl⟩
  · rintro ⟨bound | bound, h, rfl⟩
    · exact .rel_right .var h
    · exact .rel .var h

/-- A turn of the expansion, from where the test was passed. -/
inductive Moves (c : CountTree) (w : Setting) (t : State) : Except Fault Unit → State → Prop
  | body {f : Fault} {t' : State} :
    Executes w .root (.command c.body) t (.error f) t' → Moves c w t (.error f) t'
  | step {f : Fault} {t₁ t' : State} :
    Executes w .root (.command c.body) t (.ok ()) t₁ →
    Evaluates w 0 .root c.step t₁ (.error f) t' → Moves c w t (.error f) t'
  | moved {amount : Int32} {t₁ t₂ : State} :
    Executes w .root (.command c.body) t (.ok ()) t₁ →
    Evaluates w 0 .root c.step t₁ (.ok amount) t₂ →
    Moves c w t (.ok ()) (c.set t₂ (t₁.env.lookup .root c.var + amount))

theorem executes_turn_iff :
    Executes w .root (.command (c.turn place)) t r t' ↔ c.Moves w t r t' := by
  constructor
  · intro h
    cases h with
    | block hseq =>
      obtain ⟨f, rfl, h⟩ | ⟨t₁, hbody, h⟩ := hseq.of_sequence_pair
      · exact .body h
      · cases h with
        | assign h =>
          cases h with
          | arith hl hr hop =>
            cases hl
            cases hop
            exact .moved hbody hr
        | assign_fault h =>
          cases h with
          | arith_undefined _ _ hop => cases hop
          | arith_left hl => cases hl
          | arith_right hl hr =>
            cases hl
            exact .step hbody hr
  · rintro (h | ⟨hbody, hstep⟩ | ⟨hbody, hstep⟩)
    · exact .block (.sequence_fault h)
    · exact .block (.sequence_pair hbody (.assign_fault (.arith_right .var hstep)))
    · exact .block (.sequence_pair hbody (.assign (.arith .var hstep rfl)))

theorem executes_turn {t₁ t₂ : State} {amount next : Int32} (place : Span)
    (hbody : Executes w .root (.command c.body) t (.ok ()) t₁)
    (hstep : Evaluates w 0 .root c.step t₁ (.ok amount) t₂)
    (hsum : next.toInt = (t₁.env.lookup .root c.var).toInt + amount.toInt) :
    Executes w .root (.command (c.turn place)) t (.ok ()) (c.set t₂ next) := by
  rw [← Int32.add_eq_of_toInt hsum]
  exact executes_turn_iff.mpr (.moved hbody hstep)

/-! ## What the expansion needs -/

/-- What the expansion needs of a loop. The states with `starts` are those in which the body of the
loop starts: from one to the next, no advance overflows. The bound always has a value or a fault,
which does not depend on the variable. -/
structure Unrolls (c : CountTree) (w : Setting) (starts : State → Prop) : Prop where
  size : ∀ {t r t'}, starts t → Executes w .root (.command c.body) t r t' →
    w.program.declarations.length < t'.env.size
  next : ∀ {t t₁ t₂ t₃ amount next bound}, starts t →
    Executes w .root (.command c.body) t (.ok ()) t₁ →
    Evaluates w 0 .root c.step t₁ (.ok amount) t₂ →
    next.toInt = (t₁.env.lookup .root c.var).toInt + amount.toInt →
    Evaluates w 0 .root c.stop t₂ (.ok bound) t₃ → next ≤ bound → starts (c.set t₃ next)
  advance : ∀ {t t₁ t₂ amount}, starts t → Executes w .root (.command c.body) t (.ok ()) t₁ →
    Evaluates w 0 .root c.step t₁ (.ok amount) t₂ →
    ∃ next : Int32, next.toInt = (t₁.env.lookup .root c.var).toInt + amount.toInt
  ignores : w.program.Ignores c.stop c.var
  total : ∀ t, ∃ r t', Evaluates w 0 .root c.stop t r t'
  unique : ∀ {t r t' r₁ t₁}, Evaluates w 0 .root c.stop t r t' →
    Evaluates w 0 .root c.stop t r₁ t₁ → r = r₁ ∧ t' = t₁

/-- The first value has passed the bound. -/
def Skips (c : CountTree) (w : Setting) (s s' : State) : Prop :=
  ∃ first s₁ bound, Evaluates w 0 .root c.start s (.ok first) s₁ ∧
    Evaluates w 0 .root c.stop (c.set s₁ first) (.ok bound) s' ∧ ¬ first ≤ bound

/-- How the expansion ends where the loop ends in `s'`. In a fault the variable may have been moved
already, and without one it has been: by the amount of the last advance, past the bound. -/
inductive Overruns (c : CountTree) (w : Setting) (starts : State → Prop) (s' : State) :
    Except Fault Unit → State → Prop
  | same {f : Fault} : Overruns c w starts s' (.error f) s'
  | moved {f : Fault} {next : Int32} : Overruns c w starts s' (.error f) (c.set s' next)
  | past {t t₁ t₂ : State} {amount next bound : Int32} :
    starts t → Executes w .root (.command c.body) t (.ok ()) t₁ →
    Evaluates w 0 .root c.step t₁ (.ok amount) t₂ →
    next.toInt = (t₁.env.lookup .root c.var).toInt + amount.toInt →
    Evaluates w 0 .root c.stop t₂ (.ok bound) s' → ¬ next ≤ bound →
    Overruns c w starts s' (.ok ()) (c.set s' next)

/-- How the expansion ends where the loop, run from `s`, ends in `s'`. -/
def Follows (c : CountTree) (w : Setting) (starts : State → Prop) (s s' : State)
    (r : Except Fault Unit) (u : State) : Prop :=
  c.Skips w s s' ∧ u = s' ∨ c.Overruns w starts s' r u

theorem Follows.sameBut {starts : State → Prop} (h : c.Follows w starts s t r u)
    (hs : 0 < t.env.size) : t.SameBut c.var u := by
  obtain ⟨-, rfl⟩ | h := h
  · exact .refl u
  cases h with
  | same => exact .refl t
  | moved | past => exact .store hs _

namespace Unrolls

variable {starts : State → Prop} (h : c.Unrolls w starts)
include h

/-- What is known of an advance of the loop. -/
theorem decides_test (place : Span) (next : Int32) {t₁ t₂ t₃ : State} {amount : Int32}
    {bound : Except Fault Int32} (ht : starts t)
    (hbody : Executes w .root (.command c.body) t (.ok ()) t₁)
    (hstep : Evaluates w 0 .root c.step t₁ (.ok amount) t₂)
    (hstop : Evaluates w 0 .root c.stop t₂ bound t₃) :
    Decides w .root (c.test place) (c.set t₂ next)
      (bound.map fun bound => decide (next ≤ bound)) (c.set t₃ next) := by
  have hs := hstep.grows.lt (h.size ht hbody)
  have hstop' := h.ignores.store_root hstop hs next
  refine decides_test_iff.mpr ⟨bound, hstop', ?_⟩
  rw [lookup_set (Nat.zero_lt_of_lt hs)]

theorem decides_test_ok (place : Span) {t₁ t₂ t₃ : State} {amount next bound : Int32} {b : Bool}
    (ht : starts t) (hbody : Executes w .root (.command c.body) t (.ok ()) t₁)
    (hstep : Evaluates w 0 .root c.step t₁ (.ok amount) t₂)
    (hstop : Evaluates w 0 .root c.stop t₂ (.ok bound) t₃) (hle : decide (next ≤ bound) = b) :
    Decides w .root (c.test place) (c.set t₂ next) (.ok b) (c.set t₃ next) :=
  hle ▸ h.decides_test place next ht hbody hstep hstop

/-- What is left of the loop when its body starts ends as a turn and the loop of the expansion
do. -/
theorem exists_overruns (place : Span)
    (hr : Executes w .root (.turns c.var c.stop c.step c.body) t r s')
    (ht : starts t) : ∃ u', Executes w .root (.sequence [c.turn place, c.loop place]) t r u' ∧
      c.Overruns w starts s' r u' := by
  generalize hwork : Work.turns c.var c.stop c.step c.body = work at hr
  induction hr with
  | turns_body hbody =>
    cases hwork
    exact ⟨_, .sequence_fault (executes_turn_iff.mpr (.body hbody)), .same⟩
  | turns_step hbody hstep =>
    cases hwork
    exact ⟨_, .sequence_fault (executes_turn_iff.mpr (.step hbody hstep)), .same⟩
  | turns_overflow hbody hstep hno =>
    cases hwork
    obtain ⟨next, hnext⟩ := h.advance ht hbody hstep
    exact absurd hnext (hno next)
  | turns_stop hbody hstep hsum hstop =>
    cases hwork
    have hturn := executes_turn place hbody hstep hsum
    exact ⟨_, .sequence_pair hturn
      (.loop_fault (h.decides_test place _ ht hbody hstep hstop)), .moved⟩
  | turns_done hbody hstep hsum hstop hle =>
    cases hwork
    have hturn := executes_turn place hbody hstep hsum
    have htest := h.decides_test_ok place ht hbody hstep hstop (decide_eq_false hle)
    exact ⟨_, .sequence_pair hturn (.loop_done htest), .past ht hbody hstep hsum hstop hle⟩
  | turns_next hbody hstep hsum hstop hle _ _ ih =>
    cases hwork
    have hturn := executes_turn place hbody hstep hsum
    have htest := h.decides_test_ok place ht hbody hstep hstop (decide_eq_true hle)
    obtain ⟨u', hrest, hu'⟩ := ih (h.next ht hbody hstep hsum hstop hle) rfl
    exact ⟨u', .sequence_pair hturn (.loop_of_sequence htest hrest), hu'⟩
  | _ => cases hwork

/-- If the loop of the expansion ends, so does what is left of the counting loop when its body
starts. -/
theorem exists_turns (hr : Executes w .root (.command (c.loop place)) u r s') {bound : Int32}
    (hstop : Evaluates w 0 .root c.stop u (.ok bound) t)
    (hle : u.env.lookup .root c.var ≤ bound) (ht : starts t) :
    ∃ r s', Executes w .root (.turns c.var c.stop c.step c.body) t r s' := by
  generalize hwork : Work.command (c.loop place) = work at hr
  induction hr generalizing t bound with
  | loop_done htest =>
    cases hwork
    obtain ⟨b, hb, heq⟩ := decides_test_iff.mp htest
    obtain ⟨rfl, rfl⟩ := h.unique hb hstop
    cases (Except.ok.inj heq).trans (decide_eq_true hle)
  | loop_fault htest =>
    cases hwork
    obtain ⟨b, hb, heq⟩ := decides_test_iff.mp htest
    obtain ⟨rfl, rfl⟩ := h.unique hb hstop
    cases heq
  | loop_body htest hturn =>
    cases hwork
    obtain ⟨b, hb, -⟩ := decides_test_iff.mp htest
    obtain ⟨rfl, rfl⟩ := h.unique hb hstop
    cases executes_turn_iff.mp hturn with
    | body hbody => exact ⟨_, _, .turns_body hbody⟩
    | step hbody hstep => exact ⟨_, _, .turns_step hbody hstep⟩
  | loop_turn htest hturn _ _ ih =>
    cases hwork
    obtain ⟨b, hb, -⟩ := decides_test_iff.mp htest
    obtain ⟨rfl, rfl⟩ := h.unique hb hstop
    cases executes_turn_iff.mp hturn with
    | moved hbody hstep =>
      obtain ⟨next, hsum⟩ := h.advance ht hbody hstep
      rw [Int32.add_eq_of_toInt hsum] at ih
      have hs := hstep.grows.lt (h.size ht hbody)
      obtain ⟨bound', t₃, hstop'⟩ := h.total _
      cases bound' with
      | error f => exact ⟨_, _, .turns_stop hbody hstep hsum hstop'⟩
      | ok bound' =>
        by_cases hle' : next ≤ bound'
        · obtain ⟨r, s', hrest⟩ := ih (h.ignores.store_root hstop' hs next)
            (by rwa [lookup_set (Nat.zero_lt_of_lt hs)])
            (h.next ht hbody hstep hsum hstop' hle') rfl
          exact ⟨r, s', .turns_next hbody hstep hsum hstop' hle' hrest⟩
        · exact ⟨_, _, .turns_done hbody hstep hsum hstop' hle'⟩
  | _ => cases hwork

/-- The expansion ends if the loop does. -/
theorem exists_expanded {span : Span} (place : Span) (hs : 0 < s.env.size)
    (hstarts : ∀ {first s₁ bound t}, Evaluates w 0 .root c.start s (.ok first) s₁ →
      Evaluates w 0 .root c.stop (c.set s₁ first) (.ok bound) t → first ≤ bound → starts t)
    (hr : Executes w .root (.command (c.count span)) s r s') :
    ∃ u', Executes w .root (.command (c.expansion place)) s r u' ∧
      c.Follows w starts s s' r u' := by
  have htest {first : Int32} {s₁ t : State} {bound : Except Fault Int32}
      (hstart : Evaluates w 0 .root c.start s (.ok first) s₁)
      (hstop : Evaluates w 0 .root c.stop (c.set s₁ first) bound t) :
      Decides w .root (c.test place) (c.set s₁ first)
        (bound.map fun bound => decide (first ≤ bound)) t := by
    refine decides_test_iff.mpr ⟨bound, hstop, ?_⟩
    rw [lookup_set (hstart.grows.lt hs)]
  cases hr with
  | count_none hstart hstop hle =>
    have hfalse := htest hstart hstop
    rw [Except.map, decide_eq_false hle] at hfalse
    exact ⟨_, .block (.sequence_pair (.assign hstart) (.loop_done hfalse)),
      .inl ⟨⟨_, _, _, hstart, hstop, hle⟩, rfl⟩⟩
  | count_some hstart hstop hle hturns =>
    have htrue := htest hstart hstop
    rw [Except.map, decide_eq_true hle] at htrue
    obtain ⟨u', hrest, hu'⟩ := h.exists_overruns place hturns (hstarts hstart hstop hle)
    exact ⟨u', .block (.sequence_pair (.assign hstart) (.loop_of_sequence htrue hrest)), .inr hu'⟩
  | count_start hstart =>
    exact ⟨_, .block (.sequence_fault (.assign_fault hstart)), .inr .same⟩
  | count_stop hstart hstop =>
    exact ⟨_, .block (.sequence_pair (.assign hstart) (.loop_fault (htest hstart hstop))),
      .inr .same⟩

/-- If the expansion ends, so does the loop. -/
theorem exists_count {span : Span} (hs : 0 < s.env.size)
    (hstarts : ∀ {first s₁ bound t}, Evaluates w 0 .root c.start s (.ok first) s₁ →
      Evaluates w 0 .root c.stop (c.set s₁ first) (.ok bound) t → first ≤ bound → starts t)
    (hr : Executes w .root (.command (c.expansion place)) s r u) :
    ∃ r s', Executes w .root (.command (c.count span)) s r s' := by
  cases hr with
  | block hseq =>
    obtain ⟨f, rfl, hassign⟩ | ⟨s₁, hassign, hloop⟩ := hseq.of_sequence_pair
    · cases hassign with
      | assign_fault hstart => exact ⟨_, _, .count_start hstart⟩
    · cases hassign with
      | @assign _ _ _ _ s₁ first hstart =>
        obtain ⟨bound, t, hstop⟩ := h.total (c.set s₁ first)
        cases bound with
        | error f => exact ⟨_, _, .count_stop hstart hstop⟩
        | ok bound =>
          by_cases hle : first ≤ bound
          · have hvalue : (c.set s₁ first).env.lookup .root c.var ≤ bound := by
              rwa [lookup_set (hstart.grows.lt hs)]
            obtain ⟨r, s', hturns⟩ := h.exists_turns hloop hstop hvalue (hstarts hstart hstop hle)
            exact ⟨r, s', .count_some hstart hstop hle hturns⟩
          · exact ⟨_, _, .count_none hstart hstop hle⟩

end Unrolls

end CountTree

end Enquanto

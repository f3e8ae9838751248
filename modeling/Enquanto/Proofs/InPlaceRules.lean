import Enquanto.Proofs.Speculation

/-!
# Rules for parsers on drafts

A parser on drafts does what a parser of trees does, link by link: where the tree parser has read a
tree, the draft has the nodes of that tree, as if the tree had been laid out at once.

* `Functions.resolve_eq`: calls are resolved by the functions of a draft as by a context;
* `Drafting.Simulates`: from one draft, the work does what the parser does, and `Drafting.Mirrors`
  where it changes nothing but the arena; both go along chains, and past a first reading that fails;
* `Drafting.Lays`: from every draft, the work lays out what the parser reads; lists and chains of
  operators lay out their items from left to right.
-/

namespace Enquanto

open Enquanto.Parser

/-! ## Functions that are declared -/

/-- What calls need to know of the functions, the latest first. -/
def Functions.signatures (fs : Functions) : List Signature :=
  (fs.entries.toList.map fun f => ⟨f.name, f.arity⟩).reverse

theorem Context.go_map (name : Name) (fs : List Function) :
    Context.resolve.go name (fs.map fun f => ⟨f.name, f.arity⟩) =
      (fs.findIdx? (·.name == name)).map fun i =>
        (⟨fs.length - 1 - i⟩, (fs.reverse[fs.length - 1 - i]?.map Function.arity).getD 0) := by
  induction fs with
  | nil => rfl
  | cons f fs ih =>
    rw [List.map_cons, Context.resolve.go, List.findIdx?_cons]
    by_cases h : f.name = name
    · simp [h]
    · rw [if_neg h, ih]
      simp only [beq_iff_eq, h, if_false, Option.map_map]
      refine Option.map_congr fun i hi => ?_
      obtain ⟨hi, -⟩ := List.findIdx?_eq_some_iff_getElem.mp hi
      have hn : (f :: fs).length - 1 - (i + 1) = fs.length - 1 - i := by
        rw [List.length_cons]
        omega
      have hlt : fs.length - 1 - i < fs.reverse.length := by
        rw [List.length_reverse]
        omega
      simp only [Function.comp, hn, List.reverse_cons, List.getElem?_append_left hlt]

/-- A table of functions resolves names as a context does. -/
theorem Functions.resolve_eq {fs : Functions} {ctx : Context} (h : fs.signatures = ctx.declared)
    (name : Name) : ctx.resolve name = (fs.resolve name).map fun id => (id, fs.arity id) := by
  rw [Context.resolve, ← h, signatures, ← List.map_reverse, Context.go_map, resolve, Option.map_map]
  simp [Function.comp_def, arity, get?]

/-! ## Parsers and drafts -/

namespace Drafting

variable {α β γ δ ι ω : Type}

/-- From the draft, the work does what the parser does: it fails with the same error, or moves the
cursor to the same place. What is known of the value that is read, of what the work gives, and of
the draft that it leaves, is `post`. -/
def Simulates (d : Draft) (p : Parser α) (work : Drafting β) (post : α → β → Draft → Prop) : Prop :=
  match p d.cursor with
  | .ok (a, cursor) => ∃ b d', work d = .ok b d' ∧ d'.cursor = cursor ∧ post a b d'
  | .error e => ∃ d', work d = .error e d'

theorem bind_of_ok {work : Drafting β} {next : β → Drafting δ} {d d' : Draft} {b : β}
    (h : work d = .ok b d') : (work >>= next) d = next b d' := by
  show EStateM.bind work next d = _
  unfold EStateM.bind
  rw [h]

theorem bind_of_error {work : Drafting β} {next : β → Drafting δ} {d d' : Draft} {e : ParseError}
    (h : work d = .error e d') : (work >>= next) d = .error e d' := by
  show EStateM.bind work next d = _
  unfold EStateM.bind
  rw [h]

namespace Simulates

variable {d : Draft} {p q : Parser α} {work : Drafting β} {post : α → β → Draft → Prop}

theorem of_pure {a : α} {b : β} (h : post a b d) : Simulates d (pure a) (pure b) post :=
  ⟨b, d, rfl, rfl, h⟩

theorem imp {post' : α → β → Draft → Prop} (h : Simulates d p work post)
    (hp : ∀ a b d', post a b d' → post' a b d') : Simulates d p work post' := by
  unfold Simulates at h ⊢
  cases hr : p d.cursor with
  | ok x =>
    rw [hr] at h
    obtain ⟨b, d', hw, hc, h⟩ := h
    exact ⟨b, d', hw, hc, hp _ _ _ h⟩
  | error e =>
    rw [hr] at h
    exact h

/-- Chains do the same where their links do. -/
theorem bind {f : α → Parser γ} {g : β → Drafting δ} {post' : γ → δ → Draft → Prop}
    (h : Simulates d p work post) (hn : ∀ a b d', p d.cursor = .ok (a, d'.cursor) → post a b d' →
      Simulates d' (f a) (g b) post') : Simulates d (p >>= f) (work >>= g) post' := by
  unfold Simulates at h
  cases hr : p d.cursor with
  | error e =>
    rw [hr] at h
    obtain ⟨d', hw⟩ := h
    unfold Simulates
    rw [Parser.bind_eq_of_error hr]
    exact ⟨d', bind_of_error hw⟩
  | ok x =>
    rw [hr] at h
    obtain ⟨b, d', hw, hc, hpost⟩ := h
    obtain ⟨a, cursor⟩ := x
    subst hc
    have hnext := hn a b d' hr hpost
    unfold Simulates at hnext ⊢
    rw [Parser.bind_eq_of_ok hr, bind_of_ok hw]
    exact hnext

theorem read_bind {p : Parser α} {f : α → Parser γ} {g : α → Drafting δ}
    {post : γ → δ → Draft → Prop}
    (h : ∀ a cursor, p d.cursor = .ok (a, cursor) → Simulates { d with cursor } (f a) (g a) post) :
    Simulates d (p >>= f) (read p >>= g) post := by
  have hread : Simulates d p (read p) fun a b d' =>
      b = a ∧ d' = { d with cursor := d'.cursor } := by
    unfold Simulates read
    cases p d.cursor with
    | ok x => exact ⟨x.1, { d with cursor := x.2 }, rfl, rfl, rfl, rfl⟩
    | error e => exact ⟨d, rfl⟩
  refine hread.bind fun a b d' hp hd' => ?_
  obtain ⟨rfl, hd'⟩ := hd'
  rw [hd']
  exact h b d'.cursor hp

theorem get_bind {f : Cursor → Parser γ} {g : Draft → Drafting δ} {post : γ → δ → Draft → Prop}
    (h : Simulates d (f d.cursor) (g d) post) : Simulates d (get >>= f) (get >>= g) post := h

/-- What follows a first reading that failed starts from the draft that was there before. -/
theorem orElse {next : Option β → Drafting δ} {post' : α → δ → Draft → Prop}
    (hfirst : Simulates d p work post) (hgrow : Growing work)
    (hsome : ∀ a b d', post a b d' → Simulates d' (pure a) (next (some b)) post')
    (hnone : Simulates d q (next none) post') :
    Simulates d (Parser.orElse p q) (tryParse work >>= next) post' := by
  unfold Simulates at hfirst
  cases hp : p d.cursor with
  | ok x =>
    rw [hp] at hfirst
    obtain ⟨b, d', hw, hc, hpost⟩ := hfirst
    have htry : tryParse work d = .ok (some b) d' := by
      rw [tryParse, hw]
    obtain ⟨a, cursor⟩ := x
    subst hc
    have hnext := hsome a b d' hpost
    unfold Simulates Parser.orElse
    rw [hp, bind_of_ok htry]
    exact hnext
  | error e =>
    rw [hp] at hfirst
    obtain ⟨d', hw⟩ := hfirst
    -- What failed has only grown the draft, so that going back leads to the draft itself.
    have hd' := hgrow d
    rw [hw] at hd'
    have htry : tryParse work d = .ok none d := by
      rw [tryParse, hw]
      exact congrArg _ hd'.restore
    unfold Simulates Parser.orElse at *
    rw [hp, bind_of_ok htry]
    exact hnone

end Simulates

/-- The work does what the parser does, and changes nothing but the cursor and the arena. -/
def Mirrors (d : Draft) (p : Parser α) (work : Drafting β) (post : α → β → Arena → Prop) : Prop :=
  Simulates d p work fun a b d' =>
    d' = { d with cursor := d'.cursor, arena := d'.arena } ∧ post a b d'.arena

section
variable {d : Draft} {p q : Parser α} {work : Drafting β} {post : α → β → Arena → Prop}

theorem mirrors_pure {a : α} {b : β} (h : post a b d.arena) : Mirrors d (pure a) (pure b) post :=
  ⟨b, d, rfl, rfl, rfl, h⟩

theorem mirrors_throw {e : ParseError} : Mirrors d (throw e) (throw e) post := ⟨d, rfl⟩

theorem mirrors_unexpected {expected : String} :
    Mirrors d (unexpected expected) (read (unexpected expected)) post := ⟨d, rfl⟩

theorem mirrors_add {a : α} {lay : Arena → β × Arena}
    (h : post a (lay d.arena).1 (lay d.arena).2) : Mirrors d (pure a) (add lay) post :=
  ⟨(lay d.arena).1, { d with arena := (lay d.arena).2 }, rfl, rfl, rfl, h⟩

theorem Mirrors.bind {f : α → Parser γ} {g : β → Drafting δ} {post' : γ → δ → Arena → Prop}
    (h : Mirrors d p work post) (hn : ∀ a b cursor arena, p d.cursor = .ok (a, cursor) →
      post a b arena → Mirrors { d with cursor, arena } (f a) (g b) post') :
    Mirrors d (p >>= f) (work >>= g) post' := by
  refine Simulates.bind h fun a b d' hp hd' => ?_
  obtain ⟨hd', hpost⟩ := hd'
  have hnext := hn a b d'.cursor d'.arena hp hpost
  unfold Mirrors at hnext
  rw [← hd'] at hnext
  refine hnext.imp fun c e d'' hd'' => ⟨?_, hd''.2⟩
  rw [hd''.1, hd']

theorem Mirrors.read_bind {p : Parser α} {f : α → Parser γ} {g : α → Drafting δ}
    {post : γ → δ → Arena → Prop}
    (h : ∀ a cursor, p d.cursor = .ok (a, cursor) → Mirrors { d with cursor } (f a) (g a) post) :
    Mirrors d (p >>= f) (read p >>= g) post :=
  Simulates.read_bind h

theorem mirrors_current_bind {f : Token Name → Parser α} {g : Token Name → Drafting β}
    (h : Mirrors d (f d.cursor.current) (g d.cursor.current) post) :
    Mirrors d (current >>= f) (read current >>= g) post := h

theorem mirrors_check_bind {k : TokenClass} {f : Bool → Parser α} {g : Bool → Drafting β}
    (h : Mirrors d (f (d.cursor.current.toClass == k)) (g (d.cursor.current.toClass == k)) post) :
    Mirrors d (check k >>= f) (read (check k) >>= g) post := h

theorem mirrors_advance_bind {f : Unit → Parser α} {g : Unit → Drafting β}
    (h : Mirrors { d with cursor := d.cursor.advance } (f ()) (g ()) post) :
    Mirrors d (advance >>= f) (read advance >>= g) post := h

theorem mirrors_get_bind {f : Cursor → Parser α} {g : Draft → Drafting β}
    (h : Mirrors d (f d.cursor) (g d) post) : Mirrors d (get >>= f) (get >>= g) post := h

/-- The work may look at the draft where the parser does nothing. -/
theorem mirrors_get {g : Draft → Drafting β} (h : Mirrors d p (g d) post) :
    Mirrors d p (get >>= g) post := h

/-- The work may add to the arena where the parser does nothing. -/
theorem mirrors_add_bind {lay : Arena → ι × Arena} {g : ι → Drafting β}
    (h : Mirrors { d with arena := (lay d.arena).2 } p (g (lay d.arena).1) post) :
    Mirrors d p (add lay >>= g) post := h

end

/-! ## Layout -/

/-- Appends a list, one after the other. -/
def layAll (lay : α → Arena → ι × Arena) : List α → Arena → List ι × Arena
  | [], a => ([], a)
  | x :: xs, a =>
    let (id, a) := lay x a
    let (ids, a) := layAll lay xs a
    (id :: ids, a)

theorem length_layAll {lay : α → Arena → ι × Arena} {xs : List α} {ids : List ι} {a a' : Arena}
    (h : layAll lay xs a = (ids, a')) : ids.length = xs.length := by
  induction xs generalizing ids a with
  | nil =>
    cases h
    rfl
  | cons x xs ih =>
    cases h
    exact congrArg (· + 1) (ih rfl)

theorem layExprs_eq (scope : ScopeId) (es : List Expr) (a : Arena) :
    Arena.layExprs scope es a = layAll (Arena.layExpr scope) es a := by
  induction es generalizing a with
  | nil => rfl
  | cons e es ih => simp only [Arena.layExprs, layAll, ih]

/-- From every draft with the functions of the context, the work lays out what the parser reads. -/
def Lays (ctx : Context) (lay : ScopeId → α → Arena → ι × Arena) (p : Parser α)
    (work : Drafting ι) : Prop :=
  ∀ d : Draft, d.functions.signatures = ctx.declared →
    Mirrors d p work fun a id arena => lay d.scope a d.arena = (id, arena)

section
variable {ctx : Context} {lay : ScopeId → α → Arena → ι × Arena}

theorem Lays.bind {d : Draft} {p : Parser α} {work : Drafting ι} {f : α → Parser γ}
    {g : ι → Drafting δ} {post : γ → δ → Arena → Prop} (h : Lays ctx lay p work)
    (hd : d.functions.signatures = ctx.declared)
    (hn : ∀ a id cursor arena, lay d.scope a d.arena = (id, arena) →
      Mirrors { d with cursor, arena } (f a) (g id) post) :
    Mirrors d (p >>= f) (work >>= g) post :=
  (h d hd).bind fun a id cursor arena _ ha => hn a id cursor arena ha

/-! ### Repetition -/

theorem Lays.manyUpTo {item : β → Parser α} {item' : β → Drafting ι}
    (h : ∀ b, Lays ctx lay (item b) (item' b)) (announces : TokenKind Name → Option β)
    (bound : List (Token Name)) : Lays ctx (fun scope => layAll (lay scope))
      (Parser.manyUpTo announces item bound) (manyUpTo announces item' bound) := by
  induction bound with
  | nil => exact fun d _ => mirrors_pure rfl
  | cons _ bound ih =>
    intro d hd
    refine mirrors_current_bind ?_
    cases announces d.cursor.current.kind with
    | none => exact mirrors_pure rfl
    | some b =>
      refine mirrors_advance_bind ((h b).bind hd fun a id c₁ a₁ ha => ?_)
      refine ih.bind hd fun as ids c₂ a₂ has => ?_
      exact mirrors_pure (by simp_all [layAll])

theorem Lays.many {item : β → Parser α} {item' : β → Drafting ι}
    (h : ∀ b, Lays ctx lay (item b) (item' b)) (announces : TokenKind Name → Option β) :
    Lays ctx (fun scope => layAll (lay scope)) (Parser.many announces item)
      (many announces item') :=
  fun d hd => mirrors_get_bind (Lays.manyUpTo h announces d.cursor.ahead d hd)

theorem Lays.sepBy {item : Parser α} {item' : Drafting ι} (h : Lays ctx lay item item')
    (k : TokenClass) :
    Lays ctx (fun scope => layAll (lay scope)) (Parser.sepBy k item) (sepBy k item') := by
  intro d hd
  refine h.bind hd fun a id c₁ a₁ ha => ?_
  refine (Lays.many (fun _ => h) (on k)).bind hd fun as ids c₂ a₂ has => ?_
  exact mirrors_pure (by simp_all [layAll])

/-- A part that may be there is laid out, or what stands for it. -/
theorem Lays.optional_bind {d : Draft} {k : TokenClass} {p q : Parser α}
    {given implicit : Drafting ι} {f : α → Parser γ} {g : ι → Drafting δ}
    {post : γ → δ → Arena → Prop} (hp : Lays ctx lay p given) (hq : Lays ctx lay q implicit)
    (hd : d.functions.signatures = ctx.declared)
    (hn : ∀ a id cursor arena, lay d.scope a d.arena = (id, arena) →
      Mirrors { d with cursor, arena } (f a) (g id) post) :
    Mirrors d (eat k >>= fun given => if given then p >>= f else q >>= f)
      (optional k given implicit >>= g) post := by
  rw [optional, bind_assoc]
  refine Mirrors.read_bind fun b c _ => ?_
  cases b with
  | true => exact hp.bind hd hn
  | false => exact hq.bind hd hn

/-- The work joins what is laid out as the function joins what is read. -/
def Joins (lay : ScopeId → α → Arena → ι × Arena) (join : ω → α → α → α)
    (join' : ω → ι → ι → Drafting ι) : Prop :=
  ∀ op (d : Draft) left right l r a₀ a₁, lay d.scope left a₀ = (l, a₁) →
    lay d.scope right a₁ = (r, d.arena) →
    Mirrors d (pure (join op left right)) (join' op l r) fun e id arena =>
      lay d.scope e a₀ = (id, arena)

/-- What is left of a chain behind its first operands. -/
def restOfChain (operator : TokenKind Name → Option ω) (join : ω → α → α → α) (operand : Parser α)
    (bound : List (Token Name)) (left : α) : Parser α := do
  let rest ← Parser.manyUpTo operator (fun op => do return (op, ← operand)) bound
  return rest.foldl (fun left (op, right) => join op left right) left

/-- Operands are joined one by one as they are joined in the end: what stands to the left was laid
out from `a₀` on, whatever it is made of. -/
theorem Joins.chainUpTo {operator : TokenKind Name → Option ω} {join : ω → α → α → α}
    {join' : ω → ι → ι → Drafting ι} {operand : Parser α} {operand' : Drafting ι}
    (hj : Joins lay join join') (h : Lays ctx lay operand operand') {a₀ : Arena}
    (bound : List (Token Name)) :
    ∀ {d : Draft} {left : α} {id : ι}, d.functions.signatures = ctx.declared →
      lay d.scope left a₀ = (id, d.arena) →
      Mirrors d (restOfChain operator join operand bound left)
        (chainUpTo operator join' operand' bound id)
        fun e id arena => lay d.scope e a₀ = (id, arena) := by
  induction bound with
  | nil => exact fun _ hleft => mirrors_pure hleft
  | cons _ bound ih =>
    intro d left id hd hleft
    rw [restOfChain, Parser.manyUpTo, bind_assoc]
    refine mirrors_current_bind ?_
    cases operator d.cursor.current.kind with
    | none => exact mirrors_pure hleft
    | some op =>
      simp only [bind_assoc, pure_bind]
      refine mirrors_advance_bind (h.bind hd fun right r c₁ a₁ hright => ?_)
      have hjoined := hj op { d with cursor := c₁, arena := a₁ } left right id r a₀ d.arena hleft
        hright
      -- The trees are joined once all operands are read; `pure` stands for the first of the joins.
      have hrest : Mirrors _ (pure (join op left right) >>= restOfChain operator join operand bound)
          _ fun e id arena => lay d.scope e a₀ = (id, arena) :=
        hjoined.bind fun joined j c₂ a₂ _ ha => ih (d := { d with cursor := c₂, arena := a₂ }) hd ha
      exact hrest

theorem Joins.chainLeft {operator : TokenKind Name → Option ω} {join : ω → α → α → α}
    {join' : ω → ι → ι → Drafting ι} {operand : Parser α} {operand' : Drafting ι}
    (hj : Joins lay join join') (h : Lays ctx lay operand operand') :
    Lays ctx lay (Parser.chainLeft operator join operand) (chainLeft operator join' operand') :=
  fun _ hd => h.bind hd fun _ _ c _ ha => mirrors_get (hj.chainUpTo h c.ahead hd ha)

/-- A list that is there unless it is closed at once. -/
theorem Lays.listed {item : Parser α} {item' : Drafting ι} (h : Lays ctx lay item item')
    (k : TokenClass) (closed : Bool) : Lays ctx (fun scope => layAll (lay scope))
      (if closed then pure [] else Parser.sepBy k item)
      (if closed then pure [] else Drafting.sepBy k item') := by
  cases closed with
  | true => exact fun d _ => mirrors_pure rfl
  | false => exact h.sepBy k

end

/-- Signs before what was laid out are laid out from the innermost one on. -/
theorem mirrors_foldrM {lay : α → Arena → ι × Arena} {sign : β → α → α}
    {sign' : β → ι → Drafting ι} {a₀ : Arena}
    (hs : ∀ b (d : Draft) e id, lay e a₀ = (id, d.arena) →
      Mirrors d (pure (sign b e)) (sign' b id) fun e id arena => lay e a₀ = (id, arena))
    {d : Draft} {e : α} {id : ι} (h : lay e a₀ = (id, d.arena)) (bs : List β) :
    Mirrors d (pure (bs.foldr sign e)) (bs.foldrM sign' id) fun e id arena =>
      lay e a₀ = (id, arena) := by
  induction bs with
  | nil => exact mirrors_pure h
  | cons b bs ih =>
    rw [List.foldrM_cons]
    have hsigns : Mirrors d (pure (bs.foldr sign e) >>= fun e => pure (sign b e))
        (bs.foldrM sign' id >>= sign' b) fun e id arena => lay e a₀ = (id, arena) :=
      ih.bind fun e id c a _ he => hs b { d with cursor := c, arena := a } e id he
    exact hsigns

end Drafting

end Enquanto

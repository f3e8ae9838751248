import Enquanto.Proofs.CommandParsing

/-!
# The nearest open conditional

The grammar leaves it open to which conditional a `senaose` or `senao` belongs. Whatever derivation
a command has, it has one in which each belongs to the nearest conditional that is still open, and
which has the same first offence.

* `CommandForm.exists_attach`: one more `senaose` or `senao` behind an open command goes to the
  innermost open conditional at its end;
* `CommandForm.exists_nearest` rebuilds a command from the inside out, part by part.
-/

namespace Enquanto

open Grammar

/-- What goes on with a conditional. -/
inductive ElsePart where
  | branch (test : PredForm) (body : CommandForm)
  | last (body : CommandForm)

namespace ElsePart

inductive Derives : List (Token Name) → ElsePart → Prop
  | branch {t : Token Name} {ts : List (Token Name)} {test : PredForm} {body : CommandForm} :
    t.kind = .keyword .senaose → CommandForm.Branch ts (test, body) →
      Derives (t :: ts) (.branch test body)
  | last {s : Span} {ts : List (Token Name)} {body : CommandForm} : CommandForm.Derives ts body →
      Derives (keywordAt .senao s :: ts) (.last body)

def Nearest : ElsePart → Prop
  | .branch _ body => body.Nearest
  | .last body => body.Nearest

def offence (ctx : Context) : ElsePart → Option Offence
  | .branch test body => (test.offence ctx).or (body.offence ctx)
  | .last body => body.offence ctx

/-- Whether more may go on with the conditional after this. -/
def isBranch : ElsePart → Bool
  | .branch _ _ => true
  | .last _ => false

end ElsePart

namespace CommandForm

variable {ts us ws : List (Token Name)} {part : ElsePart} {s s₀ gap : Span} {test : PredForm}
  {body : CommandForm} {others : List (Unit × (PredForm × CommandForm))}

theorem Shape.derives {form : Span → CommandForm} (h : Shape ts form) (hts : us = ts) :
    Derives us (form (wholeSpan ts)) := by
  rw [hts]
  exact .intro h

/-- The form `f'` is `f` with a part behind it taken in. -/
structure TakesIn (f : CommandForm) (part : ElsePart) (f' : CommandForm) : Prop where
  nearest : f'.Nearest
  offence_eq : ∀ ctx, f'.offence ctx = (f.offence ctx).or (part.offence ctx)
  isOpen : part.isBranch = true → f'.isOpen = true

theorem branchOffences_append {ctx : Context} {bs bs' : List (PredForm × CommandForm)} :
    branchOffences ctx (bs ++ bs') = (branchOffences ctx bs).or (branchOffences ctx bs') := by
  simp only [branchOffences_eq_findSome?, List.findSome?_append]

/-- The part goes to the conditional itself, if it has no open command at its end. -/
theorem exists_attach_here (hbranch : Branch ts (test, body))
    (hmany : Many (just (.keyword .senaose)) Branch us others) (hbody : body.Nearest)
    (hothers : NearestBranches (others.map Prod.snd))
    (hclosed : ∀ c ∈ body :: (others.map Prod.snd).map Prod.snd, c.isOpen = false)
    (hpart : part.Derives ws) (hp : part.Nearest) :
    ∃ f, Derives (keywordAt .se s₀ :: (ts ++ us) ++ ws) f ∧
      (CommandForm.condOnly test body (others.map Prod.snd) gap s).TakesIn part f := by
  cases hpart with
  | @branch t vs test' body' ht hb =>
    have hp : body'.Nearest := hp
    have hmany' := hmany.append (Many.one (b := ()) ht hb)
    refine ⟨_, (Shape.condOnly hbranch hmany').derives
        (by simp only [List.cons_append, List.append_assoc]; rfl),
      ⟨hbody, ?_, ?_⟩, fun ctx => ?_, fun _ => rfl⟩
    · rw [nearestBranches_iff, List.map_append, List.forall_mem_append]
      exact ⟨nearestBranches_iff.mp hothers, by simpa using hp⟩
    · have hbodies : body :: ((others ++ [((), test', body')]).map Prod.snd).map Prod.snd =
          (body :: (others.map Prod.snd).map Prod.snd) ++ [body'] := by simp
      rw [hbodies, List.dropLast_concat]
      exact hclosed
    · simp [offence, branchOffences_append, branchOffences, ElsePart.offence, Option.or_assoc]
  | @last s₁ vs last hlast =>
    refine ⟨_, (Shape.cond hbranch hmany hlast).derives
        (by simp only [List.cons_append, List.append_assoc]; rfl),
      ⟨hbody, hothers, hp, hclosed⟩, fun ctx => ?_, nofun⟩
    simp [offence, ElsePart.offence, Option.or_assoc]

/-- The part goes into the last branch, if the command there is open. -/
theorem exists_attach_last
    (ih : ∀ {ts f}, ts.length ≤ us.length → Derives ts f → f.Nearest → f.isOpen = true →
      ∃ f', Derives (ts ++ ws) f' ∧ f.TakesIn part f')
    (hbranch : Branch us (test, body)) (hbody : body.Nearest) (hopen : body.isOpen = true) :
    ∃ body', Branch (us ++ ws) (test, body') ∧ body.TakesIn part body' := by
  cases hbranch with
  | @intro s ts us test body htest hderives =>
    obtain ⟨body', hderives', hbody'⟩ := ih (by simp; omega) hderives hbody hopen
    refine ⟨body', ?_, hbody'⟩
    rw [List.append_assoc, List.cons_append]
    exact .intro htest hderives'

theorem exists_attach_condOnly
    (ih : ∀ {ts' f}, ts'.length ≤ ts.length + us.length → Derives ts' f → f.Nearest →
      f.isOpen = true → ∃ f', Derives (ts' ++ ws) f' ∧ f.TakesIn part f')
    (hbranch : Branch ts (test, body)) (hmany : Many (just (.keyword .senaose)) Branch us others)
    (hnear : (CommandForm.condOnly test body (others.map Prod.snd) gap s).Nearest)
    (hpart : part.Derives ws) (hp : part.Nearest) :
    ∃ f, Derives (keywordAt .se s₀ :: (ts ++ us) ++ ws) f ∧
      (CommandForm.condOnly test body (others.map Prod.snd) gap s).TakesIn part f := by
  obtain ⟨hbn, hon, hclosed⟩ := hnear
  rcases List.eq_nil_or_concat others with rfl | ⟨init, x, rfl⟩
  · cases hmany
    by_cases hopen : body.isOpen = true
    · obtain ⟨body', hbranch', hbody'⟩ :=
        exists_attach_last (fun hl => ih (by omega)) hbranch hbn hopen
      have hcond : Derives (keywordAt .se s₀ :: (ts ++ [] ++ ws)) _ :=
        (Shape.condOnly hbranch' .nil).derives (by simp only [List.append_nil]; rfl)
      refine ⟨_, hcond, ⟨hbody'.nearest, trivial, by simp⟩, fun ctx => ?_, fun _ => rfl⟩
      simp [offence, branchOffences, hbody'.offence_eq, Option.or_assoc]
    · exact exists_attach_here hbranch .nil hbn hon (by simpa using hopen) hpart hp
  · rw [List.concat_eq_append] at hmany hon hclosed ⊢
    have hbodies : body :: ((init ++ [x]).map Prod.snd).map Prod.snd =
        (body :: (init.map Prod.snd).map Prod.snd) ++ [x.2.2] := by simp
    rw [hbodies, List.dropLast_concat] at hclosed
    by_cases hopen : x.2.2.isOpen = true
    · obtain ⟨vs, t, xs, rfl, hinit, ht, hx⟩ := hmany.split_last
      rw [nearestBranches_iff, List.map_append, List.forall_mem_append] at hon
      have hxn : x.2.2.Nearest := by simpa using hon.2
      obtain ⟨body', hx', hbody'⟩ := exists_attach_last
        (fun hl => ih (by simp only [List.length_append, List.length_cons]; omega)) hx hxn hopen
      refine ⟨_, (Shape.condOnly hbranch (hinit.append (.one ht hx'))).derives
          (by simp only [List.cons_append, List.append_assoc]; rfl),
        ⟨hbn, ?_, ?_⟩, fun ctx => ?_, fun _ => rfl⟩
      · rw [nearestBranches_iff, List.map_append, List.forall_mem_append]
        exact ⟨hon.1, by simpa using hbody'.nearest⟩
      · have hbodies' : body :: ((init ++ [(x.1, x.2.1, body')]).map Prod.snd).map Prod.snd =
            (body :: (init.map Prod.snd).map Prod.snd) ++ [body'] := by simp
        rw [hbodies', List.dropLast_concat]
        exact hclosed
      · simp [offence, branchOffences_append, branchOffences, hbody'.offence_eq, Option.or_assoc]
    · refine exists_attach_here hbranch hmany hbn hon ?_ hpart hp
      rw [hbodies, List.forall_mem_append]
      exact ⟨hclosed, by simpa using hopen⟩

/-- One more part behind an open command goes to the innermost open conditional at its end. -/
theorem exists_attach {f : CommandForm} (hf : Derives ts f) (hnear : f.Nearest)
    (hopen : f.isOpen = true) (hpart : part.Derives ws) (hp : part.Nearest) :
    ∃ f', Derives (ts ++ ws) f' ∧ f.TakesIn part f' := by
  -- The command at the end of a command is shorter than it.
  induction hn : ts.length using Nat.strongRecOn generalizing ts f with
  | ind n ih =>
    subst hn
    cases hf with
    | intro hshape =>
      cases hshape with
      | assign _ | skip | printInt _ | printText | block _ => cases hopen
      | @cond s s₁ ts us vs test body last others hbranch hmany hlast =>
        obtain ⟨hbn, hon, hln, hclosed⟩ := hnear
        obtain ⟨last', hlast', ht⟩ := ih vs.length (by simp; omega) hlast hln hopen rfl
        refine ⟨_, (Shape.cond hbranch hmany hlast').derives
            (by simp only [List.cons_append, List.append_assoc]; rfl),
          ⟨hbn, hon, ht.nearest, hclosed⟩, fun ctx => ?_, ht.isOpen⟩
        simp [offence, ht.offence_eq, Option.or_assoc]
      | @condOnly s ts us test body others hbranch hmany =>
        refine exists_attach_condOnly (fun hl hd hr ho => ih _ ?_ hd hr ho rfl) hbranch hmany
          hnear hpart hp
        simp only [List.length_cons, List.length_append]
        omega
      | @loop s s₁ ts us test body htest hbody =>
        obtain ⟨body', hbody', ht⟩ := ih us.length (by simp; omega) hbody hnear hopen rfl
        refine ⟨_, (Shape.loop htest hbody').derives
            (by simp only [List.cons_append, List.append_assoc]; rfl),
          ht.nearest, fun ctx => ?_, ht.isOpen⟩
        simp [offence, ht.offence_eq, Option.or_assoc]
      | @count x s s₁ s₂ s₃ s₄ s₅ ts us vs ws' start stop step body hstart hstop hstep hbody =>
        obtain ⟨body', hbody', ht⟩ := ih ws'.length (by simp; omega) hbody hnear hopen rfl
        refine ⟨_, (Shape.count hstart hstop hstep hbody').derives
            (by simp only [List.cons_append, List.append_assoc]; rfl),
          ht.nearest, fun ctx => ?_, ht.isOpen⟩
        simp [offence, ht.offence_eq, Option.or_assoc]
      | @countOnes x s s₁ s₂ s₃ s₄ ts us ws' start stop body hstart hstop hbody =>
        obtain ⟨body', hbody', ht⟩ := ih ws'.length (by simp; omega) hbody hnear hopen rfl
        refine ⟨_, (Shape.countOnes hstart hstop hbody').derives
            (by simp only [List.cons_append, List.append_assoc]; rfl),
          ht.nearest, fun ctx => ?_, ht.isOpen⟩
        simp [offence, ht.offence_eq, Option.or_assoc]
      | @switch s s₁ s₂ ts us vs selector cases default hsel hcases hdefault =>
        obtain ⟨hcn, hdn⟩ := hnear
        obtain ⟨default', hdefault', ht⟩ := ih vs.length (by simp; omega) hdefault hdn hopen rfl
        refine ⟨_, (Shape.switch hsel hcases hdefault').derives
            (by simp only [List.cons_append, List.append_assoc]; rfl),
          ⟨hcn, ht.nearest⟩, fun ctx => ?_, ht.isOpen⟩
        simp [offence, ht.offence_eq, Option.or_assoc]

/-- All the branches of a repetition go on with an open command, one after the other. -/
theorem exists_attach_all {f : CommandForm} (hf : Derives ts f) (hnear : f.Nearest)
    (hopen : f.isOpen = true) (hmany : Many (just (.keyword .senaose)) Branch us others)
    (hall : ∀ b ∈ others, b.2.2.Nearest) :
    ∃ f', Derives (ts ++ us) f' ∧ f'.Nearest ∧ f'.isOpen = true ∧ ∀ ctx,
      f'.offence ctx = (f.offence ctx).or (branchOffences ctx (others.map Prod.snd)) := by
  induction hmany generalizing ts f with
  | nil => exact ⟨f, by rwa [List.append_nil], hnear, hopen, by simp [branchOffences]⟩
  | @cons t b vs us x rest ht hb _ ih =>
    obtain ⟨hx, hrest⟩ := List.forall_mem_cons.mp hall
    obtain ⟨f₁, hf₁, htakes⟩ := exists_attach hf hnear hopen (.branch ht hb) hx
    obtain ⟨f', hf', hnear', hopen', ho⟩ := ih hf₁ htakes.nearest (htakes.isOpen rfl) hrest
    refine ⟨f', by rwa [List.append_assoc] at hf', hnear', hopen', fun ctx => ?_⟩
    rw [ho, htakes.offence_eq, Option.or_assoc]
    rfl

/-- A conditional up to its last branch, rebuilt from branches that are rebuilt themselves. -/
theorem exists_nearest_branches (s : Span)
    (ih : ∀ {vs f}, vs.length ≤ ts.length + us.length → Derives vs f →
      ∃ f', Derives vs f' ∧ f'.Nearest ∧ ∀ ctx, f'.offence ctx = f.offence ctx)
    (hbranch : Branch ts (test, body)) (hmany : Many (just (.keyword .senaose)) Branch us others) :
    ∃ f, Derives (keywordAt .se s :: (ts ++ us)) f ∧ f.Nearest ∧ f.isOpen = true ∧
      ∀ ctx, f.offence ctx = (test.offence ctx).or ((body.offence ctx).or
        (branchOffences ctx (others.map Prod.snd))) := by
  have hstep : ∀ vs (b : PredForm × CommandForm), vs.length ≤ ts.length + us.length → Branch vs b →
      ∃ b', Branch vs b' ∧ b'.2.Nearest ∧ (fun ctx => (b'.1.offence ctx).or (b'.2.offence ctx)) =
        fun ctx => (b.1.offence ctx).or (b.2.offence ctx) := by
    rintro _ _ hl ⟨ht, hd⟩
    rw [List.length_append, List.length_cons] at hl
    obtain ⟨f', hf', hnear, ho⟩ := ih (by omega) hd
    exact ⟨(_, f'), .intro ht hf', hnear, by simp only [ho]⟩
  obtain ⟨⟨test', body'⟩, hbranch', hnear, ho⟩ := hstep ts _ (by omega) hbranch
  obtain ⟨others', hmany', hall, hos⟩ := hmany.exists_forall hstep (by omega)
  have hfirst : Derives (keywordAt .se s :: ts) _ :=
    (Shape.condOnly hbranch' .nil).derives (by simp only [List.append_nil]; rfl)
  obtain ⟨f, hf, hnear, hopen, hof⟩ :=
    exists_attach_all hfirst ⟨hnear, trivial, by simp⟩ rfl hmany' hall
  refine ⟨f, hf, hnear, hopen, fun ctx => ?_⟩
  have ho : (test'.offence ctx).or (body'.offence ctx) = (test.offence ctx).or (body.offence ctx) :=
    congrFun ho ctx
  have hos : branchOffences ctx (others'.map Prod.snd) =
      branchOffences ctx (others.map Prod.snd) := by
    rw [branchOffences_eq_findSome?, branchOffences_eq_findSome?, List.findSome?_map,
      List.findSome?_map]
    exact findSome?_eq_of_map_eq hos ctx
  rw [hof, hos, offence, List.map_nil, branchOffences, Option.or_none, ho, Option.or_assoc]

/-- Whatever derivation a command has, it has one with the same first offence in which every
`senaose` and `senao` belongs to the nearest open conditional. -/
theorem exists_nearest {f : CommandForm} (hf : Derives ts f) :
    ∃ f', Derives ts f' ∧ f'.Nearest ∧ ∀ ctx, f'.offence ctx = f.offence ctx := by
  induction hn : ts.length using Nat.strongRecOn generalizing ts f with
  | ind n ih =>
    subst hn
    cases hf with
    | intro hshape =>
      cases hshape with
      | assign he => exact ⟨_, .intro (.assign he), trivial, fun _ => rfl⟩
      | skip => exact ⟨_, .intro .skip, trivial, fun _ => rfl⟩
      | printInt he => exact ⟨_, .intro (.printInt he), trivial, fun _ => rfl⟩
      | printText => exact ⟨_, .intro .printText, trivial, fun _ => rfl⟩
      | @block s s₁ ts body hbody =>
        obtain ⟨body', hbody', hall, hos⟩ := hbody.exists_forall (n := ts.length)
          (g := fun f ctx => offence ctx f) (fun us f hl hd => by
            obtain ⟨f', hf', hnear, ho⟩ := ih us.length (by simp; omega) hd rfl
            exact ⟨f', hf', hnear, funext ho⟩) (Nat.le_refl _)
        refine ⟨_, .intro (.block hbody'), nearestAll_iff.mpr hall, fun ctx => ?_⟩
        rw [offence, offence, offences_eq_findSome?, offences_eq_findSome?]
        exact findSome?_eq_of_map_eq hos ctx
      | @cond s s₁ ts us vs test body last others hbranch hmany hlast =>
        obtain ⟨f₁, hf₁, hnear₁, hopen₁, ho₁⟩ := exists_nearest_branches s
          (fun hl hd => ih _ (by simp; omega) hd rfl) hbranch hmany
        obtain ⟨last', hlast', hlnear, hol⟩ := ih vs.length (by simp; omega) hlast rfl
        obtain ⟨f', hf', ht⟩ := exists_attach hf₁ hnear₁ hopen₁ (.last hlast') hlnear
        refine ⟨f', by rwa [List.cons_append, List.append_assoc] at hf', ht.nearest, fun ctx => ?_⟩
        rw [ht.offence_eq, ho₁]
        simp [offence, ElsePart.offence, hol, Option.or_assoc]
      | @condOnly s ts us test body others hbranch hmany =>
        obtain ⟨f', hf', hnear', -, ho⟩ := exists_nearest_branches s
          (fun hl hd => ih _ (by simp; omega) hd rfl) hbranch hmany
        exact ⟨f', hf', hnear', ho⟩
      | @loop s s₁ ts us test body htest hbody =>
        obtain ⟨body', hbody', hnear, ho⟩ := ih us.length (by simp; omega) hbody rfl
        exact ⟨_, .intro (.loop htest hbody'), hnear, fun ctx => by simp only [offence, ho]⟩
      | @count x s s₁ s₂ s₃ s₄ s₅ ts us vs ws start stop step body hstart hstop hstep hbody =>
        obtain ⟨body', hbody', hnear, ho⟩ := ih ws.length (by simp; omega) hbody rfl
        exact ⟨_, .intro (.count hstart hstop hstep hbody'), hnear,
          fun ctx => by simp only [offence, ho]⟩
      | @countOnes x s s₁ s₂ s₃ s₄ ts us ws start stop body hstart hstop hbody =>
        obtain ⟨body', hbody', hnear, ho⟩ := ih ws.length (by simp; omega) hbody rfl
        exact ⟨_, .intro (.countOnes hstart hstop hbody'), hnear,
          fun ctx => by simp only [offence, ho]⟩
      | @switch s s₁ s₂ ts us vs selector cases default hsel hcases hdefault =>
        have hstep : ∀ ws (x : CaseLabel × CommandForm), ws.length ≤ us.length → Case ws x →
            ∃ x', Case ws x' ∧ x'.2.Nearest ∧
              (fun ctx => x'.1.offence.or (x'.2.offence ctx)) =
                fun ctx => x.1.offence.or (x.2.offence ctx) := by
          rintro _ _ hl ⟨hlabel, hd⟩
          rw [List.length_append, List.length_cons] at hl
          obtain ⟨f', hf', hnear, ho⟩ := ih _ (by simp; omega) hd rfl
          exact ⟨(_, f'), .intro hlabel hf', hnear, by simp only [ho]⟩
        obtain ⟨cases', hcases', hall, hos⟩ := hcases.exists_forall hstep (Nat.le_refl _)
        obtain ⟨default', hdefault', hnear, ho⟩ := ih vs.length (by simp; omega) hdefault rfl
        refine ⟨_, .intro (.switch hsel hcases' hdefault'),
          ⟨nearestCases_iff.mpr (List.forall_mem_map.mpr hall), hnear⟩, fun ctx => ?_⟩
        have hos : caseOffences ctx (cases'.map Prod.snd) =
            caseOffences ctx (cases.map Prod.snd) := by
          rw [caseOffences_eq_findSome?, caseOffences_eq_findSome?, List.findSome?_map,
            List.findSome?_map]
          exact findSome?_eq_of_map_eq hos ctx
        rw [offence, offence, hos, ho]

end CommandForm

end Enquanto

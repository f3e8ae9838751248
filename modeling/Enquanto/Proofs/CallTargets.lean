import Enquanto.Proofs.NodeSpans

/-!
# Where calls lead

A call leads to the latest function of its name whose header stands before the call. Functions that
are declared later do not change it, even if they have the same name, and a function may call
itself, since its body stands behind its header.

* `Declaration.Latest`: the latest function of a name with a header before an offset;
* `Expr.Leads`: a call stands where a function is named, and leads to the latest one;
* `Program.parse_readFrom`: the spans and calls of a program that was read;
* `Program.parse_stop_lt`: behind each header there is more.
-/

namespace Enquanto

open Grammar

/-! ## The latest function -/

/-- The function that a name stands for is the last one of that name. -/
theorem Signature.Declares.latest {declared : List Signature} {x : Name} {n : Nat}
    (h : Declares declared x n) : ∃ s, declared.reverse[(callee declared x).index]? = some s ∧
      s.name = x ∧ ∀ j s', declared.reverse[j]? = some s' → s'.name = x →
        j ≤ (callee declared x).index := by
  induction declared with
  | nil => cases h
  | cons s earlier ih =>
    by_cases hs : s.name = x
    · have hc : callee (s :: earlier) x = ⟨earlier.length⟩ := by simp [callee, hs]
      rw [hc]
      refine ⟨s, by simp, hs, fun j s' hj _ => ?_⟩
      have hlt := (List.getElem?_eq_some_iff.mp hj).1
      rw [List.length_reverse, List.length_cons] at hlt
      exact Nat.le_of_lt_succ hlt
    · have hc : callee (s :: earlier) x = callee earlier x := by simp [callee, hs]
      unfold Declares at h
      rw [List.find?_cons_of_neg (by simpa using hs)] at h
      obtain ⟨t, ht, hname, hlast⟩ := ih h
      have hi := (List.getElem?_eq_some_iff.mp ht).1
      rw [hc, List.reverse_cons]
      refine ⟨t, by rw [List.getElem?_append_left hi, ht], hname, fun j s' hj hx => ?_⟩
      rcases Nat.lt_or_ge j earlier.reverse.length with hlt | hge
      · rw [List.getElem?_append_left hlt] at hj
        exact hlast j s' hj hx
      · rw [List.getElem?_append_right hge] at hj
        obtain rfl := List.mem_singleton.mp (List.mem_of_getElem? hj)
        exact absurd hx hs

/-- Functions as a context lists them, the latest first. -/
def Declaration.headers (ds : List Declaration) : List Signature :=
  (ds.map Declaration.header).reverse

theorem Declaration.reverse_headers_getElem? (ds : List Declaration) (j : Nat) :
    (headers ds).reverse[j]? = ds[j]?.map header := by
  simp [headers]

/-- The function is the last one called `x` with a header that ends before the offset. Where
offsets end, before and behind cannot be told apart: a header there does not count. -/
def Declaration.Latest (ds : List Declaration) (x : Name) (offset : Nat) (f : FunctionId) : Prop :=
  ∃ d, ds[f.index]? = some d ∧ d.name = x ∧ d.span.stop ≤ offset ∧
    ∀ j d', ds[j]? = some d' → d'.name = x → d'.span.stop ≤ offset →
      d'.span.stop < Span.maxOffset → j ≤ f.index

/-- A call stands where its function is named, and leads to the latest function of that name. -/
def Expr.Leads (ds : List Declaration) (ts : List (Token Name)) : Expr → Prop
  | .call function _ span => ∃ x s, identifierAt x s ∈ ts ∧ s.start = span.start ∧
      Declaration.Latest ds x span.start function
  | _ => True

theorem Expr.Leads.mono {ds : List Declaration} {ts us : List (Token Name)} (hsub : ts ⊆ us) :
    ∀ {e : Expr}, e.Leads ds ts → e.Leads ds us
  | .int _ _, _ | .var _ _, _ | .neg _ _, _ | .arith _ _ _ _, _ | .read _, _ => trivial
  | .call _ _ _, ⟨x, s, hmem, h⟩ => ⟨x, s, hsub hmem, h⟩

/-- The header ends behind the offset, as far as offsets go. -/
def Declaration.EndsBehind (d : Declaration) (offset : Nat) : Prop :=
  offset < d.span.stop ∨ d.span.stop = Span.maxOffset

theorem Declaration.EndsBehind.mono {d : Declaration} {a b : Nat} (h : d.EndsBehind b)
    (hab : a ≤ b) : d.EndsBehind a :=
  h.imp_left (Nat.lt_of_le_of_lt hab)

section
variable {earlier later : List Declaration} {ts us : List (Token Name)}

/-- What is declared further on does not change where a call leads. -/
theorem Signature.Declares.latest_append {x : Name} {n offset : Nat}
    (h : Declares (Declaration.headers earlier) x n)
    (hearlier : ∀ d ∈ earlier, d.span.stop ≤ offset)
    (hlater : ∀ d ∈ later, d.EndsBehind offset) :
    Declaration.Latest (earlier ++ later) x offset
      (callee (Declaration.headers earlier) x) := by
  obtain ⟨s, hs, rfl, hlast⟩ := h.latest
  simp only [Declaration.reverse_headers_getElem?, Option.map_eq_some_iff] at hs hlast
  obtain ⟨d, hd, rfl⟩ := hs
  have hi := (List.getElem?_eq_some_iff.mp hd).1
  refine ⟨d, by rw [List.getElem?_append_left hi, hd], rfl,
    hearlier d (List.mem_of_getElem? hd), fun j d' hj hx hstop hnear => ?_⟩
  rcases Nat.lt_or_ge j earlier.length with hlt | hge
  · rw [List.getElem?_append_left hlt] at hj
    exact hlast j d'.header ⟨d', hj, rfl⟩ hx
  · rw [List.getElem?_append_right hge] at hj
    rcases hlater d' (List.mem_of_getElem? hj) with hbehind | hlast
    · exact absurd hstop (Nat.not_le_of_lt hbehind)
    · exact absurd hlast (Nat.ne_of_lt hnear)

theorem Expr.CallsBy.leads (hsub : ts ⊆ us) : ∀ {e : Expr},
    e.CallsBy (Declaration.headers earlier) ts →
    (∀ d ∈ earlier, d.span.stop ≤ e.span.start) → (∀ d ∈ later, d.EndsBehind e.span.start) →
    e.Leads (earlier ++ later) us
  | .int _ _, _, _, _ | .var _ _, _, _, _ | .neg _ _, _, _, _ | .arith _ _ _ _, _, _, _
  | .read _, _, _, _ => trivial
  | .call _ _ _, ⟨x, s, hmem, hstart, hf, hdeclares⟩, hearlier, hlater =>
    ⟨x, s, hsub hmem, hstart, hf ▸ hdeclares.latest_append hearlier hlater⟩

theorem Flattening.ReadFrom.leads {declared : List Signature} {f : Flattening} {a b : Nat}
    (h : f.ReadFrom ts (Expr.CallsBy declared ts))
    (hdeclared : declared = Declaration.headers earlier) (hsub : ts ⊆ us)
    (hruns : Runs a b ts) (hearlier : ∀ d ∈ earlier, d.span.stop ≤ a)
    (hlater : ∀ d ∈ later, d.EndsBehind b) : f.ReadFrom us (Expr.Leads (earlier ++ later) us) := by
  subst hdeclared
  refine h.mono hsub fun e hends hcall => ?_
  have hbounds := hends.bounds hruns
  refine hcall.leads hsub (fun d hd => ?_) fun d hd => ?_
  · exact Nat.le_trans (hearlier d hd) hbounds.1
  · exact (hlater d hd).mono hbounds.2.1

end

/-! ## Instructions -/

namespace InstructionForm

variable {earlier later : List Declaration} {ts : List (Token Name)} {i : InstructionForm}
  {a b : Nat}

/-- The header of a declaration has its ends on tokens. -/
theorem Derives.endsOn (h : Derives ts i) (declared : List Signature) :
    ∀ d ∈ Program.declarations [i.tree declared], d.span.EndsOn ts := by
  cases h with
  | command _ => simp [Program.declarations, tree]
  | @declare x s s₁ s₂ s₃ s₄ ts us params body _ _ =>
    simp only [Program.declarations, tree, List.filterMap_cons, List.filterMap_nil,
      List.mem_singleton, forall_eq]
    exact (Span.EndsOn.token (t := keywordAt .definition s) (by simp)).merge
      (.token (t := symbolAt .equal s₄) (by simp))

theorem declares_headers (earlier : List Declaration) (i : InstructionForm) :
    i.declares (Declaration.headers earlier) = Declaration.headers
      (earlier ++ Program.declarations [i.tree (Declaration.headers earlier)]) := by
  cases i <;> simp [declares, tree, Program.declarations, Declaration.header, Declaration.headers]

/-- The header of a declaration ends before its body. -/
theorem exists_header_le {x : Name} {s s₁ s₂ s₃ s₄ : Span} {us : List (Token Name)}
    (h : Runs a b (keywordAt .definition s :: identifierAt x s₁ :: symbolAt .openParen s₂ ::
      (ts ++ symbolAt .closeParen s₃ :: symbolAt .equal s₄ :: us))) :
    ∃ c, a ≤ c ∧ (s.merge s₄).stop ≤ c ∧ Runs c b us := by
  let front := keywordAt .definition s :: identifierAt x s₁ :: symbolAt .openParen s₂ ::
    (ts ++ [symbolAt .closeParen s₃, symbolAt .equal s₄])
  have hsplit : keywordAt .definition s :: identifierAt x s₁ :: symbolAt .openParen s₂ ::
      (ts ++ symbolAt .closeParen s₃ :: symbolAt .equal s₄ :: us) = front ++ us := by
    simp [front]
  rw [hsplit] at h
  obtain ⟨c, hfront, hus⟩ := runs_append_iff.mp h
  have hs := hfront.bounds (keywordAt .definition s) (by simp [front])
  have hs₄ := hfront.bounds (symbolAt .equal s₄) (by simp [front])
  exact ⟨c, hfront.le, Nat.max_le.mpr ⟨hs.2.2, hs₄.2.2⟩, hus⟩

/-- Behind the header there is a body, which has some length. -/
theorem Derives.stop_lt (h : Derives ts i) (hruns : Runs a b ts)
    (hts : ∀ t ∈ ts, t.span.start < t.span.stop) (declared : List Signature) :
    ∀ d ∈ Program.declarations [i.tree declared], d.span.stop < b := by
  cases h with
  | command _ => simp [Program.declarations, tree]
  | @declare x s s₁ s₂ s₃ s₄ ts us params body _ hbody =>
    obtain ⟨c, -, hheader, hus⟩ := exists_header_le hruns
    have hlies : body.Lies declared us := hbody.lies
    obtain ⟨t, us, rfl⟩ := List.exists_cons_of_ne_nil hlies.1
    have hlength := hts t (by simp)
    have hbounds := hus.bounds t (List.mem_cons_self ..)
    simp only [Program.declarations, tree, List.filterMap_cons, List.filterMap_nil,
      List.mem_singleton, forall_eq]
    omega

/-- An instruction, between what is declared before it and what is declared after it. -/
theorem Derives.readFrom (h : Derives ts i)
    (hadm : i.Admissible (Declaration.headers earlier)) (hruns : Runs a b ts)
    (hearlier : ∀ d ∈ earlier, d.span.stop ≤ a) (hlater : ∀ d ∈ later, d.EndsBehind b) (k : Nat) :
    (Program.flatFrom k [i.tree (Declaration.headers earlier)]).ReadFrom ts
      (Expr.Leads (earlier ++ Program.declarations [i.tree (Declaration.headers earlier)]
        ++ later) ts) := by
  cases h with
  | @command ts c hc =>
    have hflat := (hc.lies.2 hadm .root).readFrom a b hruns
    have hleads := hflat.leads rfl (List.Subset.refl ts) hruns hearlier hlater
    simpa [tree, Program.flatFrom, Flattening.append_empty, Program.declarations] using hleads
  | @declare x s s₁ s₂ s₃ s₄ ts us params body hparams hbody =>
    -- The body is read behind the `=` that ends the header.
    obtain ⟨c, hac, hheader, hus⟩ := exists_header_le hruns
    have hsub : us ⊆ keywordAt .definition s :: identifierAt x s₁ :: symbolAt .openParen s₂ ::
        (ts ++ symbolAt .closeParen s₃ :: symbolAt .equal s₄ :: us) := fun t ht => by
      simp [ht]
    have hflat := (hbody.lies.2 hadm ⟨k + 1⟩).readFrom c b hus
    have hleads := hflat.leads (declares_headers earlier (.declare x params body (s.merge s₄)))
      hsub hus ?_ hlater
    · simpa [tree, Program.flatFrom, Flattening.append_empty, Program.declarations] using hleads
    · refine List.forall_mem_append.mpr ⟨fun d hd => Nat.le_trans (hearlier d hd) hac, ?_⟩
      simpa [Program.declarations, tree] using hheader

end InstructionForm

/-! ## Programs -/

namespace Program

theorem flatFrom_cons (k : Nat) (i : Instruction) (rest : Program) :
    flatFrom k (i :: rest) = flatFrom k [i] ++ flatFrom (k + (declarations [i]).length) rest := by
  cases i <;> simp [flatFrom, declarations, Flattening.append_empty]

theorem declarations_cons (i : Instruction) (rest : Program) :
    declarations (i :: rest) = declarations [i] ++ declarations rest := by
  cases i <;> simp [declarations]

theorem derives_endsOn {form : ProgramForm} {ts : List (Token Name)}
    (h : ProgramForm.Derives ts form) (declared : List Signature) :
    ∀ d ∈ declarations (form.tree declared), d.span.EndsOn ts := by
  induction form generalizing ts declared with
  | nil => simp [ProgramForm.tree, declarations]
  | cons i rest ih =>
    rw [ProgramForm.tree, declarations_cons]
    rcases sepBy_cons_iff.mp h with ⟨rfl, hi⟩ | ⟨us, t, vs, rfl, hi, -, hrest⟩
    · simpa [ProgramForm.tree, declarations] using hi.endsOn declared
    · refine List.forall_mem_append.mpr ⟨fun d hd => ?_, fun d hd => ?_⟩
      · exact (hi.endsOn declared d hd).mono (by simp)
      · exact (ih hrest _ d hd).mono (by simp)

/-- The headers of a program do not reach to its end. -/
theorem derives_stop_lt {form : ProgramForm} {ts : List (Token Name)} {a b : Nat}
    (h : ProgramForm.Derives ts form) (hruns : Runs a b ts)
    (hts : ∀ t ∈ ts, t.span.start < t.span.stop) (declared : List Signature) :
    ∀ d ∈ declarations (form.tree declared), d.span.stop < b := by
  induction form generalizing ts a declared with
  | nil => simp [ProgramForm.tree, declarations]
  | cons i rest ih =>
    rw [ProgramForm.tree, declarations_cons]
    rcases sepBy_cons_iff.mp h with ⟨rfl, hi⟩ | ⟨us, t, vs, rfl, hi, -, hrest⟩
    · simpa [ProgramForm.tree, declarations] using hi.stop_lt hruns hts declared
    · obtain ⟨hus, htail⟩ := List.forall_mem_append.mp hts
      obtain ⟨c, hfirst, hlast⟩ := runs_append_iff.mp hruns
      refine List.forall_mem_append.mpr ⟨fun d hd => ?_, ih hrest hlast.2.2 ?_ _⟩
      · exact Nat.lt_of_lt_of_le (hi.stop_lt hfirst hus declared d hd) hlast.le
      · exact fun t ht => htail t (List.mem_cons_of_mem _ ht)

theorem derives_readFrom {form : ProgramForm} {ts : List (Token Name)}
    (earlier : List Declaration) (k : Nat) {a b : Nat} (h : ProgramForm.Derives ts form)
    (hadm : form.Admissible (Declaration.headers earlier)) (hruns : Runs a b ts)
    (hearlier : ∀ d ∈ earlier, d.span.stop ≤ a) :
    ((form.tree (Declaration.headers earlier)).flatFrom k).ReadFrom ts
      (Expr.Leads (earlier ++ declarations (form.tree (Declaration.headers earlier)))
        ts) := by
  induction form generalizing ts earlier a k with
  | nil => exact .empty
  | cons i rest ih =>
    obtain ⟨hadmi, hadmrest⟩ := hadm
    rw [InstructionForm.declares_headers] at hadmrest
    rw [ProgramForm.tree, flatFrom_cons, declarations_cons, InstructionForm.declares_headers,
      ← List.append_assoc]
    rcases sepBy_cons_iff.mp h with ⟨rfl, hi⟩ | ⟨us, t, vs, rfl, hi, -, hrest⟩
    · have hfirst := hi.readFrom hadmi hruns hearlier (List.forall_mem_nil _) k
      simpa [ProgramForm.tree, declarations, flatFrom, Flattening.append_empty] using hfirst
    · obtain ⟨c, hus, hc, ht, hvs⟩ := runs_append_iff.mp hruns
      have hle := hus.le
      have ht := ht.le
      refine Flattening.ReadFrom.append
        ((hi.readFrom hadmi hus hearlier (fun d hd => ?_) k).mono (by simp)
          fun e _ => Expr.Leads.mono (by simp))
        ((ih _ _ hrest hadmrest hvs
          (List.forall_mem_append.mpr ⟨fun d hd => ?_, fun d hd => ?_⟩)).mono
          (by simp) fun e _ => Expr.Leads.mono (by simp))
      · obtain ⟨-, -, hstop, -⟩ := (derives_endsOn hrest _ d hd).bounds hvs
        exact Declaration.EndsBehind.mono hstop (Nat.le_trans hc ht)
      · have hstop := hearlier d hd
        omega
      · have hstop := (hi.endsOn _ d hd).bounds hus
        omega

/-- The subtrees of a program that was read have their spans among its tokens, and its calls lead to
the latest functions. -/
theorem parse_readFrom {names : Names} {tokens : List (Token Name)} {program : Program} {a b : Nat}
    (h : parse names tokens = .ok program) (hruns : Runs a b (readable tokens)) :
    program.flat.ReadFrom (readable tokens)
      (Expr.Leads program.declarations (readable tokens)) := by
  rcases parse_eq_ok_iff.mp h with ⟨-, rfl⟩ | ⟨form, hd, hadm, -, rfl⟩
  · exact .empty
  · exact derives_readFrom [] 0 hd hadm hruns (List.forall_mem_nil _)

/-- The headers of a program that was read end before the last of its tokens. -/
theorem parse_stop_lt {names : Names} {tokens : List (Token Name)} {program : Program} {a b : Nat}
    (h : parse names tokens = .ok program) (hruns : Runs a b (readable tokens))
    (hts : ∀ t ∈ readable tokens, t.span.start < t.span.stop) :
    ∀ d ∈ program.declarations, d.span.stop < b := by
  rcases parse_eq_ok_iff.mp h with ⟨-, rfl⟩ | ⟨form, hd, -, -, rfl⟩
  · exact nofun
  · exact derives_stop_lt hd hruns hts []

end Program

end Enquanto

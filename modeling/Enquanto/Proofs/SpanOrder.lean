import Enquanto.Proofs.ParserSteps

/-!
# Spans in order

Tokens come one behind the other, and so do the parts of what is read off them. Both are said with
bounds: something lies between two offsets, and what is read off a first and a second list of tokens
lies between the bounds of the first, and between those of the second.

* `Span.Filled`: a span of some length, as far as offsets go;
* `Grammar.Runs`: tokens, each of some length, in order between two offsets;
* `Span.InOrder`: spans that do not overlap, in order between two offsets;
* `Span.EndsOn`: the ends of a span are ends of tokens.
-/

namespace Enquanto

namespace Span

/-- The spans lie between the offsets `a` and `b`, in order and without overlap. -/
def InOrder : Nat → Nat → List Span → Prop
  | a, b, [] => a ≤ b
  | a, b, s :: spans => a ≤ s.start ∧ s.start ≤ s.stop ∧ InOrder s.stop b spans

variable {a b c d : Nat} {spans spans' : List Span}

theorem InOrder.le (h : InOrder a b spans) : a ≤ b := by
  induction spans generalizing a with
  | nil => exact h
  | cons s spans ih => exact Nat.le_trans (Nat.le_trans h.1 h.2.1) (ih h.2.2)

theorem InOrder.widen (h : InOrder a b spans) (ha : c ≤ a) (hb : b ≤ d) : InOrder c d spans := by
  induction spans generalizing a c with
  | nil => exact Nat.le_trans (Nat.le_trans ha h) hb
  | cons s spans ih => exact ⟨Nat.le_trans ha h.1, h.2.1, ih h.2.2 (Nat.le_refl _)⟩

theorem InOrder.append (h : InOrder a b spans) (h' : InOrder b c spans') :
    InOrder a c (spans ++ spans') := by
  induction spans generalizing a with
  | nil => exact h'.widen h (Nat.le_refl _)
  | cons s spans ih => exact ⟨h.1, h.2.1, ih h.2.2⟩

/-- Spans in order lie between the bounds. -/
theorem InOrder.inside (h : InOrder a b spans) : ∀ s ∈ spans, a ≤ s.start ∧ s.stop ≤ b := by
  induction spans generalizing a with
  | nil => simp
  | cons s spans ih =>
    obtain ⟨ha, hs, hrest⟩ := h
    refine List.forall_mem_cons.mpr ⟨⟨ha, hrest.le⟩, fun t ht => ?_⟩
    obtain ⟨hstart, hstop⟩ := ih hrest t ht
    exact ⟨by omega, hstop⟩

/-- Spans in order do not overlap. -/
theorem InOrder.pairwise (h : InOrder a b spans) :
    spans.Pairwise fun s t => s.stop ≤ t.start := by
  induction spans generalizing a with
  | nil => exact .nil
  | cons s spans ih => exact .cons (fun t ht => (h.2.2.inside t ht).1) (ih h.2.2)

end Span

/-! ## Tokens -/

/-- The span has some length, unless it is at the last offset: everything further on is put
there. -/
def Span.Filled (s : Span) : Prop :=
  s.start < s.stop ∨ s.start = maxOffset ∧ s.stop = maxOffset

theorem Span.Filled.le {s : Span} (h : s.Filled) : s.start ≤ s.stop := by
  unfold Filled at h
  omega

/-- A text of some length has a filled span at every place. -/
theorem Span.filled_ofRange {start stop : Nat} (h : start < stop) :
    (ofRange start stop).Filled := by
  simp only [ofRange_eq (Nat.le_of_lt h), Filled]
  omega

namespace Grammar

/-- The tokens lie between the offsets `a` and `b`, in order, and each has some length. -/
def Runs : Nat → Nat → List (Token Name) → Prop
  | a, b, [] => a ≤ b
  | a, b, t :: ts => a ≤ t.span.start ∧ t.span.Filled ∧ Runs t.span.stop b ts

variable {a b c : Nat} {t : Token Name} {ts us : List (Token Name)}

theorem runs_append_iff : Runs a c (ts ++ us) ↔ ∃ b, Runs a b ts ∧ Runs b c us := by
  induction ts generalizing a with
  | nil =>
    constructor
    · exact fun h => ⟨a, Nat.le_refl a, h⟩
    · rintro ⟨b, hab, h⟩
      cases us with
      | nil => exact Nat.le_trans hab h
      | cons u us => exact ⟨Nat.le_trans hab h.1, h.2⟩
  | cons t ts ih => simp only [List.cons_append, Runs, ih, ← exists_and_left, and_assoc]

theorem Runs.le (h : Runs a b ts) : a ≤ b := by
  induction ts generalizing a with
  | nil => exact h
  | cons t ts ih =>
    exact Nat.le_trans h.1 (Nat.le_trans h.2.1.le (ih h.2.2))

theorem Runs.bounds (h : Runs a b ts) :
    ∀ t ∈ ts, a ≤ t.span.start ∧ t.span.Filled ∧ t.span.stop ≤ b := by
  induction ts generalizing a with
  | nil => simp
  | cons t ts ih =>
    obtain ⟨ha, ht, hrest⟩ := h
    refine List.forall_mem_cons.mpr ⟨⟨ha, ht, hrest.le⟩, fun u hu => ?_⟩
    have hu := ih hrest u hu
    exact ⟨Nat.le_trans ha (Nat.le_trans ht.le hu.1), hu.2⟩

theorem exists_lastSpan_eq (h : ts ≠ []) : ∃ t ∈ ts, lastSpan ts = t.span := by
  obtain ⟨init, t, rfl⟩ := (List.eq_nil_or_concat ts).resolve_left h
  exact ⟨t, by simp, by simp [lastSpan]⟩

theorem lastSpan_cons (h : ts ≠ []) : lastSpan (t :: ts) = lastSpan ts := by
  rw [← List.singleton_append, lastSpan_append h]

/-- Tokens end with the last of them. -/
theorem Runs.to_last (h : Runs a b ts) (hne : ts ≠ []) :
    Runs a (lastSpan ts).stop ts ∧ (lastSpan ts).stop ≤ b := by
  induction ts generalizing a with
  | nil => exact absurd rfl hne
  | cons t ts ih =>
    obtain ⟨ha, ht, hrest⟩ := h
    cases ts with
    | nil => exact ⟨⟨ha, ht, Nat.le_refl _⟩, hrest⟩
    | cons u ts =>
      obtain ⟨hruns, hle⟩ := ih hrest (by simp)
      rw [lastSpan_cons (by simp)]
      exact ⟨⟨ha, ht, hruns⟩, hle⟩

theorem Runs.wholeSpan_eq (h : Runs a b (t :: ts)) :
    wholeSpan (t :: ts) = ⟨t.span.start, (lastSpan (t :: ts)).stop⟩ := by
  obtain ⟨-, ht, hrest⟩ := h
  by_cases hne : ts = []
  · subst hne
    simp [wholeSpan, lastSpan, Span.merge_self]
  · obtain ⟨u, hu, hlast⟩ := exists_lastSpan_eq hne
    obtain ⟨hstart, hfilled, -⟩ := hrest.bounds u hu
    have ht := ht.le
    have hu := hfilled.le
    have hmin : min t.span.start u.span.start = t.span.start := by omega
    have hmax : max t.span.stop u.span.stop = u.span.stop := by omega
    simp [wholeSpan, lastSpan_cons hne, hlast, Span.merge, hmin, hmax]

/-- Tokens lie within the span from the first to the last. -/
theorem Runs.tighten (h : Runs a b ts) (hne : ts ≠ []) :
    a ≤ (wholeSpan ts).start ∧ (wholeSpan ts).stop ≤ b ∧
      Runs (wholeSpan ts).start (wholeSpan ts).stop ts := by
  obtain ⟨t, ts, rfl⟩ := List.exists_cons_of_ne_nil hne
  obtain ⟨⟨ha, ht, hrest⟩, hle⟩ := h.to_last hne
  rw [h.wholeSpan_eq]
  exact ⟨ha, hle, Nat.le_refl _, ht, hrest⟩

end Grammar

/-! ## Ends of tokens -/

open Grammar

namespace Span

/-- The span starts at an end of a token, and stops where one stops. -/
structure EndsOn (s : Span) (ts : List (Token Name)) : Prop where
  start : ∃ t ∈ ts, s.start = t.span.start ∨ s.start = t.span.stop
  stop : ∃ t ∈ ts, s.stop = t.span.stop

namespace EndsOn

variable {s s' : Span} {t : Token Name} {ts us : List (Token Name)}

theorem mono (h : s.EndsOn ts) (hsub : ts ⊆ us) : s.EndsOn us := by
  obtain ⟨⟨t, ht, hstart⟩, u, hu, hstop⟩ := h
  exact ⟨⟨t, hsub ht, hstart⟩, u, hsub hu, hstop⟩

theorem token (h : t ∈ ts) : t.span.EndsOn ts :=
  ⟨⟨t, h, .inl rfl⟩, t, h, rfl⟩

theorem merge (h : s.EndsOn ts) (h' : s'.EndsOn ts) : (s.merge s').EndsOn ts := by
  constructor
  · rcases Nat.le_total s.start s'.start with hle | hle
    · rw [merge_start, Nat.min_eq_left hle]
      exact h.start
    · rw [merge_start, Nat.min_eq_right hle]
      exact h'.start
  · rcases Nat.le_total s.stop s'.stop with hle | hle
    · rw [merge_stop, Nat.max_eq_right hle]
      exact h'.stop
    · rw [merge_stop, Nat.max_eq_left hle]
      exact h.stop

theorem lastSpan (h : ts ≠ []) : (Grammar.lastSpan ts).EndsOn ts := by
  obtain ⟨t, ht, hlast⟩ := exists_lastSpan_eq h
  rw [hlast]
  exact token ht

theorem wholeSpan (h : ts ≠ []) : (Grammar.wholeSpan ts).EndsOn ts := by
  obtain ⟨t, ts, rfl⟩ := List.exists_cons_of_ne_nil h
  exact merge (token (List.mem_cons_self ..)) (lastSpan h)

theorem gapAfter (h : ts ≠ []) : (Grammar.gapAfter ts).EndsOn ts := by
  obtain ⟨t, ht, hstop⟩ := (lastSpan h).stop
  exact ⟨⟨t, ht, .inr hstop⟩, t, ht, hstop⟩

/-- Tokens between two offsets have their ends between them. -/
theorem bounds {a b : Nat} (h : s.EndsOn ts) (hts : Runs a b ts) :
    a ≤ s.start ∧ s.start ≤ b ∧ (a < s.stop ∨ s.stop = maxOffset) ∧ a ≤ s.stop ∧ s.stop ≤ b := by
  obtain ⟨⟨t, ht, hstart⟩, u, hu, hstop⟩ := h
  obtain ⟨hat, ht, htb⟩ := hts.bounds t ht
  obtain ⟨hau, hu, hub⟩ := hts.bounds u hu
  unfold Filled at ht hu
  omega

end EndsOn

end Span

end Enquanto

import Enquanto.Program.Parser
import Enquanto.Proofs.ParserSteps

/-!
# Parsers that descend

A parser that calls itself ends if it has stepped over a token before it does, since fewer tokens
are left then. The bounds that make the recursion of a parser structural do not matter in this case:
there is one family of parsers that satisfies the equations without bounds.

* `Cursor.Alike`: two cursors that differ only behind the first end of file;
* `Parser.Tracks`: two parsers do the same from such cursors when few enough tokens are left, and
  take some number of tokens at least; there is a rule for each way to put parsers together;
* `Parser.AsksFor`: what a parser does at an end of file;
* `Parser.many_eq`: a repetition without its bound;
* `Parser.Recursion`: a family of parsers is the only solution of its equations.
-/

namespace Enquanto

open Grammar

/-! ## What can be read -/

/-- The tokens up to the first end of file, and with it. -/
def Grammar.upToEnd : List (Token Name) → List (Token Name)
  | [] => []
  | t :: ts => if t.isEndOfFile then [t] else t :: upToEnd ts

namespace Grammar

variable {t : Token Name} {ts us : List (Token Name)}

theorem upToEnd_of_isEndOfFile (h : t.isEndOfFile = true) : upToEnd (t :: ts) = [t] := if_pos h

theorem upToEnd_of_not (h : t.isEndOfFile = false) : upToEnd (t :: ts) = t :: upToEnd ts := by
  simp [upToEnd, h]

theorem head?_upToEnd (ts : List (Token Name)) : (upToEnd ts).head? = ts.head? := by
  cases ts with
  | nil => rfl
  | cons t ts =>
    unfold upToEnd
    split <;> rfl

theorem upToEnd_append (h : ∀ t ∈ ts, t.isEndOfFile = false) :
    upToEnd (ts ++ us) = ts ++ upToEnd us := by
  induction ts with
  | nil => rfl
  | cons t ts ih =>
    obtain ⟨ht, hts⟩ := List.forall_mem_cons.mp h
    rw [List.cons_append, upToEnd_of_not ht, ih hts, List.cons_append]

theorem upToEnd_upToEnd (ts : List (Token Name)) : upToEnd (upToEnd ts) = upToEnd ts := by
  induction ts with
  | nil => rfl
  | cons t ts ih =>
    cases ht : t.isEndOfFile with
    | true => rw [upToEnd_of_isEndOfFile ht, upToEnd_of_isEndOfFile ht]
    | false => rw [upToEnd_of_not ht, upToEnd_of_not ht, ih]

theorem readable_upToEnd (ts : List (Token Name)) : readable (upToEnd ts) = readable ts := by
  induction ts with
  | nil => rfl
  | cons t ts ih =>
    cases ht : t.isEndOfFile with
    | true => simp [readable, upToEnd_of_isEndOfFile ht, ht]
    | false => simpa [readable, upToEnd_of_not ht, ht] using ih

end Grammar

namespace Cursor

/-- The number of tokens that can still be stepped over. -/
def left (c : Cursor) : Nat := (readable c.ahead).length

/-- The same tokens behind, and the same ahead up to the first end of file. -/
structure Alike (c d : Cursor) : Prop where
  behind : c.behind = d.behind
  ahead : upToEnd c.ahead = upToEnd d.ahead

variable {c c' d d' : Cursor} {ts : List (Token Name)}

theorem left_le (c : Cursor) : c.left ≤ c.ahead.length :=
  (List.takeWhile_prefix _).length_le

theorem Passes.left_eq (h : c.Passes ts c') : c.left = ts.length + c'.left := by
  unfold left readable
  rw [h.1, List.takeWhile_append_of_pos (by simpa using h.2.2), List.length_append]

theorem isEndOfFile_current (h : c.left = 0) : c.current.isEndOfFile = true := by
  obtain ⟨behind, _ | ⟨t, ahead⟩⟩ := c
  · exact isEndOfFile_ending _
  · cases ht : t.isEndOfFile with
    | true => exact ht
    | false => simp [left, readable, ht] at h

theorem kind_current_eq (h : c.left = 0) : c.current.kind = .endOfFile := by
  simpa [Token.isEndOfFile, Token.toClass, TokenKind.toClass_eq_endOfFile_iff] using
    isEndOfFile_current h

theorem advance_eq_self (h : c.current.isEndOfFile = true) : c.advance = c := by
  obtain ⟨behind, _ | ⟨t, ahead⟩⟩ := c
  · rfl
  · exact if_pos h

theorem passes_current_of_not (h : c.current.isEndOfFile = false) :
    c.Passes [c.current] c.advance :=
  passes_one_iff.mpr ⟨rfl, h, rfl⟩

namespace Alike

theorem refl (c : Cursor) : c.Alike c := ⟨rfl, rfl⟩

theorem left_eq (h : c.Alike d) : c.left = d.left := by
  unfold left
  rw [← readable_upToEnd c.ahead, h.ahead, readable_upToEnd]

theorem head?_eq (h : c.Alike d) : c.ahead.head? = d.ahead.head? := by
  rw [← head?_upToEnd, h.ahead, head?_upToEnd]

theorem lastSpan_eq (h : c.Alike d) : c.lastSpan = d.lastSpan := by
  unfold lastSpan
  rw [h.behind]

theorem current_eq (h : c.Alike d) : c.current = d.current := by
  obtain ⟨behind, ahead⟩ := c
  obtain ⟨behind', ahead'⟩ := d
  obtain rfl : behind = behind' := h.behind
  have hhead : ahead.head? = ahead'.head? := h.head?_eq
  cases ahead <;> cases ahead' <;> simp_all [current, ending]

/-- Alike cursors that pass the same tokens are alike after them. -/
theorem passes (h : c.Alike d) (hc : c.Passes ts c') (hd : d.Passes ts d') : c'.Alike d' := by
  refine ⟨by rw [hc.2.1, hd.2.1, h.behind], ?_⟩
  have hahead := h.ahead
  rw [hc.1, hd.1, upToEnd_append hc.2.2, upToEnd_append hd.2.2] at hahead
  exact List.append_cancel_left hahead

theorem passes_current (h : c.Alike d) (hc : c.current.isEndOfFile = false) :
    d.Passes [c.current] d.advance := by
  rw [h.current_eq] at hc ⊢
  exact passes_current_of_not hc

theorem nextClass_eq (h : c.Alike d) (hc : c.current.isEndOfFile = false) :
    c.nextClass = d.nextClass := by
  have hpass := passes_current_of_not hc
  rw [hpass.nextClass_eq, (h.passes_current hc).nextClass_eq,
    (h.passes hpass (h.passes_current hc)).current_eq]

end Alike

end Cursor

/-! ## Parsers that do the same -/

namespace Parser

variable {α β ω : Type} {k l n : Nat} {c d : Cursor}

/-- Items as long as the current token announces one, over the parser of those after the first. -/
def manyBody (announces : TokenKind Name → Option ω) (item : ω → Parser α)
    (rest : Parser (List α)) : Parser (List α) := do
  match announces (← current).kind with
  | none => return []
  | some b => do
    advance
    let a ← item b
    let as ← rest
    return a :: as

theorem on_endOfFile {k : TokenClass} (hk : k ≠ .endOfFile) : on k .endOfFile = none :=
  if_neg hk.symm

/-- Nothing is repeated at an end of file. -/
theorem manyUpTo_of_left_eq_zero {announces : TokenKind Name → Option ω} {item : ω → Parser α}
    {bound : List (Token Name)} (hann : announces .endOfFile = none) (hc : c.left = 0) :
    manyUpTo announces item bound c = .ok ([], c) := by
  cases bound with
  | nil => rfl
  | cons t bound =>
    rw [manyUpTo, current_bind, Cursor.kind_current_eq hc, hann]
    rfl

/-- At an end of file the parser fails, and asks for `expected`. -/
def AsksFor (expected : String) (p : Parser α) : Prop :=
  ∀ c, c.left = 0 → p c = .error ⟨.unexpected expected .endOfFile, c.current.span⟩

namespace AsksFor

variable {expected : String} {p : Parser α}

theorem unexpected (expected : String) :
    AsksFor expected (unexpected expected : Parser α) := by
  intro c hc
  have hclass : c.current.toClass = .endOfFile := by
    simpa [Token.isEndOfFile] using Cursor.isEndOfFile_current hc
  rw [unexpected_eq_error (by simp [hclass]), hclass]

theorem bind (h : AsksFor expected p) (f : α → Parser β) : AsksFor expected (p >>= f) :=
  fun c hc => bind_eq_of_error (h c hc)

theorem many_bind {announces : TokenKind Name → Option ω} {item : ω → Parser α}
    {f : List α → Parser β} (hann : announces .endOfFile = none) (h : AsksFor expected (f [])) :
    AsksFor expected (many announces item >>= f) := fun c hc => by
  have hmany : many announces item c = .ok ([], c) := manyUpTo_of_left_eq_zero hann hc
  rw [bind_eq_of_ok hmany, h c hc]

theorem current_bind {f : Token Name → Parser α} (h : ∀ c, c.left = 0 →
      c.current.kind = .endOfFile →
      f c.current c = .error ⟨.unexpected expected .endOfFile, c.current.span⟩) :
    AsksFor expected (current >>= f) :=
  fun c hc => h c hc (Cursor.kind_current_eq hc)

end AsksFor

/-- The same value, after the same tokens (at least `k` of them), or the same error. -/
inductive Matches (k : Nat) (c d : Cursor) :
    Except ParseError (α × Cursor) → Except ParseError (α × Cursor) → Prop
  | ok {a : α} {ts : List (Token Name)} {c' d' : Cursor} : k ≤ ts.length → c.Passes ts c' →
    d.Passes ts d' → Matches k c d (.ok (a, c')) (.ok (a, d'))
  | error {e : ParseError} : Matches k c d (.error e) (.error e)

/-- With at most `n` tokens left, the parsers do the same, and take `k` tokens or more. -/
def Tracks (k n : Nat) (p q : Parser α) : Prop :=
  ∀ c d, c.Alike d → c.left ≤ n → Matches k c d (p c) (q d)

theorem Matches.mono {r r' : Except ParseError (α × Cursor)} (h : Matches k c d r r') {k' : Nat}
    (hk : k' ≤ k) : Matches k' c d r r' := by
  cases h with
  | ok hts hc hd => exact .ok (Nat.le_trans hk hts) hc hd
  | error => exact .error

/-- Where a first part does the same, what follows does the same with fewer tokens left. -/
theorem Matches.bind {p q : Parser α} {f g : α → Parser β} (hcd : c.Alike d) (hleft : c.left ≤ n)
    (h : Matches k c d (p c) (q d)) (hf : ∀ a, k ≤ n → Tracks l (n - k) (f a) (g a)) :
    Matches (k + l) c d ((p >>= f) c) ((q >>= g) d) := by
  generalize hp : p c = r at h
  generalize hq : q d = r' at h
  cases h with
  | error =>
    rw [bind_eq_of_error hp, bind_eq_of_error hq]
    exact .error
  | @ok a ts c' d' hts hc hd =>
    rw [bind_eq_of_ok hp, bind_eq_of_ok hq]
    have hleft' := hc.left_eq
    have hnext := hf a (by omega) c' d' (hcd.passes hc hd) (by omega)
    generalize f a c' = r at hnext ⊢
    generalize g a d' = r' at hnext ⊢
    cases hnext with
    | error => exact .error
    | ok hus hc' hd' =>
      refine .ok ?_ (hc.append hc') (hd.append hd')
      rw [List.length_append]
      omega

namespace Tracks

variable {p q p' q' : Parser α} {f g : α → Parser β}

/-! ### Steps -/

theorem mono (h : Tracks k n p q) {k' n' : Nat} (hk : k' ≤ k) (hn : n' ≤ n) :
    Tracks k' n' p q :=
  fun c d hcd hleft => (h c d hcd (Nat.le_trans hleft hn)).mono hk

theorem pure {a : α} : Tracks 0 n (pure a) (pure a) := fun _ _ _ _ =>
  .ok (Nat.zero_le _) (Cursor.passes_nil_iff.mpr rfl) (Cursor.passes_nil_iff.mpr rfl)

theorem throw {e : ParseError} : Tracks k n (throw e : Parser α) (throw e) :=
  fun _ _ _ _ => .error

theorem bind (hp : Tracks k n p q) (hf : ∀ a, k ≤ n → Tracks l (n - k) (f a) (g a)) :
    Tracks (k + l) n (p >>= f) (q >>= g) :=
  fun c d hcd hleft => .bind hcd hleft (hp c d hcd hleft) hf

/-- A first part that takes a token. -/
theorem first (hp : Tracks 1 n p q) (hf : ∀ a, 1 ≤ n → Tracks 0 (n - 1) (f a) (g a)) :
    Tracks 1 n (p >>= f) (q >>= g) :=
  hp.bind hf

/-- A part in front of one that takes a token. -/
theorem before (hp : Tracks 0 n p q) (hf : ∀ a, Tracks 1 n (f a) (g a)) :
    Tracks 1 n (p >>= f) (q >>= g) :=
  hp.bind fun a _ => hf a

/-- Parts of which it does not matter what they take. -/
theorem andThen (hp : Tracks k n p q) (hf : ∀ a, Tracks 0 n (f a) (g a)) :
    Tracks 0 n (p >>= f) (q >>= g) :=
  (hp.bind fun a _ => (hf a).mono (Nat.le_refl 0) (Nat.sub_le n k)).mono (Nat.zero_le _)
    (Nat.le_refl n)

theorem map (hp : Tracks k n p q) (f : α → β) : Tracks k n (f <$> p) (f <$> q) := by
  rw [← bind_pure_comp, ← bind_pure_comp]
  exact hp.bind fun _ _ => .pure

/-- A token that is no end of file is stepped over. -/
theorem step {f g : Unit → Parser β} (hcd : c.Alike d) (hc : c.current.isEndOfFile = false)
    (hleft : c.left ≤ n) (h : 1 ≤ n → Tracks l (n - 1) (f ()) (g ())) :
    Matches (1 + l) c d ((Parser.advance >>= f) c) ((Parser.advance >>= g) d) := by
  have hone : 1 ≤ [c.current].length := Nat.le_refl 1
  have hstep : Matches 1 c d (Parser.advance c) (Parser.advance d) :=
    .ok hone (Cursor.passes_current_of_not hc) (hcd.passes_current hc)
  exact hstep.bind hcd hleft fun _ => h

theorem step_pure {a : α} (hcd : c.Alike d) (hc : c.current.isEndOfFile = false) :
    Matches 1 c d ((Parser.advance >>= fun _ => Pure.pure a) c)
      ((Parser.advance >>= fun _ => Pure.pure a) d) :=
  step (f := fun _ => Pure.pure a) (g := fun _ => Pure.pure a) hcd hc (Nat.le_refl c.left)
    fun _ => .pure

theorem advance : Tracks 0 n advance advance := by
  intro c d hcd _
  cases hc : c.current.isEndOfFile with
  | false =>
    exact .ok (Nat.zero_le _) (Cursor.passes_current_of_not hc) (hcd.passes_current hc)
  | true =>
    exact .ok (Nat.zero_le _) (Cursor.passes_nil_iff.mpr (Cursor.advance_eq_self hc))
      (Cursor.passes_nil_iff.mpr (Cursor.advance_eq_self (hcd.current_eq ▸ hc)))

theorem check (k : TokenClass) : Tracks 0 n (check k) (check k) := by
  intro c d hcd _
  show Matches 0 c d (.ok (c.check k, c)) (.ok (d.check k, d))
  rw [Cursor.check, Cursor.check, hcd.current_eq]
  exact .ok (Nat.zero_le _) (Cursor.passes_nil_iff.mpr rfl) (Cursor.passes_nil_iff.mpr rfl)

theorem lastSpan : Tracks 0 n lastSpan lastSpan := by
  intro c d hcd _
  show Matches 0 c d (.ok (c.lastSpan, c)) (.ok (d.lastSpan, d))
  rw [hcd.lastSpan_eq]
  exact .ok (Nat.zero_le _) (Cursor.passes_nil_iff.mpr rfl) (Cursor.passes_nil_iff.mpr rfl)

theorem spanFrom (start : Span) : Tracks 0 n (spanFrom start) (spanFrom start) :=
  lastSpan.bind fun _ _ => .pure

theorem literal (negative : Bool) (magnitude : UInt32) (span : Span) :
    Tracks 0 n (liftM (literal negative magnitude span))
      (liftM (literal negative magnitude span)) := by
  cases Parser.literal negative magnitude span with
  | ok value => exact .pure
  | error e => exact .throw

theorem current_bind {f g : Token Name → Parser β} (h : ∀ c d, c.Alike d → c.left ≤ n →
      Matches k c d (f c.current c) (g c.current d)) :
    Tracks k n (current >>= f) (current >>= g) := by
  intro c d hcd hleft
  rw [Parser.current_bind, Parser.current_bind, ← hcd.current_eq]
  exact h c d hcd hleft

theorem unexpected (expected : String) :
    Tracks k n (unexpected expected : Parser α) (unexpected expected) :=
  current_bind fun _ _ _ _ => .error

/-- A token that must be of a class, which is not that of an end of file. -/
theorem expectAs {k : TokenClass} (hk : k ≠ .endOfFile) (expected : String) :
    Tracks 1 n (expectAs k expected) (expectAs k expected) := by
  refine current_bind fun c d hcd hleft => ?_
  split
  · next h =>
    exact step_pure hcd (by simpa [Token.isEndOfFile, h] using hk)
  · exact unexpected expected c d hcd hleft

theorem keyword (k : Keyword) : Tracks 1 n (keyword k) (keyword k) :=
  expectAs (by simp) _

theorem symbol (s : Symbol) : Tracks 1 n (symbol s) (symbol s) := expectAs (by simp) _

theorem isEndOfFile_of_kind {t : Token Name} (h : t.kind ≠ .endOfFile) : t.isEndOfFile = false := by
  simpa [Token.isEndOfFile, Token.toClass, TokenKind.toClass_eq_endOfFile_iff] using h

theorem identifier : Tracks 1 n identifier identifier := by
  refine current_bind fun c d hcd hleft => ?_
  cases hk : c.current.kind with
  | identifier name =>
    exact step_pure hcd (isEndOfFile_of_kind (by simp [hk]))
  | _ => exact unexpected _ c d hcd hleft

theorem integer : Tracks 1 n integer integer := by
  refine current_bind fun c d hcd hleft => ?_
  cases hk : c.current.kind with
  | integer magnitude =>
    exact step_pure hcd (isEndOfFile_of_kind (by simp [hk]))
  | _ => exact unexpected _ c d hcd hleft

theorem textLiteral : Tracks 1 n textLiteral textLiteral := by
  refine current_bind fun c d hcd hleft => ?_
  cases hk : c.current.kind with
  | text content =>
    exact step_pure hcd (isEndOfFile_of_kind (by simp [hk]))
  | _ => exact unexpected _ c d hcd hleft

/-! ### Combinations -/

theorem ite {b : Prop} [Decidable b] (hp : Tracks k n p q) (hq : Tracks k n p' q') :
    Tracks k n (if b then p else p') (if b then q else q') := by
  split
  · exact hp
  · exact hq

theorem eat_bind {k : TokenClass} (hk : k ≠ .endOfFile) {f g : Bool → Parser β}
    (ht : 1 ≤ n → Tracks l (n - 1) (f true) (g true)) (hf : Tracks l n (f false) (g false)) :
    Tracks l n (eat k >>= f) (eat k >>= g) := by
  intro c d hcd hleft
  rw [Parser.eat_bind, Parser.eat_bind, ← hcd.current_eq]
  split
  · next h =>
    have hm := step (f := fun _ => f true) (g := fun _ => g true) hcd
      (by simpa [Token.isEndOfFile, h] using hk) hleft ht
    exact hm.mono (Nat.le_add_left l 1)
  · exact hf c d hcd hleft

theorem orElse (hp : Tracks k n p q) (hq : Tracks k n p' q') :
    Tracks k n (orElse p p') (orElse q q') := by
  intro c d hcd hleft
  have h := hp c d hcd hleft
  unfold Parser.orElse
  generalize p c = r at h
  generalize q d = r' at h
  cases h with
  | ok hts hc hd => exact .ok hts hc hd
  | error => exact hq c d hcd hleft

section
variable {announces : TokenKind Name → Option ω} {item item' : ω → Parser α}

/-- However many items the bounds allow, there are no more than tokens left. -/
theorem manyUpTo (hann : announces .endOfFile = none)
    (h : ∀ b, 1 ≤ n → Tracks 0 (n - 1) (item b) (item' b)) {bound bound' : List (Token Name)}
    (hb : n ≤ bound.length) (hb' : n ≤ bound'.length) :
    Tracks 0 n (manyUpTo announces item bound) (manyUpTo announces item' bound') := by
  induction n generalizing bound bound' with
  | zero =>
    intro c d hcd hleft
    have hc : c.left = 0 := Nat.le_zero.mp hleft
    rw [manyUpTo_of_left_eq_zero hann hc, manyUpTo_of_left_eq_zero hann (hcd.left_eq ▸ hc)]
    exact .ok (Nat.zero_le _) (Cursor.passes_nil_iff.mpr rfl) (Cursor.passes_nil_iff.mpr rfl)
  | succ n ih =>
    match bound, bound', hb, hb' with
    | _ :: bound, _ :: bound', hb, hb' =>
      simp only [List.length_cons, Nat.add_le_add_iff_right] at hb hb'
      refine current_bind fun c d hcd hleft => ?_
      cases ha : announces c.current.kind with
      | none => exact Tracks.pure c d hcd hleft
      | some b =>
        have hne : c.current.kind ≠ .endOfFile := by
          intro hk
          rw [hk, hann] at ha
          cases ha
        have hitem (b : ω) (_ : 1 ≤ n) : Tracks 0 (n - 1) (item b) (item' b) :=
          (h b (Nat.le_add_left 1 n)).mono (Nat.le_refl 0) (by omega)
        have hrest := ih hitem hb hb'
        refine (step hcd (isEndOfFile_of_kind hne) hleft fun hn => ?_).mono (Nat.zero_le (1 + 0))
        exact (h b hn).bind fun a _ => hrest.bind fun as _ => .pure

theorem many (hann : announces .endOfFile = none)
    (h : ∀ b, 1 ≤ n → Tracks 0 (n - 1) (item b) (item' b)) :
    Tracks 0 n (many announces item) (many announces item') := by
  intro c d hcd hleft
  exact manyUpTo (n := c.left) hann
    (fun b _ => (h b (by omega)).mono (Nat.le_refl 0) (by omega)) c.left_le
    (hcd.left_eq ▸ d.left_le) c d hcd (Nat.le_refl _)

end

theorem signs {k : TokenClass} (hk : k ≠ .endOfFile) :
    Tracks 0 n (Parser.many (on k) fun _ => Parser.lastSpan)
      (Parser.many (on k) fun _ => Parser.lastSpan) :=
  many (on_endOfFile hk) fun _ _ => lastSpan

theorem sepBy {k : TokenClass} (hk : k ≠ .endOfFile) (h : Tracks 1 n p q) :
    Tracks 1 n (sepBy k p) (sepBy k q) :=
  h.first fun _ _ => (many (on_endOfFile hk) fun _ _ =>
    h.mono (Nat.zero_le 1) (by omega)).andThen fun _ => .pure

theorem chainLeft {operator : TokenKind Name → Option ω} (hop : operator .endOfFile = none)
    (join : ω → α → α → α) (h : Tracks 1 n p q) :
    Tracks 1 n (chainLeft operator join p) (chainLeft operator join q) := by
  refine h.first fun _ _ => (many hop fun op _ => ?_).andThen fun _ => .pure
  exact (h.mono (Nat.zero_le 1) (by omega)).andThen fun _ => .pure

end Tracks

/-! ### Recursion -/

theorem Tracks.eq_of_left_le {p q : Parser α} (h : Tracks k n p q) (hleft : c.left ≤ n) :
    p c = q c := by
  have hc := h c c (.refl c) hleft
  generalize p c = r at hc ⊢
  generalize q c = r' at hc ⊢
  cases hc with
  | error => rfl
  | @ok a ts c' d' _ hc hd =>
    have hahead : c'.ahead = d'.ahead := List.append_cancel_left (hc.1.symm.trans hd.1)
    have hbehind : c'.behind = d'.behind := hc.2.1.trans hd.2.1.symm
    cases c'
    cases d'
    cases hahead
    cases hbehind
    rfl

/-- The bound of a repetition does not matter. -/
theorem many_eq {announces : TokenKind Name → Option ω} {item : ω → Parser α}
    (hann : announces .endOfFile = none) (h : ∀ b n, Tracks 0 n (item b) (item b)) :
    many announces item = manyBody announces item (many announces item) := by
  funext c
  show manyUpTo announces item c.ahead c = _
  obtain ⟨behind, ahead⟩ := c
  cases ahead with
  | nil =>
    have hc : Cursor.left ⟨behind, []⟩ = 0 := rfl
    rw [manyUpTo_of_left_eq_zero hann hc, manyBody, current_bind, Cursor.kind_current_eq hc, hann]
    rfl
  | cons t bound =>
    have hrest (m : Nat) (hm : m ≤ bound.length) :
        Tracks 0 m (manyUpTo announces item bound) (many announces item) := by
      intro c d hcd hleft
      exact Tracks.manyUpTo (n := c.left) hann (fun b _ => h b _) (by omega)
        (hcd.left_eq ▸ d.left_le) c d hcd (Nat.le_refl _)
    rw [manyUpTo, manyBody, current_bind, current_bind]
    cases ha : announces (Cursor.current ⟨behind, t :: bound⟩).kind with
    | none => rfl
    | some b =>
      have hne : t.kind ≠ .endOfFile := by
        intro hk
        rw [Cursor.current, hk, hann] at ha
        cases ha
      have hleft : (Cursor.advance ⟨behind, t :: bound⟩).left ≤ bound.length := by
        have hpass := passes_current (c := ⟨behind, t :: bound⟩) hne
        have hle := Cursor.left_le ⟨behind, t :: bound⟩
        have heq := hpass.left_eq
        simp only [List.length_cons, List.length_nil] at heq hle
        omega
      have hitem : Tracks 0 bound.length
          (item b >>= fun a => manyUpTo announces item bound >>= fun as => pure (a :: as))
          (item b >>= fun a => many announces item >>= fun as => pure (a :: as)) :=
        (h b _).andThen fun _ => (hrest _ (Nat.le_refl _)).andThen fun _ => .pure
      exact hitem.eq_of_left_le hleft

/-- The parsers `p`, one for each context, are those that `body` makes of themselves, and there are
no others: what `body` makes of parsers with some tokens left only depends on what they do with
fewer. -/
structure Recursion (body : (Context → Parser α) → Context → Parser α) (p : Context → Parser α) :
    Prop where
  unfolds : ∀ ctx, p ctx = body p ctx
  descends : ∀ n f g, (∀ m < n, ∀ ctx, Tracks 1 m (f ctx) (g ctx)) →
    ∀ ctx, Tracks 1 n (body f ctx) (body g ctx)

namespace Recursion

variable {body : (Context → Parser α) → Context → Parser α} {p q : Context → Parser α}

theorem tracks_of_unfolds (h : Recursion body p) (hq : ∀ ctx, q ctx = body q ctx) (n : Nat)
    (ctx : Context) : Tracks 1 n (p ctx) (q ctx) := by
  induction n using Nat.strongRecOn generalizing ctx with
  | _ n ih =>
    rw [h.unfolds, hq]
    exact h.descends n p q ih ctx

theorem tracks (h : Recursion body p) (n : Nat) (ctx : Context) : Tracks 1 n (p ctx) (p ctx) :=
  h.tracks_of_unfolds h.unfolds n ctx

theorem unique (h : Recursion body p) (hq : ∀ ctx, q ctx = body q ctx) : q = p :=
  funext fun ctx => funext fun c =>
    ((h.tracks_of_unfolds hq c.left ctx).eq_of_left_le (Nat.le_refl _)).symm

/-- Recursion up to a bound, which is the list of the tokens ahead. The bound does not matter, as
there are no more tokens left than tokens ahead. -/
theorem of_bounded {bounded : Context → List (Token Name) → Parser α} {expected : String}
    (descends : ∀ n f g, (∀ m < n, ∀ ctx, Tracks 1 m (f ctx) (g ctx)) →
      ∀ ctx, Tracks 1 n (body f ctx) (body g ctx))
    (atEnd : ∀ f ctx, AsksFor expected (body f ctx))
    (nil : ∀ ctx, bounded ctx [] = unexpected expected)
    (cons : ∀ ctx t bound, bounded ctx (t :: bound) = body (bounded · bound) ctx)
    (start : ∀ ctx c, p ctx c = bounded ctx c.ahead c) : Recursion body p := by
  have hend (ctx : Context) (bound : List (Token Name)) : AsksFor expected (bounded ctx bound) := by
    cases bound with
    | nil =>
      rw [nil]
      exact .unexpected expected
    | cons t bound =>
      rw [cons]
      exact atEnd _ ctx
  have hbounds : ∀ n ctx (bound bound' : List (Token Name)), n ≤ bound.length → n ≤ bound'.length →
      Tracks 1 n (bounded ctx bound) (bounded ctx bound') := by
    intro n
    induction n using Nat.strongRecOn with
    | _ n ih =>
      intro ctx bound bound' hb hb'
      match bound, bound' with
      | t :: bound, t' :: bound' =>
        rw [cons, cons]
        simp only [List.length_cons] at hb hb'
        exact descends n _ _ (fun m hm ctx => ih m hm ctx _ _ (by omega) (by omega)) ctx
      | [], bound' =>
        intro c d hcd hleft
        have hc : c.left = 0 := by simp only [List.length_nil] at hb; omega
        rw [hend ctx _ c hc, hend ctx _ d (hcd.left_eq ▸ hc), hcd.current_eq]
        exact .error
      | bound, [] =>
        intro c d hcd hleft
        have hc : c.left = 0 := by simp only [List.length_nil] at hb'; omega
        rw [hend ctx _ c hc, hend ctx _ d (hcd.left_eq ▸ hc), hcd.current_eq]
        exact .error
  refine ⟨fun ctx => ?_, descends⟩
  funext c
  rw [start]
  cases hahead : c.ahead with
  | nil =>
    have hc : c.left = 0 := by rw [Cursor.left, hahead]; rfl
    rw [hend ctx _ c hc, atEnd _ ctx c hc]
  | cons t bound =>
    rw [cons]
    have hp (m : Nat) (hm : m ≤ bound.length) (ctx : Context) :
        Tracks 1 m (bounded ctx bound) (p ctx) := by
      intro c d hcd hleft
      rw [start]
      exact hbounds c.left ctx bound d.ahead (by omega) (hcd.left_eq ▸ d.left_le) c d hcd
        (Nat.le_refl _)
    have hleft : c.left ≤ bound.length + 1 := by
      simpa [hahead] using c.left_le
    exact (descends c.left _ p (fun m hm => hp m (by omega)) ctx).eq_of_left_le (Nat.le_refl _)

end Recursion

end Parser

end Enquanto

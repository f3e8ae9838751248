import Enquanto.Names
import Mathlib.Algebra.Group.Nat.Defs
import Mathlib.Data.Finset.Card

/-!
# A table of names with a map

Interned strings are kept in two ways: in order, so that a name is read back, and in a map from each
string to its place, so that its name is found without a search. Places have 32 bits, and a string
that is not in the map is looked up once more before it is added.

* `Interner.tryIntern` and `Interner.internAll`: one string, or one after another;
* `Interner.Agrees`: the map and the strings agree entry by entry, after whatever calls;
* `Interner.Lists`: the table holds the strings of the calls, as long as there is room for them;
* `Interner.Agrees.internAll_eq`: interning without the map gives the same names and strings;
* `Interner.internAll_numbered`: the names that calls on a new table give.
-/

namespace Enquanto

open Names (CapacityError)

/-- The name with this number of 32 bits. -/
def Name.ofRaw (index : UInt32) : Name := ⟨index.toNat⟩

theorem Name.ofRaw_ofNat {n : Nat} (h : n < 2 ^ 32) : ofRaw (.ofNat n) = ⟨n⟩ := by
  rw [ofRaw, UInt32.toNat_ofNat_of_lt' h]

/-- A table of strings in order of first appearance, and the map from each of them to its place. -/
structure Interner where
  map : Std.HashMap String UInt32
  strings : Array String

/-- Strings interned one after another, without a map. -/
def Names.internAll (calls : List String) (names : Names) : List Name × Names :=
  (calls.mapM intern : StateM Names (List Name)).run names

namespace Interner

variable {t : Interner} {calls : List String} {s s' : String} {x x' : Name}

/-- The table that holds the empty string only. -/
def new : Interner := ⟨(∅ : Std.HashMap String UInt32).insert "" 0, #[""]⟩

def size (t : Interner) : Nat := t.strings.size

/-- The string of a name. -/
def lookup (t : Interner) (name : Name) : String := t.strings.getD name.index ""

/-- The table with one string more, at the end. -/
def push (s : String) (t : Interner) : Interner :=
  ⟨t.map.insert s (.ofNat t.size), t.strings.push s⟩

/-- A string that was not found is looked up once more, then added if there is a number for it. -/
def add (s : String) (t : Interner) : Except CapacityError Name × Interner :=
  match t.map[s]? with
  | some index => (.ok (.ofRaw index), t)
  | none =>
    if t.size < 2 ^ 32 then (.ok (.ofRaw (.ofNat t.size)), t.push s) else (.error ⟨t.size⟩, t)

/-- The name of a string, and the table with that string in it. -/
def tryIntern (s : String) (t : Interner) : Except CapacityError Name × Interner :=
  match t.map[s]? with
  | some index => (.ok (.ofRaw index), t)
  | none => add s t

/-- Strings interned one after another. -/
def internAll : List String → Interner → List (Except CapacityError Name) × Interner
  | [], t => ([], t)
  | s :: rest, t =>
    ((tryIntern s t).1 :: (internAll rest (tryIntern s t).2).1,
      (internAll rest (tryIntern s t).2).2)

/-- The table that calls on a new one leave. -/
def after (calls : List String) : Interner := (internAll calls new).2

/-- The map has this name for the string. -/
def Holds (t : Interner) (s : String) (x : Name) : Prop := t.map[s]?.map .ofRaw = some x

/-- The map and the strings agree entry by entry. -/
def Agrees (t : Interner) : Prop := ∀ s x, t.Holds s x ↔ t.strings[x.index]? = some s

/-! ## One call -/

/-- What a call does: it finds the string, adds it, or fails in a full table. -/
theorem tryIntern_cases (s : String) (t : Interner) :
    (∃ x, t.Holds s x ∧ tryIntern s t = (.ok x, t)) ∨
      (t.map[s]? = none ∧ t.size < 2 ^ 32 ∧ tryIntern s t = (.ok ⟨t.size⟩, t.push s)) ∨
      (t.map[s]? = none ∧ 2 ^ 32 ≤ t.size ∧ tryIntern s t = (.error ⟨t.size⟩, t)) := by
  unfold Holds tryIntern add
  -- No other call comes between the two searches, so the second finds what the first one found.
  cases hmap : t.map[s]? with
  | some index => exact .inl ⟨.ofRaw index, rfl, rfl⟩
  | none =>
    rcases Nat.lt_or_ge t.size (2 ^ 32) with hsize | hsize
    · refine .inr (.inl ⟨rfl, hsize, ?_⟩)
      simp only [if_pos hsize, Name.ofRaw_ofNat hsize]
    · refine .inr (.inr ⟨rfl, hsize, ?_⟩)
      simp only [if_neg hsize.not_gt]

theorem holds_push_self (hsize : t.size < 2 ^ 32) : (t.push s).Holds s ⟨t.size⟩ := by
  rw [Holds, push, Std.HashMap.getElem?_insert_self, Option.map_some, Name.ofRaw_ofNat hsize]

theorem holds_push_of_ne (hne : s ≠ s') : (t.push s).Holds s' x ↔ t.Holds s' x := by
  rw [Holds, push, Std.HashMap.getElem?_insert, if_neg (by simpa using hne), Holds]

theorem not_holds (hnew : t.map[s]? = none) : ¬ t.Holds s x := by
  rw [Holds, hnew]
  nofun

theorem Holds.unique (hx : t.Holds s x) (hx' : t.Holds s x') : x = x' :=
  Option.some.inj (hx.symm.trans hx')

/-- A name that was given is kept by every later call. -/
theorem Holds.tryIntern (hx : t.Holds s x) (s' : String) : (tryIntern s' t).2.Holds s x := by
  obtain ⟨x', -, he⟩ | ⟨hnew, -, he⟩ | ⟨-, -, he⟩ := tryIntern_cases s' t
  · rwa [he]
  · rw [he]
    refine (holds_push_of_ne ?_).mpr hx
    rintro rfl
    exact not_holds hnew hx
  · rwa [he]

/-- The map has the name that a call gives. -/
theorem holds_tryIntern (hx : (tryIntern s t).1 = .ok x) : (tryIntern s t).2.Holds s x := by
  obtain ⟨x', hx', he⟩ | ⟨-, hsize, he⟩ | ⟨-, -, he⟩ := tryIntern_cases s t
  · rw [he] at hx ⊢
    cases hx
    exact hx'
  · rw [he] at hx ⊢
    cases hx
    exact holds_push_self hsize
  · rw [he] at hx
    cases hx

/-! ## The map and the strings -/

/-- A new string is added to the map and to the strings at the same place. -/
theorem Agrees.push (h : t.Agrees) (hnew : t.map[s]? = none) (hsize : t.size < 2 ^ 32) :
    (t.push s).Agrees := by
  intro s' x
  rcases eq_or_ne s s' with rfl | hne
  · have hself : (t.push s).Holds s x ↔ x.index = t.size := by
      constructor
      · intro hx
        rw [hx.unique (holds_push_self hsize)]
      · intro hx
        have hname : x = ⟨t.size⟩ := congrArg Name.mk hx
        rw [hname]
        exact holds_push_self hsize
    have hold : t.strings[x.index]? ≠ some s := fun hx => not_holds hnew ((h s x).mpr hx)
    rw [hself, Interner.push, Array.getElem?_push]
    split
    · exact iff_of_true ‹_› rfl
    · exact iff_of_false ‹_› hold
  · rw [holds_push_of_ne hne, h, Interner.push, Array.getElem?_push]
    split
    · rename_i hx
      rw [hx]
      exact iff_of_false (by simp) (by simpa using hne)
    · rfl

theorem agrees_new : new.Agrees := by
  -- The empty string is added to a table that has none.
  have hempty : Agrees ⟨∅, #[]⟩ := fun s x => by
    rw [Holds, Std.HashMap.getElem?_empty]
    simp
  exact hempty.push Std.HashMap.getElem?_empty (by decide)

/-- Every call keeps the map and the strings in agreement, also one that fails. -/
theorem Agrees.tryIntern (h : t.Agrees) (s : String) : (tryIntern s t).2.Agrees := by
  obtain ⟨x, -, he⟩ | ⟨hnew, hsize, he⟩ | ⟨-, -, he⟩ := tryIntern_cases s t
  · rwa [he]
  · rw [he]
    exact h.push hnew hsize
  · rwa [he]

theorem Agrees.internAll (h : t.Agrees) (calls : List String) : (internAll calls t).2.Agrees := by
  induction calls generalizing t with
  | nil => exact h
  | cons s rest ih => exact ih (h.tryIntern s)

theorem agrees_after (calls : List String) : (after calls).Agrees := agrees_new.internAll calls

theorem Agrees.lookup_eq (h : t.Agrees) (hx : t.Holds s x) : t.lookup x = s := by
  rw [lookup, Array.getD_eq_getD_getElem?, (h s x).mp hx, Option.getD_some]

/-- Different strings have different names. -/
theorem Agrees.name_eq_iff (h : t.Agrees) (hx : t.Holds s x) (hx' : t.Holds s' x') :
    x = x' ↔ s = s' := by
  constructor
  · rintro rfl
    rw [← h.lookup_eq hx, h.lookup_eq hx']
  · rintro rfl
    exact hx.unique hx'

theorem Agrees.nodup (h : t.Agrees) : t.strings.toList.Nodup := by
  rw [List.nodup_iff_getElem?_ne_getElem?]
  intro i j hij hj he
  rw [Array.length_toList] at hj
  rw [Array.getElem?_toList, Array.getElem?_toList, Array.getElem?_eq_getElem hj] at he
  have hi := (h t.strings[j] ⟨i⟩).mpr he
  have hj := (h t.strings[j] ⟨j⟩).mpr (Array.getElem?_eq_getElem hj)
  exact hij.ne (congrArg Name.index (hi.unique hj))

theorem Agrees.mem_iff (h : t.Agrees) : s ∈ t.strings ↔ t.map[s]? ≠ none := by
  rw [Array.mem_iff_getElem?, Option.ne_none_iff_exists']
  constructor
  · rintro ⟨i, hi⟩
    obtain ⟨index, hindex, -⟩ := Option.map_eq_some_iff.mp ((h s ⟨i⟩).mpr hi)
    exact ⟨index, hindex⟩
  · rintro ⟨index, hindex⟩
    exact ⟨index.toNat, (h s (.ofRaw index)).mp (by rw [Holds, hindex, Option.map_some])⟩

/-! ## Calls one after another -/

theorem internAll_concat (calls : List String) (s : String) (t : Interner) :
    internAll (calls ++ [s]) t =
      ((internAll calls t).1 ++ [(tryIntern s (internAll calls t).2).1],
        (tryIntern s (internAll calls t).2).2) := by
  induction calls generalizing t with
  | nil => rfl
  | cons s' rest ih => rw [List.cons_append, internAll, ih, internAll, List.cons_append]

theorem after_concat (calls : List String) (s : String) :
    after (calls ++ [s]) = (tryIntern s (after calls)).2 := by
  rw [after, internAll_concat, after]

theorem length_internAll (calls : List String) (t : Interner) :
    (internAll calls t).1.length = calls.length := by
  induction calls generalizing t with
  | nil => rfl
  | cons s rest ih => rw [internAll, List.length_cons, ih, List.length_cons]

/-- A call is answered by the table that the calls before it leave. -/
theorem getElem?_internAll (calls : List String) (i : Nat) (t : Interner) :
    (internAll calls t).1[i]? =
      calls[i]?.map fun s => (tryIntern s (internAll (calls.take i) t).2).1 := by
  induction calls generalizing i t with
  | nil => rfl
  | cons s rest ih =>
    cases i with
    | zero => rfl
    | succ i => exact ih i (tryIntern s t).2

theorem Holds.internAll (hx : t.Holds s x) (calls : List String) :
    (internAll calls t).2.Holds s x := by
  induction calls generalizing t with
  | nil => exact hx
  | cons s' rest ih => exact ih (hx.tryIntern s')

/-- A name is in the map from the call on that gave it. -/
theorem holds_internAll {i n : Nat} (hn : i < n) (hs : calls[i]? = some s)
    (hx : (internAll calls t).1[i]? = some (.ok x)) : (internAll (calls.take n) t).2.Holds s x := by
  induction calls generalizing i n t with
  | nil => simp at hs
  | cons s' rest ih =>
    obtain ⟨n, rfl⟩ := Nat.exists_eq_succ_of_ne_zero (Nat.ne_zero_of_lt hn)
    cases i with
    | zero =>
      cases hs
      exact (holds_tryIntern (Option.some.inj hx)).internAll _
    | succ i => exact ih (Nat.lt_of_succ_lt_succ hn) hs hx

/-! ## The strings of a table -/

/-- The table is that of some calls: it has the empty string and the strings of the calls. -/
structure Lists (t : Interner) (calls : List String) : Prop where
  agrees : t.Agrees
  mem_iff : ∀ s, s ∈ t.strings ↔ s = "" ∨ s ∈ calls

theorem lists_new : new.Lists [] := ⟨agrees_new, by simp [new]⟩

/-- The strings are counted without repetition, the empty one apart. -/
theorem Lists.size_eq (h : t.Lists calls) : t.size = (calls.toFinset.erase "").card + 1 := by
  have hset : t.strings.toList.toFinset = insert "" (calls.toFinset.erase "") := by
    ext s
    rw [List.mem_toFinset, Array.mem_toList_iff, h.mem_iff, Finset.mem_insert, Finset.mem_erase,
      List.mem_toFinset]
    tauto
  calc t.size = t.strings.toList.toFinset.card := by
        rw [List.toFinset_card_of_nodup h.agrees.nodup, Array.length_toList, size]
    _ = (calls.toFinset.erase "").card + 1 := by
        rw [hset, Finset.card_insert_of_notMem (Finset.notMem_erase _ _)]

/-- There is a number for a new string as long as there are not too many strings with it. -/
theorem Lists.room (h : t.Lists calls) (hnew : t.map[s]? = none)
    (hcard : (calls ++ [s]).toFinset.card < 2 ^ 32) : t.size < 2 ^ 32 := by
  have hs : s ∉ calls.toFinset := by
    rw [List.mem_toFinset]
    exact fun hs => h.agrees.mem_iff.mp ((h.mem_iff s).mpr (.inr hs)) hnew
  have hconcat : (calls ++ [s]).toFinset = insert s calls.toFinset := by
    ext r
    simp
  calc t.size = (calls.toFinset.erase "").card + 1 := h.size_eq
    _ ≤ calls.toFinset.card + 1 := Nat.succ_le_succ (Finset.card_erase_le)
    _ = (calls ++ [s]).toFinset.card := by rw [hconcat, Finset.card_insert_of_notMem hs]
    _ < 2 ^ 32 := hcard

/-- With room for its string a call gives a name. -/
theorem Lists.tryIntern (h : t.Lists calls) (hcard : (calls ++ [s]).toFinset.card < 2 ^ 32) :
    ∃ x, (tryIntern s t).1 = .ok x ∧ (tryIntern s t).2.Lists (calls ++ [s]) := by
  obtain ⟨x, hx, he⟩ | ⟨hnew, hsize, he⟩ | ⟨hnew, hsize, -⟩ := tryIntern_cases s t
  · refine ⟨x, by rw [he], by rw [he]; exact h.agrees, fun r => ?_⟩
    have hs := (h.mem_iff s).mp (Array.mem_of_getElem? ((h.agrees s x).mp hx))
    rw [he, h.mem_iff]
    grind
  · refine ⟨⟨t.size⟩, by rw [he], by rw [he]; exact h.agrees.push hnew hsize, fun r => ?_⟩
    rw [he, push, Array.mem_push, h.mem_iff]
    grind
  · exact absurd (h.room hnew hcard) hsize.not_gt

theorem card_lt_of_subset {earlier : List String} (hcard : calls.toFinset.card < 2 ^ 32)
    (hsubset : earlier ⊆ calls) : earlier.toFinset.card < 2 ^ 32 := by
  refine (Finset.card_le_card fun r hr => ?_).trans_lt hcard
  rw [List.mem_toFinset] at hr ⊢
  exact hsubset hr

theorem lists_after (hcard : calls.toFinset.card < 2 ^ 32) : (after calls).Lists calls := by
  induction calls using List.reverseRecOn with
  | nil => exact lists_new
  | append_singleton calls s ih =>
    have hcalls := card_lt_of_subset hcard (List.subset_append_left calls [s])
    obtain ⟨x, -, hlists⟩ := (ih hcalls).tryIntern hcard
    rwa [after_concat]

/-- With room for the strings of the calls every one of them gives a name. -/
theorem exists_names (hcard : calls.toFinset.card < 2 ^ 32) :
    ∃ names : List Name, (internAll calls new).1 = names.map .ok := by
  induction calls using List.reverseRecOn with
  | nil => exact ⟨[], rfl⟩
  | append_singleton calls s ih =>
    have hcalls := card_lt_of_subset hcard (List.subset_append_left calls [s])
    obtain ⟨names, hnames⟩ := ih hcalls
    obtain ⟨x, hx, -⟩ := (lists_after hcalls).tryIntern hcard
    refine ⟨names ++ [x], ?_⟩
    rw [after] at hx
    rw [internAll_concat, hnames, hx, List.map_append, List.map_singleton]

/-! ## The table without its map -/

/-- The map finds what a search through the strings finds. -/
theorem Agrees.findIdx?_eq (h : t.Agrees) (s : String) :
    t.strings.findIdx? (· == s) = t.map[s]?.map UInt32.toNat := by
  cases hmap : t.map[s]? with
  | none =>
    rw [Option.map_none, Array.findIdx?_eq_none_iff]
    intro r hr
    rw [beq_eq_false_iff_ne]
    rintro rfl
    exact h.mem_iff.mp hr hmap
  | some index =>
    have hx : t.Holds s (.ofRaw index) := by rw [Holds, hmap, Option.map_some]
    obtain ⟨hlt, hs⟩ := Array.getElem?_eq_some_iff.mp ((h s _).mp hx)
    rw [Option.map_some, Array.findIdx?_eq_some_iff_getElem]
    refine ⟨hlt, beq_iff_eq.mpr hs, fun j hj he => ?_⟩
    -- an earlier place of the string would be another name of it
    have hother : t.Holds s ⟨j⟩ :=
      (h s ⟨j⟩).mpr (Array.getElem?_eq_some_iff.mpr ⟨hj.trans hlt, beq_iff_eq.mp he⟩)
    exact hj.ne (congrArg Name.index (hother.unique hx))

/-- A call gives the name that interning without the map gives, and leaves the same strings. -/
theorem Agrees.intern_eq (h : t.Agrees) (hx : (Interner.tryIntern s t).1 = .ok x) :
    Names.intern s ⟨t.strings⟩ = (x, ⟨(Interner.tryIntern s t).2.strings⟩) := by
  obtain ⟨x', hx', he⟩ | ⟨hnew, -, he⟩ | ⟨-, -, he⟩ := tryIntern_cases s t
  · rw [he] at hx ⊢
    cases hx
    obtain ⟨index, hindex, rfl⟩ := Option.map_eq_some_iff.mp hx'
    simp only [Names.intern, h.findIdx?_eq, hindex, Option.map_some, Name.ofRaw]
  · rw [he] at hx ⊢
    cases hx
    simp only [Names.intern, h.findIdx?_eq, hnew, Option.map_none, size, Interner.push]
  · rw [he] at hx
    cases hx

theorem names_internAll_cons (s : String) (rest : List String) (names : Names) :
    Names.internAll (s :: rest) names =
      ((Names.intern s names).1 :: (Names.internAll rest (Names.intern s names).2).1,
        (Names.internAll rest (Names.intern s names).2).2) := by
  rw [Names.internAll, List.mapM_cons]
  rfl

/-- Interning with the map and without it gives the same names and leaves the same strings. -/
theorem Agrees.internAll_eq {names : List Name} (h : t.Agrees)
    (hnames : (Interner.internAll calls t).1 = names.map .ok) :
    Names.internAll calls ⟨t.strings⟩ = (names, ⟨(Interner.internAll calls t).2.strings⟩) := by
  induction calls generalizing t names with
  | nil =>
    cases List.map_eq_nil_iff.mp hnames.symm
    rfl
  | cons s rest ih =>
    obtain ⟨x, names, rfl, hx, hrest⟩ := List.map_eq_cons_iff.mp hnames.symm
    rw [names_internAll_cons, h.intern_eq hx.symm, ih (h.tryIntern s) hrest.symm,
      Interner.internAll]

/-! ## Calls on a new table -/

/-- What the names of calls on a new table are, and what the tables are that the calls leave. -/
structure Numbered (calls : List String) (names : List Name) : Prop where
  length_eq : names.length = calls.length
  /-- Two strings have the same name exactly when they are equal. -/
  eq_iff : ∀ s s' x x', (s, x) ∈ calls.zip names → (s', x') ∈ calls.zip names → (x = x' ↔ s = s')
  /-- A string is read back from its name by the table after its call and after any later one. -/
  lookup_eq : ∀ i n s x, i < n → calls[i]? = some s → names[i]? = some x →
    (after (calls.take n)).lookup x = s
  /-- No string is in the table twice. -/
  nodup : (after calls).strings.toList.Nodup
  /-- The map has the entries of the table, each with its place, and no others. -/
  agrees : ∀ (s : String) (x : Name),
    (after calls).map[s]?.map .ofRaw = some x ↔ (after calls).strings[x.index]? = some s
  /-- The empty string has the name zero. -/
  empty : ∀ x, ("", x) ∈ calls.zip names → x = ⟨0⟩
  /-- The other strings have the names from one on, in order of first appearance. -/
  first : ∀ i s x, calls[i]? = some s → names[i]? = some x → s ≠ "" → s ∉ calls.take i →
    x.index = ((calls.take i).toFinset.erase "").card + 1
  /-- The table has the empty string and the others that were interned. -/
  size_eq : (after calls).size = (calls.toFinset.erase "").card + 1
  /-- Interning without a map gives the same names and leaves the same strings. -/
  internAll_eq : Names.internAll calls .initial = (names, ⟨(after calls).strings⟩)

/-- The first call for a string gives it the next name. -/
theorem Lists.eq_size_of_notMem (h : t.Lists calls) (hempty : s ≠ "") (hs : s ∉ calls)
    (hx : (Interner.tryIntern s t).1 = .ok x) : x = ⟨t.size⟩ := by
  have hmem : s ∉ t.strings := fun hmem => ((h.mem_iff s).mp hmem).elim hempty hs
  obtain ⟨x', hx', -⟩ | ⟨-, -, he⟩ | ⟨-, -, he⟩ := tryIntern_cases s t
  · exact absurd (Array.mem_of_getElem? ((h.agrees s x').mp hx')) hmem
  · rw [he] at hx
    cases hx
    rfl
  · rw [he] at hx
    cases hx

/-- The map has every name that was given for the string of its call. -/
theorem holds_of_mem_zip {names : List Name} (hnames : (internAll calls t).1 = names.map .ok)
    (hmem : (s, x) ∈ calls.zip names) : (internAll calls t).2.Holds s x := by
  obtain ⟨i, hi⟩ := List.mem_iff_getElem?.mp hmem
  obtain ⟨hs, hx⟩ := List.getElem?_zip_eq_some.mp hi
  have hlt := (List.getElem?_eq_some_iff.mp hs).1
  have hheld : (internAll (calls.take calls.length) t).2.Holds s x :=
    holds_internAll hlt hs (by rw [hnames, List.getElem?_map, hx, Option.map_some])
  rwa [List.take_length] at hheld

/-- Calls on a new table with fewer than `2 ^ 32` different strings all give names, and these number
the strings in order of first appearance. -/
theorem internAll_numbered (calls : List String) (hcard : calls.toFinset.card < 2 ^ 32) :
    ∃ names : List Name,
      (internAll calls new).1 = names.map Except.ok ∧ Numbered calls names := by
  obtain ⟨names, hnames⟩ := exists_names hcard
  have hanswer {i : Nat} {x : Name} (hx : names[i]? = some x) :
      (internAll calls new).1[i]? = some (.ok x) := by
    rw [hnames, List.getElem?_map, hx, Option.map_some]
  have hlists := lists_after hcard
  refine ⟨names, hnames, ?length, ?unique, ?lookup, hlists.agrees.nodup, hlists.agrees, ?empty,
    ?first, hlists.size_eq, agrees_new.internAll_eq hnames⟩
  case length =>
    rw [← length_internAll calls new, hnames, List.length_map]
  case unique =>
    intro s s' x x' hx hx'
    exact hlists.agrees.name_eq_iff (holds_of_mem_zip hnames hx) (holds_of_mem_zip hnames hx')
  case lookup =>
    intro i n s x hn hs hx
    exact (agrees_after _).lookup_eq (holds_internAll hn hs (hanswer hx))
  case empty =>
    intro x hx
    have hzero : new.Holds "" ⟨0⟩ := (agrees_new "" ⟨0⟩).mpr rfl
    exact (holds_of_mem_zip hnames hx).unique (hzero.internAll calls)
  case first =>
    intro i s x hs hx hempty hnew
    have htable := lists_after (card_lt_of_subset hcard (List.take_subset i calls))
    have hcall := getElem?_internAll calls i new
    rw [hanswer hx, hs, Option.map_some] at hcall
    rw [htable.eq_size_of_notMem hempty hnew (Option.some.inj hcall).symm, htable.size_eq]

/-- A string that is interned again has the same name, and the empty string is not a new one. -/
theorem internAll_numbered_repeated :
    ["x", "", "y", "x"].toFinset.card < 2 ^ 32 ∧
      (internAll ["x", "", "y", "x"] new).1 = [.ok ⟨1⟩, .ok ⟨0⟩, .ok ⟨2⟩, .ok ⟨1⟩] ∧
        (after ["x", "", "y", "x"]).strings = #["", "x", "y"] ∧
          (after ["x", "", "y", "x"]).Holds "y" ⟨2⟩ := by
  have hcard : ["x", "", "y", "x"].toFinset.card < 2 ^ 32 := by decide
  have hsearch : Names.internAll ["x", "", "y", "x"] .initial =
      ([⟨1⟩, ⟨0⟩, ⟨2⟩, ⟨1⟩], ⟨#["", "x", "y"]⟩) := by decide +kernel
  obtain ⟨names, hnames, hnumbered⟩ := internAll_numbered ["x", "", "y", "x"] hcard
  obtain ⟨rfl, htable⟩ := Prod.mk.inj (hnumbered.internAll_eq.symm.trans hsearch)
  have hstrings : (after ["x", "", "y", "x"]).strings = #["", "x", "y"] :=
    congrArg Names.strings htable
  refine ⟨hcard, hnames, hstrings, (hnumbered.agrees "y" ⟨2⟩).mpr ?_⟩
  rw [hstrings]
  rfl

end Interner

end Enquanto

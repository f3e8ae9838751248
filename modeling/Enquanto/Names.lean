/-!
# Interned names

Identifiers and text literals are kept once, in a table, and are named by their place in it. Place
zero holds the empty string; the others are given in order of first appearance.

* `Names.intern` finds a string or adds it;
* `Names.text` reads a name back, and gives the empty string for a name that the table lacks.
-/

namespace Enquanto

/-- The place of a string in a table of names. -/
structure Name where
  index : Nat
  deriving DecidableEq, Repr, Inhabited

/-- A table of strings, without repetition, in order of first appearance. -/
structure Names where
  strings : Array String
  deriving DecidableEq, Repr

namespace Names

/-- The table that holds the empty string only. -/
def initial : Names := ⟨#[""]⟩

instance : Inhabited Names := ⟨initial⟩

def size (names : Names) : Nat := names.strings.size

def isEmpty (names : Names) : Bool := names.strings.isEmpty

/-- The name of a string, and the table with that string in it. -/
def intern (string : String) (names : Names) : Name × Names :=
  match names.strings.findIdx? (· == string) with
  | some index => (⟨index⟩, names)
  | none => (⟨names.strings.size⟩, ⟨names.strings.push string⟩)

/-- The string of a name. -/
def text (names : Names) (name : Name) : String :=
  names.strings.getD name.index ""

/-- A string is read back from its name. -/
theorem text_intern (string : String) (names : Names) :
    (intern string names).2.text (intern string names).1 = string := by
  unfold intern
  split
  · rename_i index h
    obtain ⟨hi, he, _⟩ := Array.findIdx?_eq_some_iff_getElem.mp h
    simpa [text, Array.getD, hi] using he
  · simp [text]

/-- Interning a string keeps the names that there are. -/
theorem text_intern_of_lt (string : String) (names : Names) (name : Name)
    (h : name.index < names.size) : (intern string names).2.text name = names.text name := by
  unfold intern
  split
  · rfl
  · have h' : name.index < names.strings.size := h
    simp [text, Array.getElem?_push_lt h', h']

/-- Names have 32 bits: the table is full at `count` strings. -/
structure CapacityError where
  count : Nat
  deriving DecidableEq, Repr

def CapacityError.message (error : CapacityError) : String :=
  "interner exceeded capacity: " ++ toString error.count ++ " strings"

end Names

end Enquanto

/-!
# White space

The characters with the Unicode property White_Space, and the words that they separate.
-/

namespace Enquanto.Text

/-- The code points with the property White_Space. -/
def blanks : List Nat :=
  [0x9, 0xa, 0xb, 0xc, 0xd, 0x20, 0x85, 0xa0, 0x1680, 0x2000, 0x2001, 0x2002, 0x2003, 0x2004,
    0x2005, 0x2006, 0x2007, 0x2008, 0x2009, 0x200a, 0x2028, 0x2029, 0x202f, 0x205f, 0x3000]

def isBlank (c : Char) : Bool := blanks.contains c.toNat

/-- One more character in front of the words of a text. The first of the pieces is what the text
starts with, and is empty if that is a blank. -/
def addToWords (c : Char) : List (List Char) → List (List Char)
  | [] => if isBlank c then [[]] else [[c]]
  | piece :: pieces => if isBlank c then [] :: piece :: pieces else (c :: piece) :: pieces

/-- The runs of characters between blanks. -/
def words (text : List Char) : List (List Char) :=
  (text.foldr addToWords [[]]).filter (· ≠ [])

end Enquanto.Text

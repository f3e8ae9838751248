/-!
# Spans and positions

A span is a range of byte offsets in a UTF-8 source. Tokens, syntax trees, nodes and errors carry
one. `Span.merge` covers two spans, and `Span.lineColumn` turns the start of a span into the
position that an error report shows.
-/

namespace Enquanto

/-- A range of byte offsets: from `start` up to `stop`. -/
structure Span where
  start : Nat
  stop : Nat
  deriving DecidableEq, Repr, Inhabited

namespace Span

/-- The span of what has no place in a source. -/
def nowhere : Span := ⟨0, 0⟩

/-- The empty span at `offset`. -/
def point (offset : Nat) : Span := ⟨offset, offset⟩

def length (s : Span) : Nat := s.stop - s.start

def isEmpty (s : Span) : Bool := s.start == s.stop

/-- The least span that covers both. -/
def merge (s t : Span) : Span := ⟨min s.start t.start, max s.stop t.stop⟩

/-- How a span is written: `start..stop`. -/
def text (s : Span) : String := toString s.start ++ ".." ++ toString s.stop

@[simp] theorem merge_start (s t : Span) : (s.merge t).start = min s.start t.start := rfl

@[simp] theorem merge_stop (s t : Span) : (s.merge t).stop = max s.stop t.stop := rfl

theorem merge_self (s : Span) : s.merge s = s := by
  simp [merge]

/-! ## Spans of a range

Offsets have 32 bits. A range that does not fit is refused by `ofRange?` and cut off by
`ofRange`. -/

/-- The largest offset. -/
def maxOffset : Nat := 4294967295

/-- Which end of a range is too large. -/
inductive RangeError where
  | startTooLarge (value : Nat)
  | stopTooLarge (value : Nat)
  deriving DecidableEq, Repr

def RangeError.message : RangeError → String
  | .startTooLarge value => "span start " ++ toString value ++ " exceeds u32::MAX"
  | .stopTooLarge value => "span end " ++ toString value ++ " exceeds u32::MAX"

/-- The span of a range whose ends fit; of two ends too large the start is reported. -/
def ofRange? (start stop : Nat) : Except RangeError Span :=
  if maxOffset < start then .error (.startTooLarge start)
  else if maxOffset < stop then .error (.stopTooLarge stop)
  else .ok ⟨start, stop⟩

/-- The span of a range; once one of its ends is too large, it reaches to the last offset. -/
def ofRange (start stop : Nat) : Span :=
  match ofRange? start stop with
  | .ok span => span
  | .error _ => ⟨min start maxOffset, maxOffset⟩

/-- From left to right, both ends of a range are cut off at the last offset. -/
theorem ofRange_eq {start stop : Nat} (h : start ≤ stop) :
    ofRange start stop = ⟨min start maxOffset, min stop maxOffset⟩ := by
  unfold ofRange ofRange?
  by_cases hstop : maxOffset < stop
  · have hmin : min stop maxOffset = maxOffset := Nat.min_eq_right (Nat.le_of_lt hstop)
    rw [hmin]
    by_cases hstart : maxOffset < start <;> simp [hstart, hstop]
  · have hstart : ¬ maxOffset < start := fun hlt => hstop (Nat.lt_of_lt_of_le hlt h)
    simp only [hstart, hstop, if_false, mk.injEq]
    omega

theorem ofRange_of_le {start stop : Nat} (h : start ≤ stop) (hstop : stop ≤ maxOffset) :
    ofRange start stop = ⟨start, stop⟩ := by
  rw [ofRange_eq h, Nat.min_eq_left (Nat.le_trans h hstop), Nat.min_eq_left hstop]

/-! ## Lines and columns -/

/-- The number of characters before a byte offset, counted on from `count`. There is none when the
offset falls inside a character; an offset past the end stands for the end. -/
def charsBefore (count : Nat) : Nat → List Char → Option Nat
  | 0, _ => some count
  | _ + 1, [] => some count
  | offset + 1, c :: cs =>
    if c.utf8Size ≤ offset + 1 then charsBefore (count + 1) (offset + 1 - c.utf8Size) cs else none

/-- The position right after the characters `before`: lines and columns count from one, a line feed
ends a line, and a column counts characters. -/
def positionAfter (before : List Char) : Nat × Nat :=
  (before.count '\n' + 1, (before.reverse.takeWhile (· != '\n')).length + 1)

/-- Line and column of the start of a span. A start inside a character stands for the end of the
source. -/
def lineColumn (s : Span) (source : String) : Nat × Nat :=
  let chars := source.toList
  match charsBefore 0 s.start chars with
  | some n => positionAfter (chars.take n)
  | none => positionAfter chars

end Span

end Enquanto

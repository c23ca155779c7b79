/-!
# `Text.Span` — ranges of bytes in a text

Texts are measured in bytes of their UTF-8 form. A range is half open. A piece of a text exists only
where both ends of its range fall between characters.

## Contents
- **Measure.** `byteLength`, the number of bytes of a list of characters.
- **Ranges.** `Span` with `contains` and `overlaps`.
- **Pieces.** `dropBytes`, `takeBytes`, `slice?` and `slice`.
-/

namespace JavaRefactor.Text

/-! ## Measure -/

/-- The number of bytes of the characters' UTF-8 form. -/
def byteLength : List Char → Nat
  | [] => 0
  | c :: cs => c.utf8Size + byteLength cs

@[simp] theorem byteLength_nil : byteLength [] = 0 := rfl

@[simp] theorem byteLength_cons (c : Char) (cs : List Char) :
    byteLength (c :: cs) = c.utf8Size + byteLength cs := rfl

theorem byteLength_append (xs ys : List Char) :
    byteLength (xs ++ ys) = byteLength xs + byteLength ys := by
  induction xs with
  | nil => simp
  | cons c cs ih => simp [ih, Nat.add_assoc]

/-! ## Ranges -/

/-- The bytes from `start` up to, and without, `stop`. -/
structure Span where
  start : Nat
  stop : Nat
  deriving DecidableEq, Repr, Inhabited

/-- Whether `inner` lies within `outer`. -/
def Span.contains (outer inner : Span) : Bool :=
  Nat.ble outer.start inner.start && Nat.ble inner.stop outer.stop

/-- Whether the two ranges share a byte. -/
def Span.overlaps (a b : Span) : Bool :=
  Nat.blt a.start b.stop && Nat.blt b.start a.stop

/-! ## Pieces -/

/-- What is left after the first `n` bytes; none if byte `n` is inside a character or past the end. -/
def dropBytes : List Char → Nat → Option (List Char)
  | cs, 0 => some cs
  | [], _ + 1 => none
  | c :: cs, n + 1 => if c.utf8Size ≤ n + 1 then dropBytes cs (n + 1 - c.utf8Size) else none

/-- The first `n` bytes; none if byte `n` is inside a character or past the end. -/
def takeBytes : List Char → Nat → Option (List Char)
  | _, 0 => some []
  | [], _ + 1 => none
  | c :: cs, n + 1 =>
    if c.utf8Size ≤ n + 1 then (takeBytes cs (n + 1 - c.utf8Size)).map (c :: ·) else none

/-- The characters of a range, where the range is not reversed and ends between characters. -/
def sliceChars? (cs : List Char) (span : Span) : Option (List Char) :=
  if span.start ≤ span.stop then
    (dropBytes cs span.start).bind (takeBytes · (span.stop - span.start))
  else none

/-- The piece of the text in a range, where there is one. -/
def slice? (s : String) (span : Span) : Option String :=
  (sliceChars? s.toList span).map String.ofList

/-- The piece of the text in a range, empty where there is none. -/
def slice (s : String) (span : Span) : String :=
  (slice? s span).getD ""

end JavaRefactor.Text

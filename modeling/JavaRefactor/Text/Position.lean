import JavaRefactor.Text.Span

/-!
# `Text.Position` — lines and columns

A position is told by line and column, both counted from one; columns count bytes.

## Contents
- **`Position`** and **`positionOf`**, the position of an offset. Offsets past the end stand for the end.
-/

namespace JavaRefactor.Text

/-- Line and column, both counted from one. -/
structure Position where
  line : Nat
  column : Nat
  deriving DecidableEq, Repr, Inhabited

/-- The greatest line or column that is told apart; all beyond it read the same. -/
def positionLimit : Nat := 4294967295

/-- The line feeds among the first `n` bytes, and the bytes after the last of them. -/
def countLines : List Char → Nat → Nat → Nat → Nat × Nat
  | _, 0, row, column => (row, column)
  | [], _ + 1, row, column => (row, column)
  | c :: cs, n + 1, row, column =>
    if c.utf8Size ≤ n + 1 then
      if c == '\n' then countLines cs (n + 1 - c.utf8Size) (row + 1) 0
      else countLines cs (n + 1 - c.utf8Size) row (column + c.utf8Size)
    else (row, column + (n + 1))

/-- The position of a byte offset. -/
def positionOf (s : String) (offset : Nat) : Position :=
  let (row, column) := countLines s.toList offset 0 0
  ⟨min (row + 1) positionLimit, min (column + 1) positionLimit⟩

end JavaRefactor.Text

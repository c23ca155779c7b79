import JavaRefactor.Text.Chars

/-!
# `Text.Lines` — lines and their differences

## Contents
- **`lines`**: a line ends with a line feed, possibly with a carriage return in front of it; what
  follows the last line feed is a line unless it is empty.
- **`commonFront`** and **`lineDiff`**: the lines that are left of two texts when the lines they share
  at both ends are taken away, the old ones marked `-` and the new ones `+`.
-/

namespace JavaRefactor.Text

/-- A line without the carriage return at its end. -/
def chopReturn (line : List Char) : List Char :=
  if line.getLast? == some '\r' then line.dropLast else line

/-- The lines among the pieces between line feeds. -/
def linesOfPieces : List (List Char) → List (List Char)
  | [] => []
  | [last] => if last.isEmpty then [] else [last]
  | piece :: pieces => chopReturn piece :: linesOfPieces pieces

/-- The lines of a text. -/
def lines (s : String) : List String :=
  (linesOfPieces (splitOn '\n' s.toList)).map String.ofList

/-- The number of leading elements that two lists share. -/
def commonFront {α : Type} [BEq α] : List α → List α → Nat
  | x :: xs, y :: ys => if x == y then commonFront xs ys + 1 else 0
  | _, _ => 0

/-- The lines of each text that the other does not have at its place. -/
def changedLines (old new : List String) : List String × List String :=
  let front := commonFront old new
  let back := min (commonFront old.reverse new.reverse) (min old.length new.length - front)
  ((old.take (old.length - back)).drop front, (new.take (new.length - back)).drop front)

/-- The changed lines, marked. -/
def lineDiff (old new : String) : String :=
  let (removed, added) := changedLines (lines old) (lines new)
  String.join (removed.map (fun l => "-" ++ l ++ "\n") ++ added.map (fun l => "+" ++ l ++ "\n"))

end JavaRefactor.Text

/-!
# `Text.Count` — numbers that count something

## Contents
- **`count?`**, the number that a text writes.
-/

namespace JavaRefactor.Text

/-- A count takes 64 bits at most. -/
def countLimit : Nat := Nat.pow 2 64

/-- The number that decimal digits write. -/
def decimal (digits : List Char) : Nat :=
  digits.foldl (fun n c => 10 * n + (c.toNat - '0'.toNat)) 0

/-- The number that decimal digits write, if there are any and nothing else. -/
def digits? (cs : List Char) : Option Nat :=
  if !cs.isEmpty && cs.all Char.isDigit then some (decimal cs) else none

/-- The number that decimal digits write, in front of which a plus sign may stand. -/
def count? (text : String) : Option Nat :=
  let digits := match text.toList with
    | '+' :: rest => rest
    | cs => cs
  (digits? digits).filter (· < countLimit)

end JavaRefactor.Text

/-!
# `Sorting` — stable sorting

## Contents
- **`sortWith`**, by an order; elements that are not told apart keep their order.
- **`sortBy`**, by a numeric key.
-/

namespace JavaRefactor

/-- Puts an element in front of the first one that it is not behind. -/
def insertWith {α : Type} (le : α → α → Bool) (x : α) : List α → List α
  | [] => [x]
  | y :: ys => if le x y then x :: y :: ys else y :: insertWith le x ys

/-- Sorts by an order; elements that are not told apart keep their order. -/
def sortWith {α : Type} (le : α → α → Bool) (xs : List α) : List α := xs.foldr (insertWith le) []

/-- Sorts by a key; elements with equal keys keep their order. -/
def sortBy {α : Type} (key : α → Nat) (xs : List α) : List α :=
  sortWith (fun x y => Nat.ble (key x) (key y)) xs

end JavaRefactor

import JavaRefactor.Text.Span

/-!
# `Text.Edit` — edits of a text

## Contents
- **`Edit`**, a new text for a range, and **`Edit.applied?`**.
- **Several edits.** `applyFromEnd` makes them one after the other, the last one first, so that the
  places of those still to make stay what they are; `applyAtOnce` copies what lies between the edits;
  `applyWhereFits` makes edits in the order given and leaves out those that do not fit.
-/

namespace JavaRefactor.Text

/-- A new text for a range. -/
structure Edit where
  span : Span
  text : List Char
  deriving DecidableEq, Repr, Inhabited

/-- The text with the range replaced; none if there is no such range in it. -/
def Edit.applied? (e : Edit) (cs : List Char) : Option (List Char) :=
  if e.span.start ≤ e.span.stop then
    match takeBytes cs e.span.start, dropBytes cs e.span.stop with
    | some before, some behind => some (before ++ e.text ++ behind)
    | _, _ => none
  else none

/-- Makes the edits one after the other, the last one first. -/
def applyFromEnd (edits : List Edit) (cs : List Char) : Option (List Char) :=
  edits.foldr (fun e r => r.bind e.applied?) (some cs)

/-- Makes edits that are in order and apart from each other at once, in a text whose first character
stands at byte `place`. -/
def applyAtOnce : Nat → List Edit → List Char → Option (List Char)
  | _, [], cs => some cs
  | place, e :: es, cs =>
    if place ≤ e.span.start ∧ e.span.start ≤ e.span.stop then
      match takeBytes cs (e.span.start - place), dropBytes cs (e.span.stop - place) with
      | some before, some behind =>
        (applyAtOnce e.span.stop es behind).map fun r => before ++ e.text ++ r
      | _, _ => none
    else none

/-- Makes the edits one after the other, but for those whose range the text does not have. -/
def applyWhereFits (edits : List Edit) (cs : List Char) : List Char :=
  edits.foldl (fun r e => (e.applied? r).getD r) cs

end JavaRefactor.Text

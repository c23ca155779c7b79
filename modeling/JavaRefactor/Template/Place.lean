import JavaRefactor.Syntax.Node

/-!
# `Template.Place` — where a template stands in a wrapped text

## Contents
- **Paths.** `nodeAt?`, the node that a path of child numbers leads to.
- **Single nodes.** `innermostPath`, the path to the innermost node below a root with a given span.
- **Runs.** `runPlace`, the siblings that together have a given span.
- **`Place`** and **`placeOf?`**, which prefers a single node.
-/

namespace JavaRefactor.Template

open Syntax (Node)
open Text (Span)

/-- Neighbouring children of one node; a `run` is told from a single node. -/
structure Place where
  parent : List Nat
  first : Nat
  count : Nat
  isRun : Bool
  deriving DecidableEq, Repr, Inhabited

/-- The node that a path of child numbers leads to. -/
def nodeAt? : Node → List Nat → Option Node
  | n, [] => some n
  | n, i :: path =>
    match n.children[i]? with
    | some c => nodeAt? c path
    | none => none

/-- The nodes at a place. -/
def Place.nodes (root : Node) (p : Place) : List Node :=
  match nodeAt? root p.parent with
  | some parent => (parent.children.drop p.first).take p.count
  | none => []

/-! ## Single nodes -/

mutual

/-- The path to the innermost node below the given one that has exactly the span. -/
def innermostPath (span : Span) : Node → Option (List Nat)
  | .leaf .. => none
  | .branch _ cs => innermostPathAmong span 0 cs

/-- The path among children, of which the first has the given number. -/
def innermostPathAmong (span : Span) (index : Nat) : List Node → Option (List Nat)
  | [] => none
  | c :: cs =>
    if c.span.contains span then
      match innermostPath span c with
      | some path => some (index :: path)
      | none => if c.span = span then some [index] else innermostPathAmong span (index + 1) cs
    else innermostPathAmong span (index + 1) cs

end

/-! ## Runs -/

/-- The children that have exactly the span together, if all of them are constructs. -/
def coveringRun (span : Span) (cs : List Node) : Option Place :=
  let outside := fun c : Node => !span.contains c.span
  let before := cs.takeWhile outside
  let from' := cs.dropWhile outside
  let covered := (from'.reverse.dropWhile outside).reverse
  match covered.head?, covered.getLast? with
  | some a, some b =>
    if a.span.start == span.start && b.span.stop == span.stop && covered.all Node.isNamed then
      some ⟨[], before.length, covered.length, true⟩
    else none
  | _, _ => none

/-- Puts a child number in front of a place's path. -/
def Place.below (index : Nat) (p : Place) : Place := { p with parent := index :: p.parent }

mutual

/-- The run of siblings with exactly the span, searched for in the first child that contains it. -/
def runPlace (span : Span) : Node → Option Place
  | .leaf .. => none
  | .branch _ cs =>
    match runPlaceAmong span 0 cs with
    | some found => found
    | none => coveringRun span cs

/-- The answer of the first child that contains the span; none if no child does. -/
def runPlaceAmong (span : Span) (index : Nat) : List Node → Option (Option Place)
  | [] => none
  | c :: cs =>
    if c.span.contains span then some ((runPlace span c).map (Place.below index))
    else runPlaceAmong span (index + 1) cs

end

/-- The innermost node with exactly the span, or else the run of siblings that has it. -/
def placeOf? (root : Node) (span : Span) : Option Place :=
  match innermostPath span root with
  | some path => path.getLast?.map fun last => ⟨path.dropLast, last, 1, false⟩
  | none => runPlace span root

end JavaRefactor.Template

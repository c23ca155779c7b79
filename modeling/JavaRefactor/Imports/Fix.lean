import JavaRefactor.Imports.Names
import JavaRefactor.Sorting
import JavaRefactor.Text.Edit

/-!
# `Imports.Fix` — imports after a change

Names are told apart by their simple names only. An import goes where the change has taken away the last
use of its name, and an import of the rule comes where its name is used and nothing provides it.

## Contents
- **Removal.** `isObsolete`, `removal`, which takes one line break with it.
- **Addition.** `additions`, and `insertion`, the place of a new import.
- **`fix?`**, the changed text; none where nothing is to change.
-/

namespace JavaRefactor.Imports

open Syntax (Node Tree)
open Text (Span Edit)

/-! ## Removal -/

/-- Whether the name of an import was used and is no longer. -/
def isObsolete (usedBefore usedAfter : List String) (d : Declared) : Bool :=
  !d.onDemand && usedBefore.contains d.simpleName && !usedAfter.contains d.simpleName

/-- The number of bytes of the line break at the front. -/
def breakLength : List Char → Nat
  | '\r' :: '\n' :: _ => 2
  | '\n' :: _ => 1
  | _ => 0

/-- The edit that removes an import with the line break behind it. -/
def removal (source : List Char) (d : Declared) : Edit :=
  let rest := (Text.dropBytes source d.span.stop).getD []
  ⟨⟨d.span.start, d.span.stop + breakLength rest⟩, []⟩

/-! ## Addition -/

/-- Whether an import is never needed: a type of `java.lang` or of the package itself. -/
def isImplicit (package : Option String) (i : ImportSpec) : Bool :=
  !i.isStatic && (i.qualifier == "java.lang" || some i.qualifier == package)

/-- Leaves one of equal neighbours. -/
def mergeNeighbours : List ImportSpec → List ImportSpec
  | [] => []
  | [i] => [i]
  | i :: j :: rest => if i = j then mergeNeighbours (j :: rest) else i :: mergeNeighbours (j :: rest)

/-- The imports to add, the last one in order of paths first. -/
def additions (existing : List Declared) (used : List String) (package : Option String)
    (wanted : List ImportSpec) : List ImportSpec :=
  let missing := wanted.filter fun i =>
    used.contains i.simpleName && !isImplicit package i && !existing.any (·.provides i)
  mergeNeighbours (sortWith (fun i j => decide (j.path ≤ i.path)) missing)

/-- The edit that puts a text in at a place. -/
def insertAt (place : Nat) (text : String) : Edit := ⟨⟨place, place⟩, text.toList⟩

/-- The edit that adds an import to a file without imports: behind its package, or else in front of its
first construct. -/
def insertionBelowPackage (t : Tree) (i : ImportSpec) : Edit :=
  match t.root.children.find? (·.isKind "package_declaration") with
  | some p => insertAt p.span.stop ("\n\n" ++ i.declaration)
  | none =>
    let place := (t.root.namedChildren.head?.map (·.span.start)).getD 0
    insertAt place (i.declaration ++ "\n\n")

/-- The edit that adds an import: in order among the remaining imports of its sort, or else next to those
of the other sort, static ones first, or else in the stead of the first import that goes. -/
def insertion (t : Tree) (remaining : List Declared) (vacated : Option Nat) (i : ImportSpec) : Edit :=
  let alike := remaining.filter (·.isStatic == i.isStatic)
  match alike.find? (fun d => decide (i.path < d.path)), alike.getLast? with
  | some next, _ => insertAt next.span.start (i.declaration ++ "\n")
  | none, some last => insertAt last.span.stop ("\n" ++ i.declaration)
  | none, none =>
    match remaining.head?, remaining.getLast?, vacated with
    | some first, some last, _ =>
      if i.isStatic then insertAt first.span.start (i.declaration ++ "\n\n")
      else insertAt last.span.stop ("\n\n" ++ i.declaration)
    | _, _, some place => insertAt place (i.declaration ++ "\n")
    | _, _, none => insertionBelowPackage t i

/-! ## Both -/

/-- The edits of imports after a change from one tree to another. -/
def edits (before after : Tree) (wanted : List ImportSpec) : List Edit :=
  let usedBefore := usedNames before.root
  let usedAfter := usedNames after.root
  let existing := declared after
  let gone := existing.filter (isObsolete usedBefore usedAfter)
  let remaining := existing.filter (!isObsolete usedBefore usedAfter ·)
  let vacated := gone.head?.map (·.span.start)
  gone.map (removal after.source.toList)
    ++ (additions existing usedAfter (packageName? after) wanted).map
      (insertion after remaining vacated)

/-- The text of the changed tree with its imports mended; none where they need no mending. -/
def fix? (before after : Tree) (wanted : List ImportSpec) : Option String :=
  match edits before after wanted with
  | [] => none
  | es =>
    let fromEnd := sortWith (fun d e => Nat.ble e.span.start d.span.start) es
    some (String.ofList (Text.applyWhereFits fromEnd after.source.toList))

end JavaRefactor.Imports

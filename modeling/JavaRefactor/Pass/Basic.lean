import JavaRefactor.Imports.Fix
import JavaRefactor.Pass.Occurrence
import JavaRefactor.Pass.Stage

/-!
# `Pass.Basic` — one rule applied to one text

A pass reads the text, and again whatever the rule has made of it. What reads may fail in ways of its own,
besides finding that a text is not Java.

## Contents
- **`Outcome`**: the new text and the number of sites replaced.
- **`Reader`**, what reads texts for a pass; `Reader.java`, the one the program runs with.
- **`rewriteTreeWith`** and **`rewriteWith`**, with the stages they go through.
- **`applyTree`** and **`apply`**, their results alone.
-/

namespace JavaRefactor.Pass

open Syntax (Tree)

/-- The result of a pass. -/
structure Outcome where
  output : String
  applied : Nat
  deriving DecidableEq, Repr, Inhabited

/-- Whether a site has been replaced. -/
def Outcome.hasChanges (o : Outcome) : Bool := 0 < o.applied

/-! ## Reading -/

/-- What reads texts. -/
structure Reader where
  /-- What setting it up comes to. -/
  setUp : Except Problem Unit
  /-- The tree of a text, if the text is Java. -/
  read : String → Except Problem (Option Tree)

namespace Reader

/-- The reader that fails for no reason of its own. -/
def java : Reader := ⟨.ok (), fun source => .ok (Java.parse? source)⟩

/-- Reads a text that must be Java. -/
def parse (reader : Reader) (source : String) : Except Problem Tree :=
  match reader.read source with
  | .ok (some t) => .ok t
  | .ok none => .error (.notJava source)
  | .error p => .error p

/-- Reads a text that a rule has made. -/
def again (reader : Reader) (source : String) (fault : InvariantFault) : Staged Tree := do
  match ← attempt (reader.read source) with
  | some t => return t
  | none => fail (.invariant fault)

end Reader

/-! ## Passes -/

/-- Mends the imports of a tree that a rule has made from another one. -/
def mendImports (reader : Reader) (r : Rule) (before after : Tree) : Staged Tree :=
  match Imports.fix? before after r.imports with
  | some source => reader.again source (.invalidImports r.name)
  | none => return after

/-- Replaces the occurrences of a rule in a tree. -/
def replaceAll (reader : Reader) (fixImports : Bool) (r : Rule) (t : Tree) (os : List Occurrence) : Staged Tree := do
  let source ← attempt (substitute r t os)
  let after ← reader.again source (.invalidOutput r.name)
  if fixImports then mendImports reader r t after else return after

/-- Applies a rule to a tree, behind the stage `scanning`. -/
def matchAndReplace (reader : Reader) (fixImports : Bool) (r : Rule) (t : Tree) : Staged Outcome := do
  enter .matching
  let os := occurrences r t (.ofTree t)
  if os.isEmpty then
    enter .idle
    return ⟨t.source, 0⟩
  else
    enter .substituting
    let after ← replaceAll reader fixImports r t os
    enter .reemitting
    enter .idle
    return ⟨after.print, os.length⟩

/-- Applies a rule to a tree, with something that reads texts. -/
def rewriteTreeWith (reader : Reader) (fixImports : Bool) (r : Rule) (t : Tree) : Staged Outcome := do
  enter .scanning
  attempt reader.setUp
  matchAndReplace reader fixImports r t

/-- Reads a text and applies a rule to it, with something that reads texts. -/
def rewriteWith (reader : Reader) (fixImports : Bool) (r : Rule) (source : String) : Staged Outcome := do
  enter .scanning
  attempt reader.setUp
  let t ← attempt (reader.parse source)
  matchAndReplace reader fixImports r t

/-- The result of a staged computation that starts in the stage `idle`. -/
def resultOf {α : Type} (c : Staged α) : Except Problem α := (c.run.run [.idle]).1

/-- The stages of a staged computation that starts in the stage `idle`. -/
def stagesOf {α : Type} (c : Staged α) : List Stage := (c.run.run [.idle]).2

/-- Applies a rule to a tree. -/
def applyTree (fixImports : Bool) (r : Rule) (t : Tree) : Except Problem Outcome :=
  resultOf (rewriteTreeWith .java fixImports r t)

/-- Applies a rule to a text. -/
def apply (fixImports : Bool) (r : Rule) (source : String) : Except Problem Outcome :=
  resultOf (rewriteWith .java fixImports r source)

end JavaRefactor.Pass

import JavaRefactor.Pass.Basic
import JavaRefactor.Text.Lines
import JavaRefactor.Text.Count

/-!
# `Recipe.Run` — rules applied until nothing changes

A recipe is a list of rules; a cycle applies each of them once, in order. Cycles are repeated until one
changes nothing. If the last allowed cycle changes the text, one more is made to see whether it is the
last that does, and this one does not count.

## Contents
- **`Report`**: the last text, and counts of cycles and of sites.
- **`cycle`** and **`run`**.
-/

namespace JavaRefactor.Recipe

/-- The result of a run. -/
structure Report where
  output : String
  cycles : Nat
  cyclesWithChanges : Nat
  applied : Nat
  deriving DecidableEq, Repr, Inhabited

/-- Whether the text has changed. -/
def Report.hasChanges (r : Report) : Bool := 0 < r.cyclesWithChanges

/-- Applies each rule once, in order, to a text at which `applied` sites have been replaced before. -/
def cycleFrom (fixImports : Bool) : List Rule → String → Nat → Except Problem (String × Nat)
  | [], source, applied => .ok (source, applied)
  | r :: rs, source, applied =>
    match Pass.apply fixImports r source with
    | .error p => .error p
    | .ok o => cycleFrom fixImports rs o.output (applied + o.applied)

/-- Applies each rule once, in order. -/
def cycle (fixImports : Bool) (rules : List Rule) (source : String) :
    Except Problem (String × Nat) :=
  cycleFrom fixImports rules source 0

/-- Where a run stands between two cycles. -/
structure Progress where
  source : String
  /-- The number of cycles made, of which each has changed the text. -/
  cycles : Nat
  applied : Nat
  /-- The lines that the last cycle has changed. -/
  lastChange : String
  deriving DecidableEq, Repr, Inhabited

/-- Makes at most `fuel` more cycles, of which `limit` are allowed to change the text. -/
def runFrom (fixImports : Bool) (rules : List Rule) (limit : Nat) :
    Nat → Progress → Except Problem Report
  | 0, _ => .error (.invariant .earlyExit)
  | fuel + 1, p =>
    match cycle fixImports rules p.source with
    | .error e => .error e
    | .ok (next, applied) =>
      if next == p.source then
        .ok ⟨p.source, min (p.cycles + 1) limit, p.cycles, p.applied⟩
      else if limit ≤ p.cycles then .error (.divergence limit p.lastChange)
      else runFrom fixImports rules limit fuel
        ⟨next, p.cycles + 1, p.applied + applied, Text.lineDiff p.source next⟩

/-- The greatest number of cycles that are made, whatever is allowed. -/
def cycleBound : Nat := Text.countLimit - 1

/-- Repeats cycles until one changes nothing; `maxCycles`, or one if that is zero, may change the text. -/
def run (fixImports : Bool) (rules : List Rule) (source : String) (maxCycles : Nat) :
    Except Problem Report :=
  let limit := max 1 maxCycles
  runFrom fixImports rules limit (min (limit + 1) cycleBound) ⟨source, 0, 0, ""⟩

end JavaRefactor.Recipe

import JavaRefactor.Problem

/-!
# `Pass.Stage` — the stages of a pass

A pass applies one rule to one text. Which stages it goes through is told beside its result.

## Contents
- **`Stage`** and **`Stage.canPrecede`**, the steps from stage to stage.
- **`Staged`**, a computation that can fail and records the stages it enters: `enter`, `fail`, `attempt`.
-/

namespace JavaRefactor.Pass

/-- The stages of a pass. -/
inductive Stage where
  /-- Nothing is under way. -/
  | idle
  /-- The text is being read. -/
  | scanning
  /-- Sites are being looked for. -/
  | matching
  /-- Sites are being replaced. -/
  | substituting
  /-- The new text is being written. -/
  | reemitting
  /-- The pass has failed. -/
  | failed
  deriving DecidableEq, Repr, Inhabited

namespace Stage

/-- All stages. -/
def all : List Stage := [idle, scanning, matching, substituting, reemitting, failed]

/-- Whether a pass may go from a stage to another one. -/
def canPrecede : Stage → Stage → Bool
  | idle, scanning | failed, scanning => true
  | scanning, matching | scanning, failed => true
  | matching, substituting | matching, idle => true
  | substituting, reemitting | substituting, failed => true
  | reemitting, idle => true
  | _, _ => false

end Stage

/-- A computation that can fail, with the stages entered so far, the first one first. -/
abbrev Staged (α : Type) : Type := ExceptT Problem (StateM (List Stage)) α

/-- Enters a stage. -/
def enter (s : Stage) : Staged Unit := modify (· ++ [s])

/-- Ends the pass with a problem, in the stage `failed`. -/
def fail {α : Type} (p : Problem) : Staged α := do
  enter .failed
  throw p

/-- Takes a result over; a problem ends the pass. -/
def attempt {α : Type} : Except Problem α → Staged α
  | .ok a => pure a
  | .error p => fail p

end JavaRefactor.Pass

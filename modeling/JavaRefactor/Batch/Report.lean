import JavaRefactor.Disk.Basic
import JavaRefactor.Recipe.Run

/-!
# `Batch.Report` — what has become of the files of a batch

## Contents
- **`FileOutcome`** and **`FileReport`**.
- **`Report`** and its counts.
- **`Batch.Failure`**, what stops a batch.
- **`rewriteFile`**, one file on its own.
-/

namespace JavaRefactor

namespace Batch

/-- Why the text of a file is left as it is. -/
inductive Obstacle where
  | unreadable (fault : Disk.Fault)
  | problem (value : Problem)
  deriving DecidableEq, Repr, Inhabited

/-- The wording of an obstacle. -/
def Obstacle.message : Obstacle → String
  | unreadable fault => fault.message
  | problem value => value.message

/-- What has become of a file. -/
inductive FileOutcome where
  | unchanged
  /-- The file is to have a new text, made by replacing `applied` sites in `cycles` cycles. -/
  | rewritten (applied cycles : Nat)
  | failed (obstacle : Obstacle)
  /-- The batch was called off before the file's turn. -/
  | skipped
  deriving DecidableEq, Repr, Inhabited

/-- Whether the file is to have a new text. -/
def FileOutcome.isRewritten : FileOutcome → Bool
  | rewritten _ _ => true
  | _ => false

/-- A file, what has become of it, and the text that it is to have. -/
structure FileReport where
  path : String
  outcome : FileOutcome
  output : Option String
  deriving DecidableEq, Repr, Inhabited

/-- The report of a file that keeps its text. -/
def FileReport.of (path : String) (outcome : FileOutcome) : FileReport := ⟨path, outcome, none⟩

/-- All files of a batch, in the order they were given. -/
structure Report where
  files : List FileReport
  deriving DecidableEq, Repr, Inhabited

namespace Report

/-- The number of files that are to have a new text. -/
def rewritten (r : Report) : Nat := r.files.countP fun f => f.outcome.isRewritten

/-- The number of files that stay as they are because nothing is to change. -/
def unchanged (r : Report) : Nat := r.files.countP fun f => f.outcome = .unchanged

/-- The number of files that could not be read or rewritten. -/
def failed (r : Report) : Nat := r.files.countP fun f =>
  match f.outcome with
  | .failed _ => true
  | _ => false

/-- The number of files whose turn never came. -/
def skipped (r : Report) : Nat := r.files.countP fun f => f.outcome = .skipped

end Report

/-- What stops a batch. -/
inductive Failure where
  | duplicateFile (path : String)
  | aborted (path : String) (problem : Problem)
  | unwritable (path : String) (fault : Disk.Fault)
  deriving DecidableEq, Repr

/-- The wording of what stops a batch. -/
def Failure.message : Failure → String
  | duplicateFile path => s!"file {path} appears more than once in the batch"
  | aborted path problem => s!"run aborted while rewriting {path}: {problem.message}"
  | unwritable path fault => s!"failed to write {path}: {fault.message}"

/-- How a batch is made. -/
structure Options where
  maxCycles : Nat
  /-- Whether a file that cannot be rewritten never stops the batch. -/
  bestEffort : Bool
  deriving DecidableEq, Repr, Inhabited

/-- What becomes of a file that holds a text. -/
def rewriteText (rules : List Rule) (options : Options) (path source : String) :
    Except Failure FileReport :=
  match Recipe.run true rules source options.maxCycles with
  | .ok r =>
    if r.output == source then .ok (.of path .unchanged)
    else .ok { FileReport.of path (.rewritten r.applied r.cyclesWithChanges) with
      output := some r.output }
  | .error p =>
    if p.isFatal && !options.bestEffort then .error (.aborted path p)
    else .ok (.of path (.failed (.problem p)))

/-- What becomes of a file. -/
def rewriteFile (read : String → Except Disk.Fault String) (rules : List Rule) (options : Options)
    (path : String) : Except Failure FileReport :=
  match read path with
  | .error fault => .ok (.of path (.failed (.unreadable fault)))
  | .ok source => rewriteText rules options path source

end Batch

end JavaRefactor

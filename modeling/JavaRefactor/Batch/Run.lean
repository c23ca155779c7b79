import JavaRefactor.Batch.Worker
import JavaRefactor.Disk.Access

/-!
# `Batch.Run` — a batch, and its commit

Nothing is written while a batch is made: the new texts are in the report until it is committed.

## Contents
- **`duplicate?`**, a file that is given twice.
- **`runWith`**, a batch in any order of steps; **`run`**, the files one after the other.
- **`commitWith`** and **`commit`**, which write the new texts in order and stop at the first that cannot
  be written.
-/

namespace JavaRefactor.Batch

/-- The first path that leads to the file of an earlier one. -/
def duplicate? {ι : Type} [DecidableEq ι] (identify : String → ι) (seen : List ι) :
    List String → Option String
  | [] => none
  | path :: paths =>
    if seen.contains (identify path) then some path
    else duplicate? identify (identify path :: seen) paths

/-- Makes a batch of files that are read from a disk, in the given steps. -/
def runWith (access : Disk.Access) (disk : Disk) (rules : List Rule) (paths : List String)
    (options : Options) (cancelled : Bool) (steps : List Step) : Except Failure Report :=
  match duplicate? disk.identify [] paths with
  | some path => .error (.duplicateFile path)
  | none =>
    let process := rewriteFile (access.read disk) rules options
    ((Shared.start paths cancelled).run process steps).collect

/-- Makes a batch of files, one after the other. -/
def run (disk : Disk) (rules : List Rule) (paths : List String) (options : Options)
    (cancelled : Bool) : Except Failure Report :=
  runWith .plain disk rules paths options cancelled (inOrder paths.length)

/-- Writes the new texts of files, as `write` does it: what has become of the medium, and the number of
files written or what has stopped the commit. -/
def commitFiles {δ : Type} (write : δ → String → String → Except Disk.Fault δ) :
    List FileReport → δ → Nat → δ × Except Failure Nat
  | [], medium, count => (medium, .ok count)
  | f :: fs, medium, count =>
    match f.output with
    | none => commitFiles write fs medium count
    | some output =>
      match write medium f.path output with
      | .ok next => commitFiles write fs next (count + 1)
      | .error fault => (medium, .error (.unwritable f.path fault))

/-- Writes the new texts of a report to a disk, as far as it can be written. -/
def commitWith (access : Disk.Access) (r : Report) (disk : Disk) : Disk × Except Failure Nat :=
  commitFiles access.write r.files disk 0

/-- Writes the new texts of a report to a disk. -/
def commit (r : Report) (disk : Disk) : Disk × Except Failure Nat := commitWith .plain r disk

end JavaRefactor.Batch

import JavaRefactor.Batch.Report

/-!
# `Batch.Worker` — several workers on one batch

Each file is worked on in steps: look whether the batch is called off from outside, look whether another
file has stopped it, rewrite the file, and, if that fails in a way that stops the batch, call it off. The
steps of different files may alternate in any way, and the batch may be called off from outside in between.

## Contents
- **`Progress`** of a file, and **`Progress.advance`**.
- **`Shared`**, what all workers see; **`Step`** and **`Shared.step`**.
- **`Shared.Done`** and **`collect`**, the report of a finished batch.
-/

namespace JavaRefactor.Batch

/-- How far the work on a file has come. -/
inductive Progress where
  | waiting
  /-- The batch was not called off from outside when the work began. -/
  | admitted
  /-- Nor had another file stopped it. -/
  | started
  /-- The file stops the batch, which is not yet called off. -/
  | failing (failure : Failure)
  | finished (result : Except Failure FileReport)

/-- What all workers see. -/
structure Shared where
  /-- Whether the batch has been called off from outside. -/
  cancelled : Bool
  /-- Whether a file has stopped the batch. -/
  aborted : Bool
  files : List (String × Progress)

/-- A step: one on the file with a number, or the call from outside. -/
inductive Step where
  | work (file : Nat)
  | cancel
  deriving DecidableEq, Repr

/-- One step on a file, and whether it calls the batch off. -/
def Progress.advance (process : String → Except Failure FileReport) (cancelled aborted : Bool)
    (path : String) : Progress → Progress × Bool
  | waiting => if cancelled then (finished (.ok (.of path .skipped)), false) else (admitted, false)
  | admitted => if aborted then (finished (.ok (.of path .skipped)), false) else (started, false)
  | started =>
    match process path with
    | .ok r => (finished (.ok r), false)
    | .error f => (failing f, false)
  | failing f => (finished (.error f), true)
  | finished r => (finished r, false)

/-- Makes a step. -/
def Shared.step (process : String → Except Failure FileReport) (s : Shared) : Step → Shared
  | .cancel => { s with cancelled := true }
  | .work i =>
    match s.files[i]? with
    | none => s
    | some (path, p) =>
      let (next, stops) := p.advance process s.cancelled s.aborted path
      ⟨s.cancelled, s.aborted || stops, s.files.set i (path, next)⟩

/-- All files wait. -/
def Shared.start (paths : List String) (cancelled : Bool) : Shared :=
  ⟨cancelled, false, paths.map fun path => (path, .waiting)⟩

/-- Makes steps one after the other. -/
def Shared.run (process : String → Except Failure FileReport) (s : Shared) (steps : List Step) :
    Shared :=
  steps.foldl (Shared.step process) s

/-- Every file is finished. -/
def Shared.Done (s : Shared) : Prop := ∀ e ∈ s.files, ∃ r, e.2 = .finished r

/-- The result for a file; one that no worker has finished counts as skipped. -/
def resultOf (path : String) : Progress → Except Failure FileReport
  | .finished r => r
  | _ => .ok (.of path .skipped)

/-- The report of a batch, or what has stopped it: of several such files the first one counts. -/
def Shared.collect (s : Shared) : Except Failure Report :=
  (s.files.mapM fun (path, p) => resultOf path p).map Report.mk

/-- The steps of one worker who takes the files in order. -/
def inOrder (count : Nat) : List Step :=
  (List.range count).flatMap fun i => List.replicate 4 (.work i)

end JavaRefactor.Batch

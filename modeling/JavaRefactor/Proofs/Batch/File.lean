import JavaRefactor.Batch.Report
import JavaRefactor.Proofs.Attempts
import JavaRefactor.Proofs.Recipe.FixedPoint

/-!
# `Proofs.Batch.File` — one file of a batch by itself

## Contents
- **`Fatal`**, that a file stops the batch; `rewriteFile_eq_error`, exactly then.
- **`rewriteFile_ok_cases`**, what becomes of a file otherwise.
- **`Reported`** and **`rewriteFile_ok_inv`**: what is reported of a file.
-/

namespace JavaRefactor.Batch

variable {read : String → Except Disk.Fault String} {rules : List Rule} {options : Options}
  {path : String}

/-- The file can be read, and rewriting it ends in a problem that stops a batch. -/
def Fatal (read : String → Except Disk.Fault String) (rules : List Rule) (maxCycles : Nat)
    (path : String) (p : Problem) : Prop :=
  ∃ source, read path = .ok source ∧ Recipe.run true rules source maxCycles = .error p ∧
    p.isFatal = true

/-- A text stops the batch with a fatal problem, unless the batch goes on whatever happens. -/
theorem rewriteText_eq_error {source : String} {f : Failure} :
    rewriteText rules options path source = .error f ↔ options.bestEffort = false ∧
      ∃ p, f = .aborted path p ∧ Recipe.run true rules source options.maxCycles = .error p ∧
        p.isFatal = true := by
  unfold rewriteText
  cases hr : Recipe.run true rules source options.maxCycles with
  | ok r =>
      by_cases he : (r.output == source) = true
      · simp [he]
      · simp [he]
  | error p =>
      by_cases hf : (p.isFatal && !options.bestEffort) = true
      · simp only [hf, if_true]
        rw [Bool.and_eq_true, Bool.not_eq_true'] at hf
        constructor
        · intro h
          exact ⟨hf.2, p, (Except.error.inj h).symm, rfl, hf.1⟩
        · rintro ⟨-, p', rfl, hp, -⟩
          rw [Except.error.inj hp]
      · simp only [hf]
        constructor
        · intro h
          exact absurd h (by simp)
        · rintro ⟨hb, p', -, hp, hfatal⟩
          obtain rfl : p = p' := Except.error.inj hp
          exact absurd hf (by simp [hb, hfatal])

/-- **A file stops the batch** exactly if its own rewriting is fatal and the batch does not go on whatever
    happens. -/
theorem rewriteFile_eq_error {f : Failure} :
    rewriteFile read rules options path = .error f ↔ options.bestEffort = false ∧
      ∃ p, f = .aborted path p ∧ Fatal read rules options.maxCycles path p := by
  unfold rewriteFile Fatal
  cases hs : read path with
  | error fault => simp
  | ok source =>
      simp only [rewriteText_eq_error]
      constructor
      · rintro ⟨hb, p, hf, hr⟩
        exact ⟨hb, p, hf, source, rfl, hr⟩
      · rintro ⟨hb, p, hf, source', hs', hr⟩
        obtain rfl : source = source' := Except.ok.inj hs'
        exact ⟨hb, p, hf, hr⟩

/-- **What becomes of a file** that does not stop the batch. -/
theorem rewriteFile_ok_cases {f : FileReport} (h : rewriteFile read rules options path = .ok f) :
    (∃ fault, read path = .error fault ∧ f = .of path (.failed (.unreadable fault))) ∨
    ∃ source, read path = .ok source ∧
      ((∃ r, Recipe.run true rules source options.maxCycles = .ok r ∧ r.output = source ∧
          f = .of path .unchanged) ∨
        (∃ r, Recipe.run true rules source options.maxCycles = .ok r ∧ r.output ≠ source ∧
          f = ⟨path, .rewritten r.applied r.cyclesWithChanges, some r.output⟩) ∨
        ∃ p, Recipe.run true rules source options.maxCycles = .error p ∧
          f = .of path (.failed (.problem p))) := by
  unfold rewriteFile at h
  split at h
  · rename_i fault hs
    exact Or.inl ⟨fault, hs, (Except.ok.inj h).symm⟩
  · rename_i source hs
    refine Or.inr ⟨source, hs, ?_⟩
    unfold rewriteText at h
    split at h
    · rename_i r hr
      by_cases he : (r.output == source) = true
      · rw [if_pos he] at h
        exact Or.inl ⟨r, hr, by simpa using he, (Except.ok.inj h).symm⟩
      · rw [if_neg he] at h
        exact Or.inr (Or.inl ⟨r, hr, by simpa using he, (Except.ok.inj h).symm⟩)
    · rename_i p hp
      split at h
      · exact absurd h (by simp)
      · exact Or.inr (Or.inr ⟨p, hp, (Except.ok.inj h).symm⟩)

/-- A file whose text stays as it is in the first cycle is reported as unchanged. -/
theorem rewriteFile_of_fixed {source : String} {n : Nat} (hs : read path = .ok source)
    (h : Recipe.cycle true rules source = .ok (source, n)) :
    rewriteFile read rules options path = .ok (.of path .unchanged) := by
  unfold rewriteFile
  rw [hs]
  simp only [rewriteText, Recipe.run_of_fixed h, beq_self_eq_true, if_true]

/-- What holds of the report of a file that was not passed over. -/
structure Reported (read : String → Except Disk.Fault String) (path : String) (r : FileReport) :
    Prop where
  own : r.path = path
  begun : r.outcome ≠ .skipped
  /-- There is a new text exactly where the report tells of one. -/
  staged : r.output.isSome = r.outcome.isRewritten
  /-- The new text is not the one that was read. -/
  new : ∀ output, r.output = some output → ∃ source, read path = .ok source ∧ output ≠ source

/-- A file that keeps its text. -/
theorem reported_of {outcome : FileOutcome} (hbegun : outcome ≠ .skipped)
    (hkept : outcome.isRewritten = false) : Reported read path (.of path outcome) :=
  ⟨rfl, hbegun, hkept.symm, fun _ hout => absurd hout (by simp [FileReport.of])⟩

/-- **What is reported of a file.** -/
theorem rewriteFile_ok_inv {r : FileReport} (h : rewriteFile read rules options path = .ok r) :
    Reported read path r := by
  rcases rewriteFile_ok_cases h with ⟨fault, -, rfl⟩ | ⟨source, hs, hcases⟩
  · exact reported_of (by simp) rfl
  · rcases hcases with ⟨_, -, -, rfl⟩ | ⟨report, -, hne, rfl⟩ | ⟨p, -, rfl⟩
    · exact reported_of (by simp) rfl
    · refine ⟨rfl, by simp, rfl, ?_⟩
      intro output hout
      obtain rfl : report.output = output := Option.some.inj hout
      exact ⟨source, hs, hne⟩
    · exact reported_of (by simp) rfl

end JavaRefactor.Batch

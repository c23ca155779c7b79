import JavaRefactor.CommandLine.Run
import JavaRefactor.Proofs.Batch.Commit

/-!
# `Proofs.CommandLine.Apply` — what the program does to files

The program reads all files before it writes one. It writes nothing if there are no such rules, if the batch is
stopped, or if it is only to tell what would be done; otherwise what is left is what the commit leaves.

## Contents
- `applyWith_of_recipe_error`, `applyWith_of_batch_error`, `applyWith_of_batch`: how an application ends.
- **`applyWith_frame`**: which files an application changes.
- **Everything else.** `run_eq_or_apply`: nothing but an application changes a file.
-/

namespace JavaRefactor.CommandLine

open Batch (Committed commitWith runWith)

variable {access : Disk.Access} {steps : List Batch.Step} {disk : Disk} {settings : Settings}
  {registry : Registry} {a : Application} {recipe : List Rule} {report : Batch.Report}

theorem applyWith_of_recipe_error {p : Registry.LoadProblem}
    (h : registry.recipe a.recipe = .error p) :
    applyWith access steps disk settings registry a = (disk, .fault (.rules p)) := by
  simp only [applyWith, h]

theorem applyWith_of_batch_error {f : Batch.Failure} (h : registry.recipe a.recipe = .ok recipe)
    (hrun : runWith access disk recipe a.files (a.options settings) false steps = .error f) :
    applyWith access steps disk settings registry a = (disk, .fault (.batch f)) := by
  simp only [applyWith, h, hrun]

/-- What is left of a batch that was made is what is left of its commit, if there is one. -/
theorem applyWith_of_batch (h : registry.recipe a.recipe = .ok recipe)
    (hrun : runWith access disk recipe a.files (a.options settings) false steps = .ok report) :
    (applyWith access steps disk settings registry a).1 =
      if a.dryRun then disk else (commitWith access report disk).1 := by
  simp only [applyWith, h, hrun, settle]
  by_cases hdry : a.dryRun = true
  · rw [if_pos hdry, if_pos hdry]
  · rw [if_neg hdry, if_neg hdry]
    rcases commitWith access report disk with ⟨after, f | count⟩
    · rfl
    · rfl

/-- **Which files an application changes.** Whatever cannot be read or written, and in whatever order the files
    are worked on: a batch that was made has its new texts in its report alone, and of these the commit writes
    those in front of the first that cannot be written, and nothing else. An application leaves the disk as it
    is if there are no such rules, if its batch is stopped, or if nothing is to be written; otherwise it leaves
    what the commit of its batch leaves. -/
theorem applyWith_frame (access : Disk.Access) (steps : List Batch.Step) (disk : Disk) :
    (∀ rules paths options cancelled report,
      runWith access disk rules paths options cancelled steps = .ok report →
      ∃ written rest, Committed access disk (commitWith access report disk).1 report
        (commitWith access report disk).2 written rest) ∧
    (∀ settings registry a,
      (a.dryRun = true → (applyWith access steps disk settings registry a).1 = disk) ∧
      (∀ p, registry.recipe a.recipe = .error p →
        (applyWith access steps disk settings registry a).1 = disk) ∧
      ∀ recipe, registry.recipe a.recipe = .ok recipe →
        (∀ f, runWith access disk recipe a.files (a.options settings) false steps = .error f →
          (applyWith access steps disk settings registry a).1 = disk) ∧
        (∀ report, runWith access disk recipe a.files (a.options settings) false steps = .ok report →
          a.dryRun = false → (applyWith access steps disk settings registry a).1 =
            (commitWith access report disk).1)) := by
  refine ⟨fun _ _ _ _ _ h => Batch.commitWith_committed h, ?_⟩
  intro settings registry a
  have hrecipe : ∀ p, registry.recipe a.recipe = .error p →
      (applyWith access steps disk settings registry a).1 = disk := by
    intro p h
    rw [applyWith_of_recipe_error h]
  have hbatch : ∀ recipe f, registry.recipe a.recipe = .ok recipe →
      runWith access disk recipe a.files (a.options settings) false steps = .error f →
      (applyWith access steps disk settings registry a).1 = disk := by
    intro recipe f h hrun
    rw [applyWith_of_batch_error h hrun]
  refine ⟨?dry, hrecipe, fun recipe h => ⟨fun f hrun => hbatch recipe f h hrun, ?commit⟩⟩
  case dry =>
    intro hdry
    cases h : registry.recipe a.recipe with
    | error p => exact hrecipe p h
    | ok recipe =>
        cases hrun : runWith access disk recipe a.files (a.options settings) false steps with
        | error f => exact hbatch recipe f h hrun
        | ok report => rw [applyWith_of_batch h hrun, if_pos hdry]
  case commit =>
    intro report hrun hdry
    rw [applyWith_of_batch h hrun, if_neg (by simp [hdry])]

/-- A file that can be read and never written. -/
def refusing (path : String) : Disk.Access where
  read := Disk.Access.plain.read
  write := fun d p text => if p = path then .error .notDirectory else d.replace p text
  reads := Disk.Access.plain.reads
  writes := by
    intro d p text after h
    by_cases hp : p = path
    · rw [if_pos hp] at h
      exact absurd h (by simp)
    · rw [if_neg hp] at h
      exact h

/-- Of three files that are to have a new text the second cannot be written: the third is as before. -/
theorem applyWith_frame_second_refused : ∃ (disk : Disk) (registry : Registry) (recipe : List Rule)
    (report : Batch.Report) (written rest : List Batch.FileReport),
    disk.entries = [(["A"], .file (.text "f(1);")), (["B"], .file (.text "h();")),
      (["C"], .file (.text "f(2);")), (["D"], .file (.text "f(3);"))] ∧
    Registry.empty.registerDraft (.simple "Swap" "f($X)" "g($X)") = .ok registry ∧
    registry.recipe "Swap" = .ok recipe ∧
    runWith (refusing "C") disk recipe ["A", "B", "C", "D"] ⟨2, false⟩ false (Batch.inOrder 4) =
      .ok report ∧
    Committed (refusing "C") disk
      (applyWith (refusing "C") (Batch.inOrder 4) disk default registry
        ⟨"Swap", ["A", "B", "C", "D"], false, some 2, none, false, .human⟩).1
      report (.error (.unwritable "C" .notDirectory)) written rest := by
  let disk : Disk := ⟨[(["A"], .file (.text "f(1);")), (["B"], .file (.text "h();")),
    (["C"], .file (.text "f(2);")), (["D"], .file (.text "f(3);"))], []⟩
  let paths : List String := ["A", "B", "C", "D"]
  have h : ((Registry.empty.registerDraft (.simple "Swap" "f($X)" "g($X)")).toOption.any fun registry =>
      (registry.recipe "Swap").toOption.any fun recipe =>
        (runWith (refusing "C") disk recipe paths ⟨2, false⟩ false (Batch.inOrder 4)).toOption.any
          fun report =>
            match (commitWith (refusing "C") report disk).2 with
            | .error f => f == .unwritable "C" .notDirectory
            | .ok _ => false) = true := by
    decide +kernel
  obtain ⟨registry, hregistry, h⟩ := (Option.any_eq_true _ _).mp h
  obtain ⟨recipe, hrecipe, h⟩ := (Option.any_eq_true _ _).mp h
  obtain ⟨report, hrun, h⟩ := (Option.any_eq_true _ _).mp h
  rw [Attempts.toOption_eq_some] at hregistry hrecipe hrun
  have hresult : (commitWith (refusing "C") report disk).2 =
      .error (.unwritable "C" .notDirectory) := by
    revert h
    cases (commitWith (refusing "C") report disk).2 with
    | error f => exact fun hf => congrArg Except.error (by simpa using hf)
    | ok count => exact fun hf => absurd hf (by simp)
  obtain ⟨hcommit, happly⟩ := applyWith_frame (refusing "C") (Batch.inOrder 4) disk
  obtain ⟨written, rest, hcommitted⟩ := hcommit recipe paths ⟨2, false⟩ false report hrun
  obtain ⟨-, -, hleft⟩ := happly default registry ⟨"Swap", paths, false, some 2, none, false, .human⟩
  have hafter := (hleft recipe hrecipe).2 report hrun rfl
  rw [hresult, ← hafter] at hcommitted
  exact ⟨disk, registry, recipe, report, written, rest, rfl, hregistry, hrecipe, hrun, hcommitted⟩

/-! ## Everything else -/

/-- To tell about rules changes no file. -/
theorem obey_eq_or_apply (disk : Disk) (settings : Settings) (registry : Registry)
    (request : Request) : (obey disk settings registry request).1 = disk ∨
      ∃ a, obey disk settings registry request = apply disk settings registry a := by
  cases request with
  | list format => exact Or.inl rfl
  | detail name format =>
      left
      simp only [obey]
      split
      · rfl
      · rfl
  | apply a => exact Or.inr ⟨a, rfl⟩

/-- **Nothing but an application changes a file.** -/
theorem run_eq_or_apply (disk : Disk) (env : List (String × String)) (args : List String) :
    (run disk env args).1 = disk ∨ ∃ settings registry a,
      run disk env args = apply disk settings registry a := by
  unfold run
  simp only
  split
  · exact Or.inl rfl
  · split
    · exact Or.inl rfl
    · rename_i settings _
      split
      · exact Or.inl rfl
      · split
        · exact Or.inl rfl
        · rename_i registry _
          exact (obey_eq_or_apply disk settings registry _).imp id
            fun ⟨a, ha⟩ => ⟨settings, registry, a, ha⟩

end JavaRefactor.CommandLine

import JavaRefactor.Batch.Run
import JavaRefactor.CommandLine.Answer
import JavaRefactor.CommandLine.Split
import JavaRefactor.Registry.Catalog
import JavaRefactor.Settings.Load
import JavaRefactor.Settings.LogFilter

/-!
# `CommandLine.Run` — the program

The words of the command are read before the settings, the settings before the filter of the log, the
filter before the rules; nothing is done before all are known to be right.

## Contents
- **`Fault`**, why the program fails, and its `message`.
- **`Answer`**, what the program prints.
- **`applyWith`**, which applies rules to files, the disk and the order of steps being what they may;
  **`obey`**, which does what is asked, and **`run`**, the program.
- **What it looks at.** `settingsFiles`, `requestFiles`.
-/

namespace JavaRefactor.CommandLine

/-- Why the program fails. -/
inductive Fault where
  /-- The words make no request. -/
  | usage
  | settings (fault : Settings.Fault)
  | logFilter (text : String)
  | rules (problem : Registry.LoadProblem)
  | batch (failure : Batch.Failure)
  deriving DecidableEq, Repr

/-- The wording of faults of the settings. -/
def settingsMessage : Settings.Fault → String
  | .arguments => "a setting is unknown or has a wrong value"
  | .file path => s!"{path} is no file with settings"
  | .value => "a value does not suit its setting"

/-- The wording of a fault. -/
def Fault.message : Fault → String
  | usage => "these words make no request; --help tells what does"
  | settings fault => s!"failed to load configuration: {settingsMessage fault}"
  | logFilter text => s!"invalid log filter: {text}"
  | rules problem => problem.message
  | batch failure => failure.message

/-- What the program prints. -/
inductive Answer where
  | help
  | version
  /-- A text, and whether all went well. -/
  | text (value : String) (success : Bool)
  | fault (value : Fault)
  deriving DecidableEq, Repr

/-- Whether all went well. -/
def Answer.success : Answer → Bool
  | help | version => true
  | text _ success => success
  | fault _ => false

/-- The name of the program. -/
def program : String := "recast"

/-- The line that tells the version. -/
def versionLine : String := program ++ " 0.1.0\n"

/-- Writes a batch to a disk, unless nothing is to be written. -/
def settle (access : Disk.Access) (disk : Disk) (r : Batch.Report) (dryRun : Bool) :
    Disk × Except Batch.Failure Nat :=
  if dryRun then (disk, .ok 0) else Batch.commitWith access r disk

/-- How the batch of an application is made. -/
def Application.options (a : Application) (settings : Settings) : Batch.Options :=
  ⟨a.maxCycles.getD settings.maxCycles, a.bestEffort || settings.bestEffort⟩

/-- Applies rules to files of a disk, in the given steps. -/
def applyWith (access : Disk.Access) (steps : List Batch.Step) (disk : Disk) (settings : Settings)
    (registry : Registry) (a : Application) : Disk × Answer :=
  match registry.recipe a.recipe with
  | .error p => (disk, .fault (.rules p))
  | .ok recipe =>
    match Batch.runWith access disk recipe a.files (a.options settings) false steps with
    | .error f => (disk, .fault (.batch f))
    | .ok report =>
      match settle access disk report a.dryRun with
      | (after, .error f) => (after, .fault (.batch f))
      | (after, .ok _) =>
        (after, .text (batch a.recipe report a.dryRun a.format) (report.failed == 0))

/-- Applies rules to files, one after the other. -/
def apply (disk : Disk) (settings : Settings) (registry : Registry) (a : Application) :
    Disk × Answer :=
  applyWith .plain (Batch.inOrder a.files.length) disk settings registry a

/-- Does what is asked. -/
def obey (disk : Disk) (settings : Settings) (registry : Registry) : Request → Disk × Answer
  | .list format => (disk, .text (ruleList registry format) true)
  | .detail name format =>
    match registry.lookup name with
    | .ok rule => (disk, .text (ruleDetail rule format) true)
    | .error p => (disk, .fault (.rules p))
  | .apply a => apply disk settings registry a

/-- The answer where no request is made. -/
def stopped : Arguments.Stop → Answer
  | .fault => .fault .usage
  | .help => .help
  | .version => .version

/-- The program: what it leaves on the disk and what it prints. The first of the words is its name. -/
def run (disk : Disk) (env : List (String × String)) (args : List String) : Disk × Answer :=
  let parts := split id args
  match Request.ofWords ((parts.command args).drop 1) with
  | .error s => (disk, stopped s)
  | .ok request =>
    match Settings.load disk env (parts.settings.drop 1) with
    | .error f => (disk, .fault (.settings f))
    | .ok settings =>
      if !LogFilter.isFilter settings.logFilter then
        (disk, .fault (.logFilter settings.logFilter))
      else match Registry.withRules disk settings.rulesPath with
        | .error p => (disk, .fault (.rules p))
        | .ok registry => obey disk settings registry request

/-! ## What the program looks at -/

/-- The file that settings are read from. -/
def settingsFiles (env : List (String × String)) (args : List String) : List String :=
  match Arguments.collect Settings.flags ((split id args).settings.drop 1) with
  | .ok given => ((Settings.fileName? env given).map Settings.FileName.path).toList
  | .error _ => []

/-- The files that rules are read from, and those that are to be rewritten. -/
def requestFiles (disk : Disk) (env : List (String × String)) (args : List String) : List String :=
  let parts := split id args
  let rules := match Settings.load disk env (parts.settings.drop 1) with
    | .ok s => s.rulesPath.toList
    | .error _ => []
  let files := match Request.ofWords ((parts.command args).drop 1) with
    | .ok (.apply a) => a.files
    | _ => []
  rules ++ files

end JavaRefactor.CommandLine

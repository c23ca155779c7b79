import JavaRefactor.Settings.LogFormat
import JavaRefactor.Text.Count

/-!
# `Settings.Basic` — settings and the layers they come from

Each layer gives values to some of the settings; where several layers give one, the highest decides. What
a value must be is asked only of the values that decide.

## Contents
- **`Setting`** and its names.
- **Layers.** `Given`, a value as it is given; `Layer` and `Layer.over`.
- **`Settings`** and `ofLayer?`.
-/

namespace JavaRefactor

/-- What can be set. -/
inductive Setting where
  | maxCycles
  | jobs
  | bestEffort
  | rulesPath
  | logFilter
  | logFormat
  deriving DecidableEq, Repr, Inhabited

namespace Setting

/-- All settings. -/
def all : List Setting := [maxCycles, jobs, bestEffort, rulesPath, logFilter, logFormat]

/-- The words of a setting's name. -/
def words : Setting → List String
  | maxCycles => ["max", "cycles"]
  | jobs => ["jobs"]
  | bestEffort => ["best", "effort"]
  | rulesPath => ["rules", "path"]
  | logFilter => ["log", "filter"]
  | logFormat => ["log", "format"]

/-- The name of a setting in a file. -/
def key (s : Setting) : String := "_".intercalate s.words

/-- The name of a setting on a command line. -/
def flag (s : Setting) : String := "-".intercalate s.words

end Setting

/-! ## Layers -/

namespace Settings

/-- A value as it is given. -/
inductive Given where
  | text (value : String)
  | count (value : Nat)
  | boolean (value : Bool)
  /-- A value that suits no setting. -/
  | other
  deriving DecidableEq, Repr, Inhabited

/-- What a layer gives. -/
abbrev Layer := Setting → Option Given

/-- One layer on top of another. -/
def Layer.over (upper lower : Layer) : Layer := fun s => upper s <|> lower s

/-- What holds where nothing is given. -/
def defaults : Layer
  | .maxCycles => some (.count 2)
  | .jobs => some (.count 0)
  | .bestEffort => some (.boolean false)
  | .rulesPath => none
  | .logFilter => some (.text "warn")
  | .logFormat => some (.text LogFormat.compact.name)

end Settings

/-! ## Settings -/

/-- How the program works. -/
structure Settings where
  /-- How many cycles a file may take to settle. -/
  maxCycles : Nat
  /-- How many files are worked on at once; with 0, as many as the machine has processors. -/
  jobs : Nat
  /-- Whether a file that cannot be rewritten never stops a batch. -/
  bestEffort : Bool
  /-- A file, or a directory of files, with further rules. -/
  rulesPath : Option String
  logFilter : String
  logFormat : LogFormat
  deriving DecidableEq, Repr, Inhabited

namespace Settings

/-- A value that counts something. -/
def Given.count? : Given → Option Nat
  | .count n => if n < Text.countLimit then some n else none
  | _ => none

/-- A value that is a text. -/
def Given.text? : Given → Option String
  | .text s => some s
  | _ => none

/-- A value that is true or false. -/
def Given.boolean? : Given → Option Bool
  | .boolean b => some b
  | _ => none

/-- The settings that a layer gives, if each has a value that suits it. -/
def ofLayer? (l : Layer) : Option Settings := do
  let maxCycles ← (l .maxCycles).bind Given.count?
  let jobs ← (l .jobs).bind Given.count?
  let bestEffort ← (l .bestEffort).bind Given.boolean?
  let rulesPath ← match l .rulesPath with
    | none => some none
    | some v => v.text?.map some
  let logFilter ← (l .logFilter).bind Given.text?
  let logFormat ← ((l .logFormat).bind Given.text?).bind LogFormat.ofName?
  return ⟨maxCycles, jobs, bestEffort, rulesPath, logFilter, logFormat⟩

/-- The settings where nothing is given. -/
def standard : Settings := ⟨2, 0, false, none, "warn", .compact⟩

theorem ofLayer?_defaults : ofLayer? defaults = some standard := by decide

end Settings

end JavaRefactor

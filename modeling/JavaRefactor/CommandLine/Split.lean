import JavaRefactor.Settings.Sources

/-!
# `CommandLine.Split` — what belongs to the settings and what to the command

The settings stand in front of the command. Behind the first word that is none of theirs, all words belong
to the command.

## Contents
- **Words of settings.** `opensSetting`, `hasOwnValue`.
- **`leading`**, the words of the settings at the front.
- **`split`** and **`Split.command`**, both parts, each with the program's name in front.
-/

namespace JavaRefactor.CommandLine

open Settings (configPath)

/-- The names of the settings that may stand in front of a command; each takes a value. -/
def settingNames : List String :=
  configPath :: [Setting.rulesPath, .maxCycles, .jobs, .logFilter, .logFormat].map Setting.flag

/-- Whether a word names a setting. -/
def opensSetting (arg : String) : Bool :=
  (settingNames.map fun name => "--".toList ++ name.toList).contains
    (arg.toList.takeWhile (· != '='))

/-- Whether a word holds a value too, behind an equals sign. -/
def hasOwnValue (arg : String) : Bool := arg.toList.contains '='

variable {α : Type} (text : α → String)

/-- The words of the settings at the front. Where one of them has no value of its own a value is pending:
the next word, whatever it looks like. -/
def leading : Bool → List α → List α
  | _, [] => []
  | true, value :: rest => value :: leading false rest
  | false, word :: rest =>
    if opensSetting (text word) then word :: leading (!hasOwnValue (text word)) rest else []

/-- The words of the settings, with the program's name, and the number of the first word behind them. -/
structure Split (α : Type) where
  settings : List α
  start : Nat
  deriving DecidableEq, Repr, Inhabited

/-- Splits a command line whose first word is the program's name. A word may be no text; what it reads as
is all that is looked at. -/
def split : List α → Split α
  | [] => ⟨[], 0⟩
  | program :: args =>
    let front := program :: leading text false args
    ⟨front, front.length⟩

/-- The words of the command, with the program's name. -/
def Split.command (s : Split α) (args : List α) : List α := args.take 1 ++ args.drop s.start

end JavaRefactor.CommandLine

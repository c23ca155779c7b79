import JavaRefactor.CommandLine.Help

/-!
# `Main` — the program on a real disk

The files that the words, the environment and the settings name are read first; the program itself works
on what has been read, and what it has changed is written back.

## Contents
- **Reading.** `environment`, `look`.
- **Writing.** `store`, which puts a new file in the place of the old one.
- **`main`**.
-/

namespace JavaRefactor.CommandLine

/-- The variables that settings are taken from. -/
def environment : IO (List (String × String)) := do
  let names := Settings.configVariable :: Setting.all.map fun s => Settings.variableFront ++ s.key
  (names.map String.toUpper).filterMapM fun name => do
    return (← IO.getEnv name).map fun value => (name, value)

/-- What bytes hold. -/
def contentOf (bytes : ByteArray) : Disk.Content :=
  match String.fromUTF8? bytes with
  | some text => .text text
  | none => .binary bytes.toList

/-- Adds to a disk what a path leads to: a file, or a directory and the files right inside it. -/
def look (disk : Disk) (path : String) : IO Disk := do
  let target := (← IO.currentDir) / path
  if !(← target.pathExists) then return disk
  let target ← IO.FS.realPath target
  let place := Disk.names target.toString
  if ← target.isDir then
    let mut entries := disk.entries ++ [(place, .directory)]
    for found in ← target.readDir do
      if !(← found.path.isDir) then
        let content := contentOf (← IO.FS.readBinFile found.path)
        entries := entries ++ [(place ++ [found.fileName], .file content)]
    return { disk with entries }
  else
    let content := contentOf (← IO.FS.readBinFile target)
    return { disk with entries := disk.entries ++ [(place, .file content)] }

/-- Writes a file anew beside the old one, and puts it in its place. -/
def store (place : List String) (text : String) : IO Unit := do
  let path := "/" ++ "/".intercalate place
  let fresh := path ++ ".new"
  IO.FS.writeFile fresh text
  IO.FS.rename fresh path

/-- Writes what has changed. -/
def storeChanges (old new : Disk) : IO Unit :=
  for (place, entry) in new.entries do
    match entry with
    | .file (.text text) =>
      if old.entries.lookup place != some entry then store place text
    | _ => pure ()

end JavaRefactor.CommandLine

open JavaRefactor JavaRefactor.CommandLine in
/-- The program: success is told by 0. -/
def main (args : List String) : IO UInt32 := do
  let words := program :: args
  let env ← environment
  let home := Disk.names (← IO.currentDir).toString
  let disk ← (settingsFiles env words).foldlM look ⟨[], home⟩
  let disk ← (requestFiles disk env words).foldlM look disk
  let (after, answer) := CommandLine.run disk env words
  storeChanges disk after
  let (out, err) := printed answer
  (← IO.getStdout).putStr out
  (← IO.getStderr).putStr err
  return if answer.success then 0 else 1

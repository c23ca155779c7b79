import JavaRefactor.Disk.Basic
import JavaRefactor.Settings.Sources

/-!
# `Settings.Load` — settings from all layers

From the lowest to the highest: the defaults, a file, the environment, the command line.

## Contents
- **`FileName`** and `fileName?`, which file it is: the one that the command line names, or else the one
  that the environment names, which may be missing.
- **`fileLayer`**, what the file gives.
- **`Settings.load`**.
-/

namespace JavaRefactor.Settings

/-- Why there are no settings. -/
inductive Fault where
  /-- The command line has a word that is no setting's, or a value that is none. -/
  | arguments
  /-- A file cannot be read, or is malformed. -/
  | file (path : String)
  /-- A value does not suit its setting. -/
  | value
  deriving DecidableEq, Repr, Inhabited

/-- What nothing gives. -/
def noLayer : Layer := fun _ => none

/-- What a file gives. -/
def readFile (disk : Disk) (path : String) : Except Fault Layer :=
  match disk.read path with
  | .error _ => .error (.file path)
  | .ok text => match Toml.read? text with
    | some ds => .ok (ofDefinitions ds)
    | none => .error (.file path)

/-- Whether a path leads to a file. -/
def isFile (disk : Disk) (path : String) : Bool :=
  match disk.locate path with
  | .ok (_, .file _) => true
  | _ => false

/-- The name of the variable with the path of a file. -/
def configVariable : String := variableFront ++ "CONFIG_PATH"

/-- The path of a file with settings. -/
inductive FileName where
  | required (path : String)
  /-- A file that may be missing. -/
  | optional (path : String)
  deriving DecidableEq, Repr, Inhabited

/-- The path itself. -/
def FileName.path : FileName → String
  | required p => p
  | optional p => p

/-- The file with settings. -/
def fileName? (env : List (String × String)) (given : Arguments.Given) : Option FileName :=
  match given.value? configPath with
  | some path => some (.required path)
  | none => ((env.reverse.lookup configVariable).filter (!·.isEmpty)).map .optional

/-- What the file gives. -/
def fileLayer (disk : Disk) : Option FileName → Except Fault Layer
  | none => .ok noLayer
  | some (.required path) => readFile disk path
  | some (.optional path) => if isFile disk path then readFile disk path else .ok noLayer

/-- The settings that the words of a command line, the variables of an environment and a file give. -/
def load (disk : Disk) (env : List (String × String)) (args : List String) :
    Except Fault Settings :=
  match Arguments.collect flags args with
  | .error _ => .error .arguments
  | .ok given =>
    match fileLayer disk (fileName? env given) with
    | .error f => .error f
    | .ok file =>
      let layer := (ofFlags given).over ((ofEnvironment env).over (file.over defaults))
      match ofLayer? layer with
      | some s => .ok s
      | none => .error .value

end JavaRefactor.Settings

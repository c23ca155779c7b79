/-!
# `Settings.LogFormat` — how events are logged

## Contents
- **`LogFormat`**, its names, and `ofText`, which takes them in capital letters too.
-/

namespace JavaRefactor

/-- How events are logged. -/
inductive LogFormat where
  /-- One object an event. -/
  | json
  /-- One line an event. -/
  | compact
  deriving DecidableEq, Repr, Inhabited

namespace LogFormat

/-- The name of a format. -/
def name : LogFormat → String
  | json => "json"
  | compact => "compact"

/-- The format of a name. -/
def ofName? (text : String) : Option LogFormat :=
  [json, compact].find? (·.name == text)

/-- Why a text names no format. -/
inductive Fault where
  | unknown
  deriving DecidableEq, Repr, Inhabited

/-- The wording of a fault. -/
def Fault.message : Fault → String
  | unknown => "Matching variant not found"

/-- The format that a text names, whether in capital letters or small ones. -/
def ofText (text : String) : Except Fault LogFormat :=
  match ofName? (String.ofList (text.toList.map Char.toLower)) with
  | some f => .ok f
  | none => .error .unknown

end LogFormat

end JavaRefactor

import JavaRefactor.Arguments
import JavaRefactor.Settings.Basic
import JavaRefactor.Text.Chars
import JavaRefactor.Toml.Document

/-!
# `Settings.Sources` — where settings are given

## Contents
- **Files.** `ofDefinitions`.
- **The environment.** `ofEnvironment`, and `valueOf`, how the text of a variable is understood.
- **The command line.** `flags` and `ofFlags`.
-/

namespace JavaRefactor.Settings

/-! ## Files -/

/-- What a value of a file gives. -/
def ofToml : Toml.Value → Given
  | .text s => .text s
  | .integer n => if 0 ≤ n then .count n.toNat else .other
  | .boolean b => .boolean b
  | _ => .other

/-- What a file gives. -/
def ofDefinitions (ds : Toml.Definitions) : Layer := fun s => (ds.at? s.key).map ofToml

/-! ## The environment -/

/-- What the names of the variables start with. -/
def variableFront : String := "RECAST_"

/-- Whether the characters write a number with a point. -/
def isFraction (cs : List Char) : Bool :=
  let body := match cs with
    | '+' :: rest | '-' :: rest => rest
    | _ => cs
  let whole := body.takeWhile Char.isDigit
  match body.drop whole.length with
  | '.' :: rest =>
    let part := rest.takeWhile Char.isDigit
    let exponent := match rest.drop part.length with
      | [] => true
      | 'e' :: '+' :: ds | 'e' :: '-' :: ds | 'E' :: '+' :: ds | 'E' :: '-' :: ds =>
        !ds.isEmpty && ds.all Char.isDigit
      | 'e' :: ds | 'E' :: ds => !ds.isEmpty && ds.all Char.isDigit
      | _ => false
    !(whole.isEmpty && part.isEmpty) && exponent
  | _ => false

/-- The characters of a quoted text, if a quote ends it and nothing follows. -/
def quoted? : List Char → Option (List Char)
  | [] => none
  | ['"'] => some []
  | '"' :: _ => none
  | '\\' :: '"' :: cs => (quoted? cs).map ('"' :: ·)
  | '\\' :: '\\' :: cs => (quoted? cs).map ('\\' :: ·)
  | '\\' :: 'n' :: cs => (quoted? cs).map ('\n' :: ·)
  | '\\' :: 't' :: cs => (quoted? cs).map ('\t' :: ·)
  | '\\' :: 'r' :: cs => (quoted? cs).map ('\r' :: ·)
  | '\\' :: _ => none
  | c :: cs => (quoted? cs).map (c :: ·)

/-- What a text without a mark of its own gives: a number, if it writes one, and else itself. -/
def plain (cs : List Char) : Given :=
  let text := String.ofList cs
  match Text.count? text, cs with
  | some n, _ => .count n
  | none, '-' :: ds => if (Text.digits? ds).isSome || isFraction cs then .other else .text text
  | none, _ => if isFraction cs then .other else .text text

/-- What the text of a variable gives. Commas make a list of it, unless it has a mark of its own. -/
def valueOf (text : String) : Given :=
  let cs := Text.trimEnd (Text.trimStart text.toList)
  let whole := Given.text (String.ofList cs)
  match cs with
  | '"' :: rest => match quoted? rest with
    | some inner => .text (String.ofList inner)
    | none => whole
  | ['\'', c, '\''] => .text (String.singleton c)
  -- a single quote marks one character and nothing else
  | '\'' :: _ => whole
  | '[' :: _ => if cs.getLast? == some ']' then .other else whole
  | '{' :: _ => if cs.getLast? == some '}' then .other else whole
  | _ =>
    if cs.contains ',' then .other
    else if cs == "true".toList then .boolean true
    else if cs == "false".toList then .boolean false
    else plain cs

/-- The name of a variable in small letters. -/
def lowered (name : String) : String := String.ofList (name.toList.map Char.toLower)

/-- The text of the last variable with a name, in capital letters or small ones. -/
def variableText? (env : List (String × String)) (name : String) : Option String :=
  (env.reverse.find? fun v => lowered v.1 == lowered (variableFront ++ name)).map (·.2)

/-- What the environment gives. -/
def ofEnvironment (env : List (String × String)) : Layer := fun s =>
  (variableText? env s.key).map valueOf

/-! ## The command line -/

/-- Whether a text counts something. -/
def isCount (text : String) : Bool := (Text.count? text).isSome

/-- The switch of a setting. -/
def switchOf : Setting → Arguments.Switch
  | .maxCycles => ⟨Setting.maxCycles.flag, some 'm', .value isCount⟩
  | .jobs => ⟨Setting.jobs.flag, some 'j', .value isCount⟩
  | .bestEffort => ⟨Setting.bestEffort.flag, some 'b', .flag⟩
  | .rulesPath => ⟨Setting.rulesPath.flag, some 'r', .value (!·.isEmpty)⟩
  | .logFilter => ⟨Setting.logFilter.flag, some 'l', .value fun _ => true⟩
  | .logFormat => ⟨Setting.logFormat.flag, some 'L', .value (LogFormat.ofText · |>.toBool)⟩

/-- The name of the switch with the path of a file. -/
def configPath : String := "config-path"

/-- What the command line may give. -/
def flags : Arguments.Shape where
  switches := Setting.all.map switchOf ++
    [.taking configPath (!·.isEmpty), Arguments.Switch.help]
  operandFits := fun _ _ => false

/-- What a switch's value gives. -/
def ofFlag (s : Setting) (text : String) : Given :=
  match s with
  | .maxCycles | .jobs => (Text.count? text).elim .other .count
  | .logFormat => match LogFormat.ofText text with
    | .ok f => .text f.name
    | .error _ => .other
  | _ => .text text

/-- What the command line gives. A flag that is missing says no. -/
def ofFlags (g : Arguments.Given) : Layer
  | .bestEffort => some (.boolean (g.has Setting.bestEffort.flag))
  | s => (g.value? s.flag).map (ofFlag s)

end JavaRefactor.Settings

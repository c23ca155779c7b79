import JavaRefactor.Arguments
import JavaRefactor.Text.Count

/-!
# `CommandLine.Request` — what the program is asked to do

## Contents
- **`Format`**, how an answer is written.
- **`Request`**: to list the rules, to show one, or to apply some to files.
- **`Request.ofWords`**, the request of the words behind the settings.
-/

namespace JavaRefactor.CommandLine

open Arguments (Given Shape Stop Switch collect isDashed)

/-- How an answer is written. -/
inductive Format where
  /-- As lines for people. -/
  | human
  /-- As one object for programs. -/
  | json
  deriving DecidableEq, Repr, Inhabited

namespace Format

/-- The format of a name. -/
def ofName? : String → Option Format
  | "human" => some human
  | "json" => some json
  | _ => none

end Format

/-- Rules that are to be applied to files. -/
structure Application where
  recipe : String
  files : List String
  /-- Whether no file is to be written. -/
  dryRun : Bool
  /-- What holds instead of the settings. -/
  maxCycles : Option Nat
  jobs : Option Nat
  bestEffort : Bool
  format : Format
  deriving DecidableEq, Repr, Inhabited

/-- What the program is asked to do. -/
inductive Request where
  | list (format : Format)
  | detail (rule : String) (format : Format)
  | apply (application : Application)
  deriving DecidableEq, Repr, Inhabited

namespace Request

/-- The switch that tells how to write the answer. -/
def formatSwitch : Switch := .taking "format" fun v => (Format.ofName? v).isSome

/-- A switch whose value counts something. -/
def countSwitch (name : String) : Switch := .taking name fun v => (Text.count? v).isSome

/-- What may stand in front of a command. -/
def front : Shape where
  switches := [.help, .version]
  operandFits := fun _ _ => false

/-- What `list` takes. -/
def listShape : Shape where
  switches := [formatSwitch, .help]
  operandFits := fun _ _ => false

/-- What `show` takes: the name of a rule. -/
def detailShape : Shape where
  switches := [formatSwitch, .help]
  operandFits := fun count _ => count == 0

/-- What `run` takes: the name of a rule or a group, and files. -/
def applyShape : Shape where
  switches := [⟨"dry-run", none, .flag⟩, countSwitch "max-cycles", countSwitch "jobs",
    ⟨"best-effort", none, .flag⟩, formatSwitch, .help]
  operandFits := fun count text => count == 0 || !text.isEmpty

/-- How the answer is to be written; for people, unless something else is asked for. -/
def formatOf (g : Given) : Format := ((g.value? "format").bind Format.ofName?).getD .human

/-- What a switch counts. -/
def countOf? (g : Given) (name : String) : Option Nat := (g.value? name).bind Text.count?

/-- The request that rules be applied to files, of which there must be one at least. -/
def application? (g : Given) : Option Application :=
  match g.operands with
  | recipe :: file :: files =>
    some ⟨recipe, file :: files, g.has "dry-run", countOf? g "max-cycles", countOf? g "jobs",
      g.has "best-effort", formatOf g⟩
  | _ => none

/-- The request of a command's words. -/
def ofCommand (command : String) (args : List String) : Except Stop Request :=
  match command with
  | "list" => (collect listShape args).map fun g => .list (formatOf g)
  | "show" => (collect detailShape args).bind fun g =>
    match g.operands with
    | rule :: _ => .ok (.detail rule (formatOf g))
    | [] => .error .fault
  | "run" => (collect applyShape args).bind fun g =>
    match application? g with
    | some a => .ok (.apply a)
    | none => .error .fault
  | _ => .error .fault

/-- The request of words: of a command and what it takes. In front of it nothing may stand that does not
stop the program. -/
def ofWords : List String → Except Stop Request
  | [] => .error .fault
  | word :: args =>
    if isDashed word then (collect front (word :: args)).bind fun _ => .error .fault
    else ofCommand word args

end Request

end JavaRefactor.CommandLine

import JavaRefactor.Disk.Basic
import JavaRefactor.Keyed
import JavaRefactor.Rule.Basic
import JavaRefactor.Yaml.Document

/-!
# `Registry.Document` — rules as they are written in files

A document is a table with one key, `rules`. Each rule has a name, before-templates and an
after-template; the rest may be left out.

## Contents
- **`LoadProblem`**, what can go wrong with rules that are loaded, and its `message`.
- **`Document.parse`**, the drafts of a document.
- **`Document.read`**, those of a file.
-/

namespace JavaRefactor

namespace Registry

/-- What is wrong with a document. -/
inductive DocumentFault where
  /-- Not a table of rules. -/
  | malformed
  /-- A rule without before-templates. -/
  | noBefore (rule : String)
  deriving DecidableEq, Repr

/-- The wording of a fault of a document. -/
def DocumentFault.message : DocumentFault → String
  | malformed => "not a document of rules"
  | noBefore rule => s!"rule '{rule}' has no before-templates"

/-- What can go wrong when rules are loaded or looked up. -/
inductive LoadProblem where
  | unknownRule (name : String)
  | duplicateRule (name : String)
  | document (origin : String) (fault : DocumentFault)
  | rule (name : String) (problem : Problem)
  | file (path : String) (fault : Disk.Fault)
  deriving DecidableEq, Repr

/-- The wording of a problem with loading. -/
def LoadProblem.message : LoadProblem → String
  | unknownRule name => s!"unknown rule '{name}'"
  | duplicateRule name => s!"rule '{name}' is already registered"
  | document origin fault => s!"invalid rule definition in {origin}: {fault.message}"
  | rule name problem => s!"rule '{name}' is invalid: {problem.message}"
  | file path fault => s!"failed to read rules from {path}: {fault.message}"

end Registry

namespace Document

open Yaml (Value)
open Registry (LoadProblem)

/-- The keys of a rule. -/
def ruleKeys : List String :=
  ["name", "description", "metavariables", "before", "after", "imports", "predicates"]

/-- Whether a table has no keys but the given ones. -/
def hasOnly (keys : List String) (entries : List (String × Value)) : Bool :=
  entries.all fun (key, _) => keys.contains key

/-- What a view makes of the value of a key; a default where the key is missing. -/
def entryOr {α : Type} (entries : List (String × Value)) (key : String) (default : α)
    (view : Value → Option α) : Option α :=
  match entries.lookup key with
  | some v => view v
  | none => some default

/-- An entry whose value is a text. -/
def textEntry? (e : String × Value) : Option (String × String) :=
  e.2.text?.map fun text => (e.1, text)

/-- The declarations of a table, by ascending names. -/
def declarations? (v : Value) : Option (List (String × String)) := do
  let pairs ← (← v.entries?).mapM textEntry?
  some (Keyed.ofList pairs).entries

/-- The draft of a rule. -/
def draft? (v : Value) : Option RuleDraft := do
  let entries ← v.entries?
  if !hasOnly ruleKeys entries then none
  else
    let name ← (← entries.lookup "name").text?
    let description ← entryOr entries "description" none Value.optionalText?
    let metavariables ← entryOr entries "metavariables" [] declarations?
    let befores ← (← entries.lookup "before").texts?
    let after ← (← entries.lookup "after").text?
    let imports ← entryOr entries "imports" [] Value.texts?
    let predicates ← entryOr entries "predicates" [] Value.texts?
    some ⟨name, description, befores, some after, metavariables, predicates, imports⟩

/-- The drafts of a document. -/
def drafts? (v : Value) : Option (List RuleDraft) := do
  let entries ← v.entries?
  if !hasOnly ["rules"] entries then none
  else (← (← entries.lookup "rules").items?).mapM draft?

/-- The drafts of a text, of which each must have a before-template. -/
def parse (text origin : String) : Except LoadProblem (List RuleDraft) :=
  match (Yaml.read? text).bind drafts? with
  | none => .error (.document origin .malformed)
  | some drafts =>
    match drafts.find? (·.befores.isEmpty) with
    | some d => .error (.document origin (.noBefore d.name))
    | none => .ok drafts

/-- The drafts of a file. -/
def read (d : Disk) (path : String) : Except LoadProblem (List RuleDraft) :=
  match d.read path with
  | .ok text => parse text path
  | .error fault => .error (.file path fault)

end Document

end JavaRefactor

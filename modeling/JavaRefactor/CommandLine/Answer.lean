import JavaRefactor.Batch.Report
import JavaRefactor.CommandLine.Json
import JavaRefactor.CommandLine.Request
import JavaRefactor.Registry.Basic

/-!
# `CommandLine.Answer` — the texts of answers

## Contents
- **Rules.** `ruleList`, and `ruleDetail` with its sections.
- **Batches.** `batch`: a line for each file and one that counts them.
-/

namespace JavaRefactor.CommandLine

/-- Lines, each with its end. -/
def lines (ls : List String) : String := String.join (ls.map (· ++ "\n"))

/-- An object, with the end of its last line. -/
def document (j : Json) : String := j.pretty 0 ++ "\n"

/-! ## Rules -/

/-- The entry of a description. -/
def descriptionEntry (description : Option String) : List (String × Json) :=
  match description with
  | some text => [("description", .text text)]
  | none => []

/-- A rule in the list of all, as an object. -/
def ruleSummary (entry : String × Rule) : Json :=
  .entries (("name", .text entry.1) :: descriptionEntry entry.2.description)

/-- A text with blanks behind it up to a width. -/
def padded (width : Nat) (text : String) : String :=
  text ++ String.ofList (List.replicate (width - text.length) ' ')

/-- A rule in the list of all, as a line. The descriptions stand one below the other. -/
def ruleLine (width : Nat) (entry : String × Rule) : String :=
  match entry.2.description with
  | some text => padded width entry.1 ++ "  " ++ text
  | none => entry.1

/-- The list of all rules. -/
def ruleList (r : Registry) : Format → String
  | .json => document (.items (r.rules.entries.map ruleSummary))
  | .human =>
    let width := (r.rules.entries.map (·.1.utf8ByteSize)).foldl max 0
    lines (r.rules.entries.map (ruleLine width))

/-- The constraints of a rule's metavariables, by ascending names. -/
def constraints (r : Rule) : List (String × String) :=
  (Keyed.ofList (r.templates.declarations.map fun d => (d.name, d.constraint.text))).entries

/-- A rule as an object. -/
def ruleObject (r : Rule) : Json :=
  .entries ([("name", .text r.name)] ++ descriptionEntry r.description ++
    [("before", .items (r.templates.befores.map fun t => .text t.source)),
      ("after", .text r.templates.after.source),
      ("metavariables", .entries ((constraints r).map fun (name, c) => (name, .text c))),
      ("imports", .items (r.imports.map fun i => .text i.text)),
      ("predicates", .items (r.predicates.map fun p => .text p.text))])

/-- A section of a rule; there is none without lines. -/
def ruleSection (title : String) (ls : List String) : List String :=
  if ls.isEmpty then [] else (title ++ ":") :: ls.map ("  " ++ ·)

/-- A rule as lines. -/
def ruleLines (r : Rule) : List String :=
  [r.name] ++ (r.description.map ("  " ++ ·)).toList ++
    ruleSection "before" (r.templates.befores.map (·.source)) ++
    ruleSection "after" [r.templates.after.source] ++
    ruleSection "metavariables" ((constraints r).map fun (name, c) => s!"${name}: {c}") ++
    ruleSection "imports" (r.imports.map (·.text)) ++
    ruleSection "predicates" (r.predicates.map (·.text))

/-- What a rule says. -/
def ruleDetail (r : Rule) : Format → String
  | .json => document (ruleObject r)
  | .human => lines (ruleLines r)

/-! ## Batches -/

open Batch (FileReport Report)

/-- What has become of a file, as an object. -/
def fileObject (f : FileReport) : Json :=
  .entries (("path", .text f.path) :: match f.outcome with
    | .unchanged => [("status", .text "unchanged")]
    | .rewritten applied cycles =>
      [("status", .text "rewritten"), ("applied", .count applied), ("cycles", .count cycles)]
    | .failed obstacle => [("status", .text "failed"), ("error", .text obstacle.message)]
    | .skipped => [("status", .text "skipped")])

/-- A number of things. -/
def counted (count : Nat) (one many : String) : String :=
  let noun := if count == 1 then one else many
  s!"{count} {noun}"

/-- What has become of a file, as a line. -/
def fileLine (f : FileReport) : String :=
  match f.outcome with
  | .unchanged => s!"unchanged  {f.path}"
  | .rewritten applied cycles =>
    let replaced := counted applied "site" "sites"
    let needed := counted cycles "cycle" "cycles"
    s!"rewritten  {f.path} ({replaced}, {needed})"
  | .failed obstacle => s!"failed     {f.path}: {obstacle.message}"
  | .skipped => s!"skipped    {f.path}"

/-- The line that counts the files of a batch. -/
def summaryLine (r : Report) (dryRun : Bool) : String :=
  let files := counted r.files.length "file" "files"
  let remark := if dryRun then " (dry run, nothing written)" else ""
  s!"{files}: {r.rewritten} rewritten, {r.unchanged} unchanged, " ++
    s!"{r.failed} failed, {r.skipped} skipped" ++ remark

/-- A batch as an object. -/
def batchObject (recipe : String) (r : Report) (dryRun : Bool) : Json :=
  .entries [("recipe", .text recipe), ("dry_run", .boolean dryRun),
    ("rewritten", .count r.rewritten), ("unchanged", .count r.unchanged),
    ("failed", .count r.failed), ("skipped", .count r.skipped),
    ("files", .items (r.files.map fileObject))]

/-- What has become of the files of a batch. -/
def batch (recipe : String) (r : Report) (dryRun : Bool) : Format → String
  | .json => document (batchObject recipe r dryRun)
  | .human => lines (r.files.map fileLine ++ [summaryLine r dryRun])

end JavaRefactor.CommandLine

import JavaRefactor.Registry.Document

/-!
# `Registry.Basic` — rules by name

A registry only grows: a name that is taken keeps its rule. Loading several rules stops at the first
problem and keeps those that went before.

## Contents
- **`Registry`** and `register`.
- **Loading.** `registerAll`, `loadFiles`, `loadPath`.
- **Looking up.** `lookup`, and `recipe`, one rule or all rules of a group.
-/

namespace JavaRefactor

/-- Rules by name. -/
structure Registry where
  rules : Keyed Rule

namespace Registry

/-- The registry without rules. -/
def empty : Registry := ⟨.empty⟩

instance : Inhabited Registry := ⟨empty⟩

/-- The number of rules. -/
def size (r : Registry) : Nat := r.rules.size

/-- Adds a rule under a name that is not yet taken. -/
def register (r : Registry) (name : String) (rule : Rule) : Except LoadProblem Registry :=
  if r.rules.contains name then .error (.duplicateRule name)
  else .ok ⟨r.rules.insert name rule⟩

/-! ## Loading -/

/-- Checks a draft and adds its rule. -/
def registerDraft (r : Registry) (d : RuleDraft) : Except LoadProblem Registry :=
  match d.build with
  | .error p => .error (.rule d.name p)
  | .ok rule => r.register d.name rule

/-- Adds the rules of drafts up to the first problem. -/
def registerAll (r : Registry) : List RuleDraft → Registry × Option LoadProblem
  | [] => (r, none)
  | d :: ds =>
    match r.registerDraft d with
    | .error p => (r, some p)
    | .ok r' => registerAll r' ds

/-- The registry of the rules of drafts, up to the first problem. -/
def ofDrafts (ds : List RuleDraft) : Registry := (empty.registerAll ds).1

/-- Adds the rules of files up to the first problem. -/
def loadFiles (disk : Disk) (r : Registry) : List String → Registry × Option LoadProblem
  | [] => (r, none)
  | path :: paths =>
    match Document.read disk path with
    | .error p => (r, some p)
    | .ok drafts =>
      match r.registerAll drafts with
      | (r', some p) => (r', some p)
      | (r', none) => loadFiles disk r' paths

/-- The files with rules that a path is about: the file itself, or those right inside a directory whose
names say that they hold rules. -/
def ruleFiles (disk : Disk) (path : String) : Except LoadProblem (List String) :=
  match disk.isDirectory path with
  | .error f => .error (.file path f)
  | .ok false => .ok [path]
  | .ok true =>
    match disk.listing path with
    | .error f => .error (.file path f)
    | .ok names =>
      let isRules := fun name =>
        Disk.extension? name == some "yaml" || Disk.extension? name == some "yml"
      .ok ((names.filter isRules).map (Disk.join path))

/-- Adds the rules of a file, or of the files of a directory. -/
def loadPath (disk : Disk) (r : Registry) (path : String) : Registry × Option LoadProblem :=
  match ruleFiles disk path with
  | .error p => (r, some p)
  | .ok files => loadFiles disk r files

/-! ## Looking up -/

/-- The rule of a name. -/
def lookup (r : Registry) (name : String) : Except LoadProblem Rule :=
  match r.rules.get? name with
  | some rule => .ok rule
  | none => .error (.unknownRule name)

/-- What the names of a group's rules start with. -/
def groupFront (name : String) : String := name ++ "."

/-- The entries of a group: those from the front of the group on, as long as they start with it. -/
def group (entries : List (String × Rule)) (name : String) : List (String × Rule) :=
  let front := groupFront name
  (entries.dropWhile fun e => decide (e.1 < front)).takeWhile
    fun e => front.toList.isPrefixOf e.1.toList

/-- The rule of a name, or else the rules of the group with that name. -/
def recipe (r : Registry) (name : String) : Except LoadProblem (List Rule) :=
  match r.rules.get? name with
  | some rule => .ok [rule]
  | none =>
    match (group r.rules.entries name).map (·.2) with
    | [] => .error (.unknownRule name)
    | rules => .ok rules

end Registry

end JavaRefactor

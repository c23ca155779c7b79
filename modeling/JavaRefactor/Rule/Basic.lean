import JavaRefactor.Rule.ImportSpec
import JavaRefactor.Rule.Predicate
import JavaRefactor.Template.Basic

/-!
# `Rule.Basic` — rules

A rule has one or more before-templates, of which each binds all that the after-template uses.

## Contents
- **`TemplateSet`**, the templates of a rule, and `TemplateSet.compile`.
- **`Rule`**, with its `accepts`.
- **`RuleDraft`**, a rule as it is written, and `RuleDraft.build`, which checks it.
-/

namespace JavaRefactor

open JavaRefactor.Types (Oracle)

/-- The compiled templates of a rule and the declarations they were compiled with. -/
structure TemplateSet where
  befores : List Template
  after : Template
  declarations : List Declaration
  deriving Repr, Inhabited

namespace TemplateSet

/-- The first name, in the order of declarations, whose declaration repeats an earlier one. -/
def redeclared? (seen : List String) : List Declaration → Option String
  | [] => none
  | d :: ds => if seen.contains d.name then some d.name else redeclared? (d.name :: seen) ds

/-- Whether a template has a metavariable of this name and shape. -/
def hasMetavariable (t : Template) (v : Metavariable) : Bool :=
  t.metavariables.any fun v' => v'.name == v.name && v'.shape == v.shape

/-- Whether every before-template binds a metavariable of the after-template. -/
def boundEverywhere (befores : List Template) (v : Metavariable) : Bool :=
  v.name != Metavariable.wildcard && befores.all (hasMetavariable · v)

/-- Compiles the templates of a rule. -/
def compile (befores : List String) (after : String) (declarations : List Declaration) :
    Except Problem TemplateSet :=
  if befores.isEmpty then .error (.template after .noBefore)
  else match redeclared? [] declarations with
    | some name => .error (.metavariable (.declaredTwice name))
    | none => do
      let bs ← befores.mapM (Template.compile · declarations)
      let a ← Template.compile after declarations
      match declarations.find? (fun d => !bs.any (·.uses d.name)) with
      | some d => .error (.unusedMetavariable d.name)
      | none =>
        match a.metavariables.find? (!boundEverywhere bs ·) with
        | some v => .error (.unboundMetavariable v.name)
        | none => .ok ⟨bs, a, declarations⟩

/-- Whether some before-template binds a name. -/
def binds (s : TemplateSet) (name : String) : Bool :=
  name != Metavariable.wildcard && s.befores.any (·.uses name)

end TemplateSet

/-- A checked rule. -/
structure Rule where
  name : String
  description : Option String
  templates : TemplateSet
  predicates : List Predicate
  imports : List ImportSpec
  deriving Repr, Inhabited

namespace Rule

/-- Whether a binding meets all conditions of the rule. -/
def accepts (r : Rule) (o : Oracle) (b : Binding) : Bool := r.predicates.all (·.holds o b)

end Rule

/-- A rule as it is written. -/
structure RuleDraft where
  name : String
  description : Option String
  befores : List String
  after : Option String
  metavariables : List (String × String)
  predicates : List String
  imports : List String
  deriving DecidableEq, Repr, Inhabited

namespace RuleDraft

/-- A rule of one before-template and an after-template only. -/
def simple (name before after : String) : RuleDraft :=
  ⟨name, none, [before], some after, [], [], []⟩

/-- A name that a predicate is about and no before-template binds. -/
def unboundName? (templates : TemplateSet) (p : Predicate) : Option (Predicate × String) :=
  (p.names.find? (!templates.binds ·)).map fun name => (p, name)

/-- Checks a rule: its declarations, templates, predicates and imports, in this order. -/
def build (d : RuleDraft) : Except Problem Rule :=
  match d.after with
  | none => .error (.template "" (.noAfter d.name))
  | some after => do
    let declarations ← d.metavariables.mapM fun (name, type) => Declaration.of name type
    let templates ← TemplateSet.compile d.befores after declarations
    let predicates ← d.predicates.mapM Predicate.parse
    match predicates.findSome? (unboundName? templates) with
    | some (p, name) => .error (.predicate (.unbound p.text name))
    | none =>
      let imports ← d.imports.mapM ImportSpec.parse
      .ok ⟨d.name, d.description, templates, predicates, imports⟩

end RuleDraft

end JavaRefactor

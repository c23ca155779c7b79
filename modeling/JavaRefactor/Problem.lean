import JavaRefactor.Java.Parse

/-!
# `Problem` — what can go wrong with a text, a template or a rule

Every problem is told by its cause; `Problem.message` words it.

## Contents
- **Causes.** `MetavariableFault`, `TemplateFault`, `PredicateFault`, `InvariantFault` and `Problem`.
- **Families.** `isFatal`, problems that stop a whole batch, and `isRuleProblem`, problems of a rule.
- **Wording.** `message`.
-/

namespace JavaRefactor

open Text (Span)

/-- What is wrong with metavariables. -/
inductive MetavariableFault where
  /-- A run of dollars that is neither one nor three long. -/
  | dollars (offset count : Nat)
  /-- Dollars that no name follows. -/
  | nameless (offset : Nat)
  /-- One name for both a node and a run of nodes. -/
  | mixed (name : String)
  /-- A declaration of what is no name. -/
  | badName (text : String)
  | declaredTwice (name : String)
  deriving DecidableEq, Repr

/-- What is wrong with a template. -/
inductive TemplateFault where
  | empty
  | notJava
  | noBefore
  | noAfter (rule : String)
  deriving DecidableEq, Repr

/-- What is wrong with a predicate. -/
inductive PredicateFault where
  | malformed (text : String)
  | unbound (predicate name : String)
  deriving DecidableEq, Repr

/-- What a checked rule must never lead to. -/
inductive InvariantFault where
  | noRoot
  | unbound (name : String)
  | overlap (first second : Span)
  | insideCharacter
  | invalidOutput (rule : String)
  | invalidImports (rule : String)
  | earlyExit
  deriving DecidableEq, Repr

/-- What can go wrong with a text, a template or a rule. -/
inductive Problem where
  /-- The text is not Java. -/
  | notJava (source : String)
  | metavariable (fault : MetavariableFault)
  | template (source : String) (fault : TemplateFault)
  /-- A declared metavariable that no before-template has. -/
  | unusedMetavariable (name : String)
  /-- A metavariable of the after-template that some before-template does not bind. -/
  | unboundMetavariable (name : String)
  | typeConstraint (name text : String)
  | predicate (fault : PredicateFault)
  | importSpec (text : String)
  /-- A recipe that still changes the text in the last allowed cycle. -/
  | divergence (cycles : Nat) (lastChange : String)
  | invariant (fault : InvariantFault)
  deriving DecidableEq, Repr

/-! ## Wording -/

/-- The wording of a fault of metavariables. -/
def MetavariableFault.message : MetavariableFault → String
  | dollars offset count =>
    s!"metavariable at offset {offset} has invalid '$' prefix length ({count})"
  | nameless offset => s!"metavariable at offset {offset} has no valid name"
  | mixed name => s!"${name} is used both as a single and as a multiple metavariable"
  | badName text => s!"`{text}` is not a valid metavariable name"
  | declaredTwice name => s!"${name} is declared more than once"

/-- The wording of a fault of a template. -/
def TemplateFault.message : TemplateFault → String
  | empty => "template is empty"
  | notJava => "not valid Java as an expression, statement, statement sequence or member"
  | noBefore => "a rule needs at least one before-template"
  | noAfter rule => s!"rule {rule} has no after-template"

/-- The wording of a fault of a predicate. -/
def PredicateFault.message : PredicateFault → String
  | malformed text =>
    s!"`{text}`: expected same_type($A, $B), literal($A), not_literal($A) or not_type($A, Type)"
  | unbound predicate name =>
    s!"`{predicate}` refers to ${name}, which no before-template binds"

/-- The wording of a broken invariant. -/
def InvariantFault.message : InvariantFault → String
  | noRoot => "after-template has no root"
  | unbound name => s!"after-template metavariable ${name} is unbound"
  | overlap a b =>
    s!"overlapping match sites {a.start}..{a.stop} and {b.start}..{b.stop}"
  | insideCharacter => "match site is not on a UTF-8 boundary"
  | invalidOutput rule => s!"rule {rule} produced invalid Java"
  | invalidImports rule => s!"import fix-up for rule {rule} produced invalid Java"
  | earlyExit => "cycle loop exited early"

namespace Problem

/-- The wording of what is wrong at the first faulty place of a text. -/
def parseMessage (d : Java.Diagnosis) : String :=
  s!"parse error at {d.position.line}:{d.position.column} (offset {d.span.start}): "
    ++ s!"{d.message}: `{d.context}`"

/-- The wording of a problem. -/
def message : Problem → String
  | notJava source => parseMessage (Java.diagnoseFaulty source)
  | metavariable fault => "invalid metavariable syntax: " ++ fault.message
  | template source fault => s!"invalid template `{source}`: " ++ fault.message
  | unusedMetavariable name =>
    s!"metavariable ${name} is declared but unused in the before-template"
  | unboundMetavariable name => s!"after-template references unbound metavariable ${name}"
  | typeConstraint name text => s!"invalid type constraint `{text}` for ${name}"
  | predicate fault => "invalid predicate: " ++ fault.message
  | importSpec text =>
    s!"invalid import `{text}`: expected a qualified name, optionally prefixed by `static`"
  | divergence cycles lastChange =>
    s!"rewrite did not converge after {cycles} cycles; last change:\n{lastChange}"
  | invariant fault => "internal invariant violated: " ++ fault.message

/-! ## Families -/

/-- Problems that stop a whole batch, unless it goes on at any cost. -/
def isFatal : Problem → Bool
  | divergence .. | invariant _ => true
  | _ => false

/-- Problems of a rule, whatever text it is applied to. -/
def isRuleProblem : Problem → Bool
  | metavariable _ | template .. | unusedMetavariable _ | unboundMetavariable _
  | typeConstraint .. | predicate _ | importSpec _ => true
  | _ => false

end Problem

end JavaRefactor

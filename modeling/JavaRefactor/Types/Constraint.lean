import JavaRefactor.Problem
import JavaRefactor.Types.Subtype

/-!
# `Types.Constraint` — which types a metavariable admits

## Contents
- **`Constraint`**: any type, exactly one primitive type, or a reference type and what is below it.
- **`Constraint.parse`**, which reads a constraint written as a Java type.
- **`Constraint.admits`**: a type that is not known is admitted where a reference type is asked for.
-/

namespace JavaRefactor.Types

/-- The types that a metavariable admits. -/
inductive Constraint where
  | any
  | primitive (type : Primitive)
  /-- A reference type, by its erased simple name. -/
  | reference (name : String)
  deriving DecidableEq, Repr, Inhabited

namespace Constraint

/-- Reads a constraint; a type variable and `?` admit any type. -/
def parse? (text : String) : Option Constraint :=
  let cs := Text.trimEnd (Text.trimStart text.toList)
  if cs == ['?'] then some .any
  else match Erased.ofChars? cs with
    | none => none
    | some e =>
      if !isQualified e.base then none
      else match e.primitive? with
        | some p => some (.primitive p)
        | none => if e.isVariable then some .any else some (.reference e.name)

/-- Reads the constraint of a named metavariable. -/
def parse (name text : String) : Except Problem Constraint :=
  match parse? text with
  | some c => .ok c
  | none => .error (.typeConstraint name text)

/-- How the constraint is written. -/
def text : Constraint → String
  | any => "any"
  | primitive p => p.keyword
  | reference name => name

/-- Whether an expression of the given type, known or not, is admitted. -/
def admits : Constraint → Option JavaType → Bool
  | any, _ => true
  | primitive p, actual => actual == some (.primitive p)
  | reference _, none => true
  | reference _, some .null => true
  | reference expected, some (.primitive p) => (isSubtype p.boxed expected).getD false
  | reference expected, some (.reference name) => (isSubtype name expected).getD true

end Constraint

end JavaRefactor.Types

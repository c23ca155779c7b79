import JavaRefactor.Match.Binding
import JavaRefactor.Types.Constraint
import JavaRefactor.Types.Oracle

/-!
# `Rule.Predicate` — conditions on what metavariables are bound to

## Contents
- **`Predicate`** with `names` and `text`.
- **`Predicate.parse`**.
- **`Predicate.holds`**.
-/

namespace JavaRefactor

open Syntax (Node Category)
open JavaRefactor.Types (Constraint JavaType Oracle)
open Text (trimStart trimEnd stripFront splitOn)

/-- A condition that a match has to meet. -/
inductive Predicate where
  /-- Both are bound to nodes of one known type. -/
  | sameType (left right : String)
  | literal (name : String)
  | notLiteral (name : String)
  /-- Bound to a node of a known type that is not the given one; `null` counts as any reference. -/
  | notType (name : String) (excluded : Constraint)
  deriving DecidableEq, Repr, Inhabited

namespace Predicate

/-- The metavariables that the predicate is about. -/
def names : Predicate → List String
  | sameType left right => [left, right]
  | literal name | notLiteral name | notType name _ => [name]

/-- How the predicate is written. -/
def text : Predicate → String
  | sameType left right => s!"same_type(${left}, ${right})"
  | literal name => s!"literal(${name})"
  | notLiteral name => s!"not_literal(${name})"
  | notType name excluded => s!"not_type(${name}, {excluded.text})"

/-! ## Reading -/

/-- The name behind a dollar. -/
def variableName? (cs : List Char) : Option String :=
  (stripFront ['$'] (trimEnd (trimStart cs))).map String.ofList

/-- Splits a text at the first occurrence of a character. -/
def splitOnce (sep : Char) (cs : List Char) : Option (List Char × List Char) :=
  match cs.dropWhile (· != sep) with
  | [] => none
  | _ :: rest => some (cs.takeWhile (· != sep), rest)

/-- The variables between commas; none if one of them lacks its dollar. -/
def variables? (cs : List Char) : Option (List String) := (splitOn ',' cs).mapM variableName?

/-- The function name and the arguments of a predicate. -/
def splitCall (text : String) : Option (String × List Char) :=
  match splitOnce '(' (trimEnd (trimStart text.toList)) with
  | none => none
  | some (function, rest) =>
    (Text.stripBack [')'] rest).map fun inner =>
      (String.ofList (trimEnd (trimStart function)), inner)

/-- Reads the excluded type of a predicate. -/
def parseNotType (text : String) (inner : List Char) : Except Problem Predicate :=
  let malformed := Except.error (.predicate (.malformed text))
  match splitOnce ',' inner with
  | none => malformed
  | some (first, second) =>
    match variableName? first with
    | none => malformed
    | some name =>
      match Constraint.parse name (String.ofList second) with
      | .error p => .error p
      | .ok .any => malformed
      | .ok excluded => .ok (.notType name excluded)

/-- Reads a predicate. -/
def parse (text : String) : Except Problem Predicate :=
  let malformed := Except.error (.predicate (.malformed text))
  match splitCall text with
  | none => malformed
  | some (function, inner) =>
    if function == "not_type" then parseNotType text inner
    else match function, variables? inner with
      | "same_type", some [left, right] => .ok (.sameType left right)
      | "literal", some [name] => .ok (.literal name)
      | "not_literal", some [name] => .ok (.notLiteral name)
      | _, _ => malformed

/-! ## Meaning -/

/-- Whether a node is a literal. -/
def isLiteral (n : Node) : Bool :=
  match n.category with
  | .literal _ => true
  | _ => false

/-- Whether a known type is not the excluded one. -/
def differs : JavaType → Constraint → Bool
  | .null, .reference _ => false
  | .primitive p, .primitive q => p != q
  | .reference name, .reference other => name != other
  | _, _ => true

/-- The known type of what a name is bound to. -/
def typeOf (o : Oracle) (b : Binding) (name : String) : Option JavaType :=
  (b.node? name).bind o.typeOf

/-- Whether a binding meets the condition. -/
def holds (o : Oracle) (b : Binding) : Predicate → Bool
  | sameType left right =>
    match typeOf o b left, typeOf o b right with
    | some l, some r => l == r
    | _, _ => false
  | literal name => (b.node? name).any isLiteral
  | notLiteral name => (b.node? name).any (!isLiteral ·)
  | notType name excluded => (typeOf o b name).any (differs · excluded)

end Predicate

end JavaRefactor

import JavaRefactor.Proofs.Types.Spelling

/-!
# `Proofs.Types.Static` — the static types of Java expressions

The types that the language gives to expressions made of literals, names of variables, parentheses, casts to
primitive types and operators. Numbers are promoted to the type of the wider operand and to `int` at least, but for
a choice with `?`, which keeps `byte`, `short` and `char` where both branches fit into them.

A rule asks for the types of the parts as far as the type of the whole depends on them.

## Contents
- **`StaticType`**, with `converts?`, the primitive type that a type is or is unboxed to.
- **Promotion.** `promoted?` and `commonType?`.
- **Operators.** `unaryResult?`, `binaryResult?`, `choiceType`.
- **`staticType?`**, by recursion on an expression.
-/

namespace JavaRefactor.Types

open Syntax (Node Literal Category)

/-- The static types of expressions that are made of primitive values, strings and `null`. -/
inductive StaticType where
  | primitive (type : Primitive)
  /-- The class that wraps a primitive type. -/
  | boxed (type : Primitive)
  | string
  /-- The type of `null`. -/
  | null
  /-- Any other reference type. -/
  | other
  deriving DecidableEq, Repr

/-! ## Promotion -/

namespace Primitive

/-- Whether this is narrower than `int`. -/
def isNarrow : Primitive → Bool
  | byte | short | char => true
  | _ => false

/-- The whole numbers that a narrow type holds. -/
def holds : Primitive → Int → Bool
  | byte, n => -128 ≤ n && n ≤ 127
  | short, n => -32768 ≤ n && n ≤ 32767
  | char, n => 0 ≤ n && n ≤ 65535
  | _, _ => false

/-- The type of a number that an operator with one operand is applied to. -/
def promoted? : Primitive → Option Primitive
  | boolean => none
  | byte | short | char | int => some int
  | long => some long
  | float => some float
  | double => some double

/-- The type in which two numbers are computed with. -/
def commonType? (a b : Primitive) : Option Primitive :=
  if a = boolean || b = boolean then none
  else if a = double || b = double then some double
  else if a = float || b = float then some float
  else if a = long || b = long then some long
  else some int

end Primitive

namespace StaticType

/-- The primitive type that values are converted to by operators. -/
def converts? : StaticType → Option Primitive
  | primitive p | boxed p => some p
  | _ => none

/-- The reference type that a value becomes where references are asked for. -/
def wrapped : StaticType → StaticType
  | primitive p => boxed p
  | t => t

end StaticType

/-! ## Operators -/

open StaticType

/-- The type of a literal. -/
def literalType : Literal → StaticType
  | .int => primitive .int
  | .long => primitive .long
  | .float => primitive .float
  | .double => primitive .double
  | .char => primitive .char
  | .boolean => primitive .boolean
  | .string => string
  | .null => null

/-- The type of the result of an operator with one operand. -/
def unaryResult? (op : String) (operand : StaticType) : Option StaticType :=
  if op == "!" then
    if operand.converts? = some .boolean then some (primitive .boolean) else none
  else (operand.converts?.bind Primitive.promoted?).map primitive

/-- The type in which two operands are computed with. -/
def operandsType? (left right : StaticType) : Option Primitive :=
  match left.converts?, right.converts? with
  | some a, some b => Primitive.commonType? a b
  | _, _ => none

/-- Whether both operands are conditions. -/
def areConditions (left right : StaticType) : Bool :=
  left.converts? = some .boolean && right.converts? = some .boolean

/-- The type of the result of an operator between two operands. -/
def binaryResult? (op : String) (left right : StaticType) : Option StaticType :=
  if ["==", "!="].contains op then some (primitive .boolean)
  else if ["<", ">", "<=", ">="].contains op then
    if (operandsType? left right).isSome then some (primitive .boolean) else none
  else if ["&&", "||"].contains op then
    if areConditions left right then some (primitive .boolean) else none
  else if ["<<", ">>", ">>>"].contains op then
    if (operandsType? left right).isSome then unaryResult? op left else none
  else if op == "+" && (left = string || right = string) then some string
  else if ["&", "|", "^"].contains op && areConditions left right then some (primitive .boolean)
  else if ["+", "-", "*", "/", "%", "&", "|", "^"].contains op then
    (operandsType? left right).map primitive
  else none

/-- The type of a choice between two branches, each with its type and with its value if it is a constant. -/
def choiceType (left : StaticType) (leftValue : Option Int) (right : StaticType) (rightValue : Option Int) :
    StaticType :=
  if left = right then left
  else match left.converts?, right.converts? with
    | some a, some b =>
      if a = b then primitive a
      else match Primitive.commonType? a b with
        | none => other
        | some c =>
          if a = .byte && b = .short || a = .short && b = .byte then primitive .short
          else if right = primitive .int && rightValue.any a.holds then primitive a
          else if left = primitive .int && leftValue.any b.holds then primitive b
          else primitive c
    | _, _ =>
      if left = null then right.wrapped else if right = null then left.wrapped else other

/-! ## Expressions -/

/-- The roles of children. -/
def rolesOf (cs : List Node) : List (Option String) := cs.map Node.field

/-- Whether a node is a name, possibly in parentheses. -/
def isVariableName : Node → Bool
  | .branch l [_, inner, _] => l.kind == .named "parenthesized_expression" && isVariableName inner
  | n => n.isKind "identifier"

/-- The type of a name that is declared with one type, a primitive one or `String`. -/
def nameType? (o : Oracle) (name : String) : Option StaticType :=
  match o.declaredType name with
  | some (.primitive p) => some (primitive p)
  | some t => if t = .string then some string else none
  | none => none

/-- The static type of a literal or a name. -/
def staticTypeOfLeaf? (o : Oracle) (n : Node) : Option StaticType :=
  match n.category with
  | .literal v => some (literalType v)
  | .identifier => nameType? o n.leafText
  | _ => none

/-- The primitive type that a type node writes. -/
def primitiveOf? (n : Node) : Option Primitive := (spelling? n).bind Erased.primitive?

/-- The static type of an expression, where it has one. `value` tells the values of constant expressions of type
`int`. -/
def staticType? (o : Oracle) (value : Node → Option Int) : Node → Option StaticType
  | .leaf l tr x => staticTypeOfLeaf? o (.leaf l tr x)
  | .branch l [a, b] =>
    if l.kind == .named "unary_expression" && rolesOf [a, b] == [some "operator", some "operand"]
        && !a.isNamed && b.isNamed then do
      unaryResult? (← a.text?) (← staticType? o value b)
    else if l.kind == .named "update_expression" && rolesOf [a, b] == [none, none] then
      -- the operator stands in front of the variable or behind it
      if isVariableName a && !b.isNamed then staticType? o value a
      else if isVariableName b && !a.isNamed then staticType? o value b
      else none
    else none
  | .branch l [a, b, c] =>
    if l.kind == .named "parenthesized_expression" && !a.isNamed && b.isNamed then staticType? o value b
    else if l.kind == .named "binary_expression"
        && rolesOf [a, b, c] == [some "left", some "operator", some "right"] then do
      binaryResult? (← b.text?) (← staticType? o value a) (← staticType? o value c)
    else if l.kind == .named "instanceof_expression" && rolesOf [a, b, c] == [some "left", none, some "right"] then
      (staticType? o value a).map fun _ => primitive .boolean
    else if l.kind == .named "assignment_expression"
        && rolesOf [a, b, c] == [some "left", some "operator", some "right"] && isVariableName a then
      (staticType? o value c).bind fun _ => staticType? o value a
    else none
  | .branch l [a, b, c, d] =>
    if l.kind == .named "cast_expression" && rolesOf [a, b, c, d] == [none, some "type", none, some "value"] then
      (staticType? o value d).bind fun _ => (primitiveOf? b).map primitive
    else none
  | .branch l [a, b, c, d, e] =>
    if l.kind == .named "ternary_expression"
        && rolesOf [a, b, c, d, e] == [some "condition", none, some "consequence", none, some "alternative"] then
      (staticType? o value a).bind fun condition =>
        if condition.converts? = some .boolean then do
          return choiceType (← staticType? o value c) (value c) (← staticType? o value e) (value e)
        else none
    else none
  | _ => none

/-- A construct with nothing in it has no type. -/
example (o : Oracle) (value : Node → Option Int) (l : Syntax.Label) : staticType? o value (.branch l []) = none := by
  cbv

end JavaRefactor.Types

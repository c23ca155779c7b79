import JavaRefactor.Syntax.Tree
import JavaRefactor.Types.Basic

/-!
# `Types.Oracle` — the types of expressions in one file

What a file shows of its types: the types of literals, casts and created objects, of the names it
declares with one type only, and what operators and a few methods make of them.

## Contents
- **Declarations.** `Oracle`, the declared names; `Oracle.ofTree` collects them in pre-order.
- **Promotion.** `unaryPromotion`, `binaryPromotion`.
- **Inference.** `Oracle.typeOf`, from the leaves up.
- **`Typing`**, any source of types, of which an oracle is one.
-/

namespace JavaRefactor.Types

open Syntax (Node Tree Category Literal)

/-! ## Declarations -/

/-- The type that a type node writes; none for `var` and type variables. -/
def typeOfTypeNode (n : Node) : Option JavaType :=
  match Erased.ofChars? (n.normalized.toList.filter (· != ' ')) with
  | none => none
  | some e =>
    if e.simpleName == "var" || e.isVariable then none
    else match e.primitive? with
      | some p => some (.primitive p)
      | none => some (.reference e.name)

/-- Declared names with their types; a name declared with two types has none. -/
structure Oracle where
  declared : List (String × Option JavaType)
  deriving Repr, Inhabited

namespace Oracle

/-- The oracle that knows no declarations. -/
def empty : Oracle := ⟨[]⟩

/-- Adds a declaration to a list of them. -/
def declare (name : String) (type : JavaType) :
    List (String × Option JavaType) → List (String × Option JavaType)
  | [] => [(name, some type)]
  | (known, t) :: rest =>
    if known == name then (known, if t == some type then t else none) :: rest
    else (known, t) :: declare name type rest

/-- The type of a declared name, where it has one. -/
def declaredType (o : Oracle) (name : String) : Option JavaType :=
  (o.declared.lookup name).getD none

/-- The names that a node declares, with their types. -/
def declarationsOf (n : Node) : List (String × JavaType) :=
  let typed := (n.child? "type").bind typeOfTypeNode
  let named := (n.child? "name").bind Node.text?
  let declarators := n.children.filter (·.isKind "variable_declarator")
  match n.kind with
  | .named "local_variable_declaration" | .named "field_declaration"
  | .named "constant_declaration" =>
    match typed with
    | none => []
    | some t => declarators.filterMap fun d =>
      ((d.child? "name").bind Node.text?).map fun name => (name, t)
  | .named "formal_parameter" | .named "enhanced_for_statement" =>
    match typed, named with
    | some t, some name => [(name, t)]
    | _, _ => []
  | .named "catch_formal_parameter" =>
    let caught := (n.children.find? (·.isKind "catch_type")).bind (·.namedChildren.head?)
    match caught.bind typeOfTypeNode, named with
    | some t, some name => [(name, t)]
    | _, _ => []
  | _ => []

/-- The oracle with the declarations of all nodes of a tree. -/
def ofTree (t : Tree) : Oracle :=
  ⟨(t.root.preorder.flatMap declarationsOf).foldl (fun d (name, type) => declare name type d) []⟩

end Oracle

/-! ## Promotion -/

/-- The primitive type that a type is or wraps. -/
def JavaType.primitive? : JavaType → Option Primitive
  | .primitive p => some p
  | .reference name => Primitive.ofBoxed? name
  | .null => none

/-- The type of a number that a unary operator has been applied to: at least `int`. -/
def promote (p : Primitive) : Option JavaType :=
  match p.rank with
  | none => none
  | some r => some (.primitive (if r ≤ 2 then .int else p))

/-- The type of an operand behind a unary operator. -/
def unaryPromotion (t : JavaType) : Option JavaType := t.primitive?.bind promote

/-- The common type of two operands: the wider one, at least `int`. -/
def binaryPromotion (left right : JavaType) : Option JavaType :=
  match left.primitive?, right.primitive? with
  | some l, some r =>
    match l.rank, r.rank with
    | some a, some b => promote (if b ≤ a then l else r)
    | _, _ => none
  | _, _ => none

/-! ## Inference -/

/-- The type of a literal. -/
def typeOfLiteral : Literal → JavaType
  | .int => .primitive .int
  | .long => .primitive .long
  | .float => .primitive .float
  | .double => .primitive .double
  | .char => .primitive .char
  | .boolean => .primitive .boolean
  | .string => .string
  | .null => .null

/-- The type of an array's elements. -/
def elementType (array : String) : Option JavaType :=
  match Text.stripBack ['[', ']'] array.toList with
  | none => none
  | some cs =>
    let element := String.ofList cs
    match Primitive.ofKeyword? element with
    | some p => some (.primitive p)
    | none => some (.reference element)

/-- The type of an operator's result. -/
def binaryType (operator : String) (left right : Option JavaType) : Option JavaType :=
  if ["==", "!=", "<", ">", "<=", ">=", "&&", "||"].contains operator then some .boolean
  else if operator == "+" && (left == some .string || right == some .string) then some .string
  else if ["<<", ">>", ">>>"].contains operator then left.bind unaryPromotion
  else if ["&", "|", "^"].contains operator && left == some .boolean && right == some .boolean then
    some .boolean
  else match left, right with
    | some l, some r => binaryPromotion l r
    | _, _ => none

/-- The type of a call, told by its name, the number of its arguments and whether it has a receiver. -/
def callType (name : String) (count : Nat) (received : Bool) : Option JavaType :=
  if ["size", "length", "hashCode"].contains name && count == 0 then
    if received then some (.primitive .int) else none
  else if (name == "isEmpty" && count == 0)
      || (["equals", "contains", "startsWith", "endsWith"].contains name && count == 1) then
    if received then some .boolean else none
  else if name == "toString" && count == 0 then some .string
  else none

/-- The inferred type of the first child with a role. -/
def typeAt (role : String) (typed : List (Node × Option JavaType)) : Option JavaType :=
  match typed.find? (·.1.field == some role) with
  | some (_, t) => t
  | none => none

/-- The inferred type of the first child that is a construct. -/
def typeOfFirst (typed : List (Node × Option JavaType)) : Option JavaType :=
  match typed.find? (·.1.isNamed) with
  | some (_, t) => t
  | none => none

/-- The text of the first child with a role, where it is a leaf. -/
def textAt (n : Node) (role : String) : Option String := (n.child? role).bind Node.text?

/-- The type of a branch, from those of its children. -/
def typeOfBranch (n : Node) (typed : List (Node × Option JavaType)) : Option JavaType :=
  match n.category with
  | .parenthesized => typeOfFirst typed
  | .cast | .objectCreation => (n.child? "type").bind typeOfTypeNode
  | .binary =>
    if n.isKind "instanceof_expression" then some .boolean
    else (textAt n "operator").bind fun op =>
      binaryType op (typeAt "left" typed) (typeAt "right" typed)
  | .unary =>
    if n.namedChildren.isEmpty then none
    else if n.isKind "update_expression" then typeOfFirst typed
    else (textAt n "operator").bind fun op =>
      if op == "!" then some .boolean else (typeOfFirst typed).bind unaryPromotion
  | .ternary =>
    match typeAt "consequence" typed, typeAt "alternative" typed with
    | some c, some a => if c == a then some c else binaryPromotion c a
    | _, _ => none
  | .assignment => typeAt "left" typed
  | .methodCall =>
    (textAt n "name").bind fun name =>
      let count := ((n.child? "arguments").map (·.namedChildren.length)).getD 0
      callType name count (n.child? "object").isSome
  | .arrayAccess =>
    match typeAt "array" typed with
    | some (.reference name) => elementType name
    | _ => none
  | _ => none

namespace Oracle

/-- The type of a leaf. -/
def typeOfLeaf (o : Oracle) (n : Node) : Option JavaType :=
  match n.category with
  | .literal v => some (typeOfLiteral v)
  | .identifier => o.declaredType n.leafText
  | _ => none

mutual

/-- The type of an expression, where the file shows it. -/
def typeOf (o : Oracle) : Node → Option JavaType
  | .leaf l tr t => o.typeOfLeaf (.leaf l tr t)
  | .branch l cs => typeOfBranch (.branch l cs) (o.typesOf cs)

/-- Several nodes, each with its type. -/
def typesOf (o : Oracle) : List Node → List (Node × Option JavaType)
  | [] => []
  | n :: ns => (n, o.typeOf n) :: o.typesOf ns

end

end Oracle

/-! ## Sources of types -/

/-- What is known of the types of expressions, wherever it comes from. -/
structure Typing where
  typeOf : Node → Option JavaType
  deriving Inhabited

namespace Typing

/-- What an oracle knows. -/
def ofOracle (o : Oracle) : Typing := ⟨o.typeOf⟩

/-- What is known without any declaration. -/
def empty : Typing := ofOracle .empty

/-- What a file shows. -/
def ofTree (t : Tree) : Typing := ofOracle (.ofTree t)

end Typing

end JavaRefactor.Types

/-!
# `Syntax.Kind` — kinds and categories of syntax nodes

A node is either *named* (a construct of the grammar such as `method_invocation`) or a *token* (a
keyword, an operator or a piece of punctuation, whose kind is its own text). Categories group the
named kinds that rules reason about.

## Contents
- **`Kind`**, with its `name` and `isNamed`.
- **`Literal`** and **`Category`**, with `Category.ofKind` and `Category.isCompoundExpression`.
-/

namespace JavaRefactor.Syntax

/-- What a node is: a construct of the grammar, or a token spelled as given. -/
inductive Kind where
  | named (name : String)
  | token (text : String)
  deriving DecidableEq, Repr, Inhabited

namespace Kind

/-- The construct's name, or the token's text. -/
def name : Kind → String
  | named n => n
  | token t => t

/-- Whether this is a construct of the grammar. -/
def isNamed : Kind → Bool
  | named _ => true
  | token _ => false

end Kind

/-- The kinds of literals. -/
inductive Literal where
  | int
  | long
  | float
  | double
  | char
  | string
  | boolean
  | null
  deriving DecidableEq, Repr, Inhabited

/-- The group of constructs a node belongs to. -/
inductive Category where
  | compilationUnit
  | packageDeclaration
  | importDeclaration
  | methodCall
  | fieldAccess
  | objectCreation
  | binary
  | unary
  | cast
  | parenthesized
  | ternary
  | lambda
  | assignment
  | arrayAccess
  | literal (value : Literal)
  | identifier
  | typeIdentifier
  | scopedIdentifier
  | typeReference
  | block
  | expressionStatement
  | conditional
  | throwing
  | returning
  | localVariable
  | token
  | other
  deriving DecidableEq, Repr, Inhabited

namespace Category

/-- The kinds of integer literals. -/
def integerKinds : List String :=
  ["decimal_integer_literal", "hex_integer_literal", "octal_integer_literal",
    "binary_integer_literal"]

/-- The kinds of literals with a fraction or an exponent. -/
def floatingKinds : List String :=
  ["decimal_floating_point_literal", "hex_floating_point_literal"]

/-- Whether the text ends with one of the two characters. -/
def endsWithAny (text : String) (a b : Char) : Bool :=
  match text.toList.getLast? with
  | some c => c == a || c == b
  | none => false

/-- The category of a construct; the text tells `1L` from `1` and `1f` from `1.0`. -/
def ofConstruct (name text : String) : Category :=
  if integerKinds.contains name then
    .literal (if endsWithAny text 'l' 'L' then .long else .int)
  else if floatingKinds.contains name then
    .literal (if endsWithAny text 'f' 'F' then .float else .double)
  else match name with
    | "program" => .compilationUnit
    | "package_declaration" => .packageDeclaration
    | "import_declaration" => .importDeclaration
    | "method_invocation" => .methodCall
    | "field_access" => .fieldAccess
    | "object_creation_expression" => .objectCreation
    | "binary_expression" | "instanceof_expression" => .binary
    | "unary_expression" | "update_expression" => .unary
    | "cast_expression" => .cast
    | "parenthesized_expression" => .parenthesized
    | "ternary_expression" => .ternary
    | "lambda_expression" => .lambda
    | "assignment_expression" => .assignment
    | "array_access" => .arrayAccess
    | "character_literal" => .literal .char
    | "string_literal" => .literal .string
    | "true" | "false" => .literal .boolean
    | "null_literal" => .literal .null
    | "identifier" => .identifier
    | "type_identifier" => .typeIdentifier
    | "scoped_identifier" => .scopedIdentifier
    | "integral_type" | "floating_point_type" | "boolean_type" | "void_type" | "generic_type"
    | "array_type" | "scoped_type_identifier" => .typeReference
    | "block" => .block
    | "expression_statement" => .expressionStatement
    | "if_statement" => .conditional
    | "throw_statement" => .throwing
    | "return_statement" => .returning
    | "local_variable_declaration" => .localVariable
    | _ => .other

/-- The category of a node with the given kind and text. -/
def ofKind : Kind → String → Category
  | .token _, _ => .token
  | .named name, text => ofConstruct name text

/-- Expressions that bind looser than a method call does, so that a receiver needs parentheses. -/
def isCompoundExpression : Category → Bool
  | binary | unary | cast | ternary | lambda | assignment => true
  | _ => false

end Category

end JavaRefactor.Syntax

import JavaRefactor.Java.Production

/-!
# `Java.Grammar.Symbol` — the symbols of the Java grammar

Words are keywords only where the grammar gives them a meaning; everywhere else they are names. So a
symbol that may start with a name carries the *place* it stands at, which tells the words that are no
names there.

## Contents
- **`Place`**, with `reservedNames`, `reservedTypeNames` and `reservedQualifiers`.
- **`Symbol`**, the symbols, and `Phrase`, productions over them.
- **Leaves.** `nameAt`, `typeNameAt`, `anyName`, `memberName`, `declaredName`.
-/

namespace JavaRefactor.Java.Grammar

/-- Where a name may stand. -/
inductive Place where
  /-- At the start of a statement. -/
  | statement
  /-- At the start of a member of a class. -/
  | member
  /-- At the start of a parameter. -/
  | parameter
  /-- Where an operand of an expression starts. -/
  | operand
  /-- Where an operand starts that is added to what stands in front of it or taken from it. -/
  | summand
  /-- Behind an opening parenthesis in an expression. -/
  | parens
  /-- Behind an opening parenthesis, as the type of a cast. -/
  | castType
  /-- Where a type stands that can be nothing else. -/
  | typeUse
  /-- Where a value is tested for a type or a record. -/
  | test
  deriving DecidableEq, Repr, Inhabited

/-- The words for primitive types and for no type. -/
def primitiveWords : List String :=
  ["byte", "short", "int", "long", "char", "float", "double", "boolean", "void"]

/-- Words with a meaning at some places that are names at all of them. -/
def softWords : List String := ["open", "module", "record", "with", "sealed", "yield"]

/-- The words an operand may start with. -/
def operandWords : List String :=
  ["true", "false", "null", "this", "super", "new", "switch"] ++ primitiveWords

/-- The modifiers that are no names where modifiers may stand. -/
def modifierWords : List String :=
  ["public", "protected", "private", "abstract", "static", "final", "strictfp", "default",
    "synchronized", "native", "transient", "volatile"]

/-- The words that start a declaration of a type. -/
def typeWords : List String := ["class", "interface", "enum"]

/-- The words that start a statement. -/
def statementWords : List String :=
  ["assert", "break", "continue", "do", "for", "if", "return", "throw", "try", "while", "import",
    "package"]

namespace Place

/-- The words that are no names in an expression at this place. -/
def reservedNames : Place → List String
  | statement => operandWords ++ modifierWords ++ typeWords ++ statementWords
  | member => primitiveWords ++ modifierWords ++ typeWords
  | parameter => primitiveWords ++ modifierWords
  | operand | summand => operandWords
  | parens | castType => operandWords ++ modifierWords
  | typeUse | test => primitiveWords

/-- The words that are no names of types at this place. -/
def reservedTypeNames : Place → List String
  | statement => statement.reservedNames ++ softWords
  | member => member.reservedNames ++ ["sealed", "record"]
  | parameter => parameter.reservedNames ++ ["sealed"]
  | operand | summand => operand.reservedNames ++ softWords
  | parens | castType => parens.reservedNames ++ softWords
  | typeUse => primitiveWords
  | test => primitiveWords ++ softWords

/-- The words that do not qualify the name of a type at this place, since they go on with an expression. -/
def reservedQualifiers : Place → List String
  | member | parameter | typeUse => []
  | castType => ["class"]
  | _ => ["new", "super", "this", "class"]

/-- The place of an operand that belongs to an operand at this place. -/
def inner : Place → Place
  | summand => summand
  | _ => operand

end Place

/-- The symbols of the grammar. -/
inductive Symbol where
  /-- An expression whose operators bind at least as strongly as `level`; without `arrow`, it stands in
  the label of a branch, which ends with `->`. -/
  | expression (place : Place) (arrow : Bool) (level : Nat)
  | operand (place : Place) (arrow : Bool)
  | unary (place : Place) (arrow : Bool)
  /-- What tells behind a sign that a name in parentheses in front of the sign is the type of a cast. -/
  | castSign
  | primary (place : Place)
  | parenthesized
  | creation
  | arguments
  | stringLiteral
  | arrayInitializer
  | switchExpression
  | switchLabel
  | recordPattern
  | simpleType (place : Place)
  | plainType (place : Place)
  | anyType (place : Place)
  | typeArguments
  | dimensions
  | annotationUse
  | elementValue
  | modifiers
  | block
  /-- A statement, the first of several or a later one. -/
  | statement (first : Bool)
  | localVariable
  | declarator
  | formalParameters
  | typeParameters
  | typeDeclaration
  | method
  | classBody
  | classMember
  | interfaceBody
  | annotationBody
  | enumBody
  | qualifiedName
  | topLevel (first : Bool)
  | program
  deriving DecidableEq, Repr, Inhabited

/-- A production of the grammar. -/
abbrev Phrase := Production Symbol

open Production

/-- A name in an expression. -/
def nameAt (place : Place) : Phrase := .name "identifier" place.reservedNames

/-- The name of a type. -/
def typeNameAt (place : Place) : Phrase := .name "type_identifier" place.reservedTypeNames

/-- A name where no word has a meaning. -/
def anyName : Phrase := .name "identifier" []

/-- A name behind a point. -/
def memberName : Phrase := .name "identifier" ["new", "super", "this", "class"]

/-- The name that a declaration introduces, which may be left out as `_`. -/
def declaredName : Phrase := word "underscore_pattern" "_" <|> anyName

/-- A whole expression. -/
def expr : Phrase := .ref (.expression .operand true 0)

/-- A node with a role. -/
def role (name : String) (p : Phrase) : Phrase := .field name p

/-- The word for what a class inherits. -/
def superWord : Phrase := word "super" "super"

/-- The word for the current object. -/
def thisWord : Phrase := word "this" "this"

end JavaRefactor.Java.Grammar

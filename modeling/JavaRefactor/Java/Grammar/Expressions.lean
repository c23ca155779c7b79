import JavaRefactor.Java.Grammar.Types

/-!
# `Java.Grammar.Expressions` — expressions

Operators bind by levels, higher ones more strongly. An assignment or a lambda expression takes all
that follows it, also as the right operand of an operator.

## Contents
- **Operators.** `binaryOperators` with their levels, and `expression`, an operand that grows by
  operators of at least some level.
- **Operands.** `lambda`, `cast`, `unary`, `operand`.
- **Primaries.** `primary`, which grows by calls, accesses and references.
- **Switches and patterns.** `switchExpression`, `switchLabel`, `recordPattern`.
-/

namespace JavaRefactor.Java.Grammar

open Production

/-! ## Operators -/

/-- The level of a choice with `?` and `:`. -/
def ternaryLevel : Nat := 3
/-- The level of comparisons of order and of `instanceof`. -/
def relationLevel : Nat := 10
/-- The level of sums and differences. -/
def sumLevel : Nat := 12
/-- The level of products. -/
def productLevel : Nat := 13
/-- The level of unary operators. -/
def unaryLevel : Nat := 15

/-- The binary operators that do not start with `>`, with their levels. -/
def binaryOperators : List (String × Nat) :=
  [("<", 10), ("<=", 10), ("==", 9), ("!=", 9), ("&&", 5), ("||", 4), ("+", 12), ("-", 12),
    ("*", 13), ("/", 13), ("&", 8), ("|", 6), ("^", 7), ("%", 13), ("<<", 11)]

/-- The binary operators made of lexemes `>` and `=`, with their levels. -/
def angleOperators : List (List String × Nat) :=
  [([">", ">", ">"], 11), ([">", ">"], 11), ([">", "="], 10), ([">"], 10)]

/-- Lexemes with no trivia between them. -/
def adjacent : List String → Phrase
  | [] => .nothing
  | [s] => tok s
  | s :: ss => tok s ++ .tight ++ adjacent ss

/-- An operator that starts with `>`, where it does not go on. -/
def angleOperator (parts : List String) : Phrase :=
  let op := .fuse (.token (String.join parts)) (adjacent parts)
  if parts.contains "=" then op
  else op ++ .absent (.tight ++ oneOf [">", "=", "=="])

/-- A binary expression over the held operand. What is added to a sum that starts with a cast counts as an
operand like any other. -/
def binaryStep (place : Place) (arrow : Bool) (op : Phrase) (level : Nat) : Phrase :=
  let right := fun p => role "right" (.ref (.expression p arrow (level + 1)))
  let afterCast := .starting "binary_expression" "cast_expression" .held
  .node "binary_expression"
    (role "left" .held ++ role "operator" op ++
      if level == sumLevel then
        (.ahead afterCast ++ right .operand) <|> (.absent afterCast ++ right .summand)
      else right (if level == productLevel then place else .operand))

/-- The binary expressions over the held operand whose operators have at least some level. -/
def binarySteps (place : Place) (arrow : Bool) (level : Nat) : Phrase :=
  choice
    ((binaryOperators.filter (level ≤ ·.2)).map (fun (s, l) => binaryStep place arrow (tok s) l) ++
      (angleOperators.filter (level ≤ ·.2)).map
        (fun (parts, l) => binaryStep place arrow (angleOperator parts) l))

/-- A test of the held operand's type. -/
def instanceofStep : Phrase :=
  .node "instanceof_expression"
    (role "left" .held ++ tok "instanceof" ++ opt (tok "final") ++
      (role "pattern" (.ref .recordPattern)
        <|> (role "right" (.ref (.anyType .test))
          ++ opt (role "name" (.name "identifier" ["instanceof", "when"])))))

/-- A choice that depends on the held operand. -/
def ternaryStep (arrow : Bool) : Phrase :=
  .node "ternary_expression"
    (role "condition" .held ++ tok "?" ++ role "consequence" expr ++ tok ":"
      ++ role "alternative" (.ref (.expression .operand arrow ternaryLevel)))

/-- An operand that is changed behind its use. -/
def updateStep : Phrase := .node "update_expression" (.held ++ oneOf ["++", "--"])

/-- What an operand may grow by. -/
def operatorSteps (place : Place) (arrow : Bool) (level : Nat) : Phrase :=
  choice
    ((if level ≤ unaryLevel then [updateStep] else []) ++
      (if level ≤ productLevel then [binarySteps place arrow level] else []) ++
      (if level ≤ relationLevel then [instanceofStep] else []) ++
      (if level ≤ ternaryLevel then [ternaryStep arrow] else []))

/-- An operand that grows by operators of at least some level. -/
def expression (place : Place) (arrow : Bool) (level : Nat) : Phrase :=
  grow (.ref (.operand place arrow)) (operatorSteps place.inner arrow level)

/-! ## Operands -/

/-- A list of bare parameters. -/
def inferredParameters : Phrase :=
  .node "inferred_parameters" (tok "(" ++ commas (nameAt .parens) ++ tok ")")

/-- A lambda expression. In the label of a branch of a switch the last `->` belongs to the branch, so there a
lambda expression ends in front of what goes on with the label. -/
def lambda (place : Place) (arrow : Bool) : Phrase :=
  let parameters :=
    role "parameters" (nameAt place <|> inferredParameters <|> .ref .formalParameters) ++ tok "->"
  if arrow then .node "lambda_expression" (parameters ++ role "body" (.ref .block <|> expr))
  else
    .node "lambda_expression"
        (parameters ++ role "body" (.ref (.expression .operand false 0)))
      ++ .ahead (oneOf ["->", ":", ",", "when"]) ++ .absent (tok "->" ++ .ref .block ++ tok ";")

/-- The operators with one operand that may also stand between two. -/
def signs : Phrase := oneOf ["+", "-"]

/-- A name in parentheses. -/
def nameInParens : Phrase := tok "(" ++ nameAt .parens ++ tok ")"

/-- A name with qualifiers, read to see what follows it. -/
def dottedName (place : Place) : Phrase := nameAt place ++ .many (tok "." ++ anyName)

/-- Behind the sign stands a name with qualifiers in parentheses and another sign, or an operand of a product;
operators and casts may come in between. -/
def castSign : Phrase :=
  (tok "(" ++ nameAt .parens ++ many1 (tok "." ++ anyName) ++ tok ")" ++ signs)
    <|> (oneOf ["+", "-", "!", "~", "++", "--"] ++ .ref .castSign)
    <|> (tok "(" ++ .ref (.anyType .castType) ++ tok ")" ++ .ref .castSign)
    <|> (grow (.ref .switchExpression <|> .ref (.primary .operand)) updateStep ++ oneOf ["*", "/", "%"])

/-- Reads nothing, and holds where a name in parentheses that a sign follows is the type of a cast: one with
qualifiers always, one without them if the sign is read as that of a cast, but neither of them as part of
a summand. -/
def castAhead (place : Place) : Phrase :=
  let changed := .name "identifier" ["instanceof"] <|> .number <|> oneOf ["(", "!", "~"]
  .absent (nameInParens ++ oneOf ["++", "--"] ++ .absent changed) ++
    if place == .summand then .absent (tok "(" ++ dottedName .parens ++ tok ")" ++ signs)
    else .absent (nameInParens ++ signs) <|> .ahead (nameInParens ++ signs ++ .ref .castSign)

/-- A test of what stands in front of it, or of that behind a change. -/
def testBehind : Phrase := opt (oneOf ["++", "--"]) ++ tok "instanceof" ++ (anyName <|> tok "@")

/-- The operators that assign, without those that start with `>`. -/
def assignmentOperators : List String :=
  ["=", "+=", "-=", "*=", "/=", "&=", "|=", "^=", "%=", "<<="]

/-- An operator that assigns. -/
def assignmentOperator : Phrase :=
  oneOf assignmentOperators
    <|> angleOperator [">", ">", ">", "="] <|> angleOperator [">", ">", "="]

/-- An assignment to the held operand. -/
def assignmentStep : Phrase :=
  .node "assignment_expression"
    (role "left" (.only ["identifier", "field_access", "array_access"] .held)
      ++ role "operator" assignmentOperator ++ role "right" expr)

/-- A cast. A value that no operator starts ends the cast: `++` behind it applies to the cast as a whole. -/
def cast (place : Place) (arrow : Bool) : Phrase :=
  let type := role "type" (.ref (.anyType .castType))
  castAhead place ++
    (.node "cast_expression"
        (tok "(" ++ type ++ tok ")" ++ .absent testBehind
          ++ role "value"
            (grow (.ref .switchExpression <|> .ref (.unary place arrow)) updateStep
              <|> lambda .operand arrow <|> grow (.ref (.primary .operand)) assignmentStep))
      <|> .node "cast_expression"
        (tok "(" ++ type ++ many1 (tok "&" ++ role "type" typeUse) ++ tok ")" ++ .absent testBehind
          ++ role "value" (lambda .operand arrow <|> .ref (.primary .operand))))

/-- An operand that an operator or a cast starts. -/
def unary (place : Place) (arrow : Bool) : Phrase :=
  let operand := .ref (.expression place arrow (unaryLevel + 1))
  .node "unary_expression" (role "operator" (oneOf ["+", "-", "!", "~"]) ++ role "operand" operand)
    <|> .node "update_expression" (oneOf ["++", "--"] ++ operand)
    <|> cast place arrow

/-- An expression that is no operator's result. -/
def operand (place : Place) (arrow : Bool) : Phrase :=
  lambda place arrow <|> .ref .switchExpression <|> .ref (.unary place.inner arrow)
    <|> grow (.ref (.primary place)) assignmentStep

/-! ## Primaries -/

/-- A string literal, with embedded expressions or without. -/
def stringLiteral : Phrase :=
  .formed .string "string_literal"
    <|> .fuse (.named "string_literal")
      (.formed .stringOpening "string_literal" ++ expr
        ++ .many (.formed .stringMiddle "string_literal" ++ expr)
        ++ .formed .stringClosing "string_literal")

/-- A literal. -/
def literal : Phrase :=
  .number <|> .ref .stringLiteral <|> .formed .character "character_literal"
    <|> word "true" "true" <|> word "false" "false" <|> word "null_literal" "null"

/-- Arguments in parentheses. -/
def arguments : Phrase :=
  .node "argument_list" (tok "(" ++ opt (commas expr) ++ tok ")")

/-- A parenthesized expression. -/
def parenthesized : Phrase :=
  .node "parenthesized_expression"
    (tok "(" ++ .ref (.expression .parens true 0) ++ tok ")")

/-- The creation of an object, from `new` on. -/
def creation : Phrase :=
  tok "new" ++ .many (.ref .annotationUse)
    ++ opt (role "type_arguments" (.ref .typeArguments) ++ .many (.ref .annotationUse))
    ++ role "type" (.ref (.simpleType .typeUse)) ++ role "arguments" (.ref .arguments)
    ++ opt (.ref .classBody)

/-- The creation of an array. -/
def arrayCreation : Phrase :=
  .node "array_creation_expression"
    (tok "new" ++ .many (.ref .annotationUse) ++ role "type" (.ref (.simpleType .typeUse)) ++
      ((many1 (role "dimensions"
            (.node "dimensions_expr" (.many (.ref .annotationUse) ++ tok "[" ++ expr ++ tok "]")))
          ++ opt (role "dimensions" (.ref .dimensions)))
        <|> (role "dimensions" (.ref .dimensions) ++ role "value" (.ref .arrayInitializer))))

/-- The values of an array, in braces. -/
def arrayInitializer : Phrase :=
  .node "array_initializer"
    (openBrace ++ opt (commas (.ref .arrayInitializer <|> expr)) ++ opt (tok ",") ++ closeBrace)

/-- What a reference to a method ends with. -/
def referenceTail : Phrase := tok "::" ++ opt (.ref .typeArguments) ++ (tok "new" <|> anyName)

/-- The class object of a type. -/
def classLiteral (place : Place) : Phrase :=
  .node "class_literal" (.ref (.plainType place) ++ tok "." ++ tok "class")

/-- A reference to a method of a type that is no mere name. -/
def typeReference (place : Place) : Phrase :=
  .absent (dottedName place ++ tok "::")
    ++ .node "method_reference" (.ref (.anyType place) ++ referenceTail)

/-- A member of the superclass. -/
def superAccess : Phrase :=
  .node "method_invocation"
      (role "object" superWord ++ tok "." ++ opt (superWord ++ tok ".")
        ++ opt (role "type_arguments" (.ref .typeArguments)) ++ role "name" memberName
        ++ role "arguments" (.ref .arguments))
    <|> .node "field_access"
      (role "object" superWord ++ opt (tok "." ++ superWord) ++ tok "."
        ++ role "field" (memberName <|> thisWord))
    <|> .node "method_reference" (superWord ++ referenceTail)

/-- What a primary grows by. -/
def primarySteps : Phrase :=
  .node "method_invocation"
      (role "object" .held ++ tok "." ++ opt (superWord ++ tok ".")
        ++ opt (role "type_arguments" (.ref .typeArguments)) ++ role "name" memberName
        ++ role "arguments" (.ref .arguments))
    <|> .node "field_access"
      (role "object" .held ++ opt (tok "." ++ superWord) ++ tok "."
        ++ role "field" (memberName <|> thisWord))
    <|> .node "array_access"
      (role "array" .held ++ tok "[" ++ role "index" expr ++ tok "]")
    <|> .node "method_reference" (.held ++ referenceTail)
    <|> .node "object_creation_expression" (.held ++ tok "." ++ .ref .creation)
    <|> .node "template_expression"
      (role "template_processor" .held ++ tok "." ++ role "template_argument" (.ref .stringLiteral))

/-- An operand that no operator applies to from inside. -/
def primary (place : Place) : Phrase :=
  grow
    (literal
      -- what starts with a type comes before a mere name, which starts it too
      <|> classLiteral place
      <|> typeReference place
      <|> superAccess
      <|> thisWord
      <|> .node "method_invocation"
        (role "name" (nameAt place) ++ role "arguments" (.ref .arguments))
      <|> nameAt place
      <|> .ref .parenthesized
      <|> .node "object_creation_expression" (.ref .creation)
      <|> arrayCreation)
    primarySteps

/-! ## Switches and patterns -/

/-- A pattern for a component of a record. -/
def recordComponent : Phrase :=
  .node "record_pattern_component"
    ((word "underscore_pattern" "_" ++ .ahead (oneOf [",", ")"]))
      <|> (.ref (.plainType .test) ++ anyName))

/-- A pattern for a record with its components. -/
def recordPattern : Phrase :=
  .node "record_pattern"
    ((.only ["generic_type"] (.ref (.simpleType .test)) <|> nameAt .test) ++
      .node "record_pattern_body"
        (tok "(" ++ opt (commas (.ref .recordPattern <|> recordComponent)) ++ tok ")"))

/-- A pattern that tests a type. -/
def typePattern : Phrase :=
  .node "type_pattern"
    (.ref (.plainType .operand) ++ .name "identifier" ["when", "instanceof"])

/-- What a `case` lists: a pattern, or expressions. What reads as both is a pattern only where no guard
follows it. -/
def caseLabel : Phrase :=
  let pattern := .node "pattern" (typePattern <|> .ref .recordPattern)
  (pattern ++ .ahead (oneOf [":", "->"]))
    <|> (commas (.ref (.expression .operand false 0)) ++ .ahead (oneOf [":", "->", "when"]))
    <|> pattern

/-- The label of a branch of a switch. -/
def switchLabel : Phrase :=
  .node "switch_label"
    ((tok "case" ++ caseLabel
        ++ opt (.node "guard" (tok "when" ++ .ref (.expression .operand false 0))))
      <|> tok "default")

/-- A branch with `->`. -/
def switchRule : Phrase :=
  .node "switch_rule"
    (.ref .switchLabel ++ tok "->" ++
      (.ref .block
        <|> .node "throw_statement" (tok "throw" ++ expr ++ tok ";")
        <|> (.absent (tok "throw") ++ .node "expression_statement" (expr ++ tok ";"))))

/-- A label with the statements behind it. A statement in it does not start with the word `case`. -/
def switchGroup : Phrase :=
  let noLabel := .absent (tok "case")
  .node "switch_block_statement_group"
    (.ref .switchLabel ++ tok ":" ++
      opt (noLabel ++ .ref (.statement true) ++ .many (noLabel ++ .ref (.statement false))))

/-- A switch, as a statement or as an expression. -/
def switchExpression : Phrase :=
  .node "switch_expression"
    (tok "switch" ++ role "condition" (.ref .parenthesized) ++
      role "body"
        (.node "switch_block"
          (openBrace ++ ((.many switchGroup ++ closeBrace) <|> (.many switchRule ++ closeBrace)))))

end JavaRefactor.Java.Grammar

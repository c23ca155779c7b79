import JavaRefactor.Java.Grammar.Declarations

/-!
# `Java.Grammar` — the grammar of Java as a table

## Contents
- **`Grammar.table`**, the production of each symbol.
-/

namespace JavaRefactor.Java.Grammar

/-- The production that a symbol names. -/
def table : Symbol → Phrase
  | .expression place arrow level => expression place arrow level
  | .operand place arrow => operand place arrow
  | .unary place arrow => unary place arrow
  | .castSign => castSign
  | .primary place => primary place
  | .parenthesized => parenthesized
  | .creation => creation
  | .arguments => arguments
  | .stringLiteral => stringLiteral
  | .arrayInitializer => arrayInitializer
  | .switchExpression => switchExpression
  | .switchLabel => switchLabel
  | .recordPattern => recordPattern
  | .simpleType place => simpleType place
  | .plainType place => plainType place
  | .anyType place => anyType place
  | .typeArguments => typeArguments
  | .dimensions => dimensions
  | .annotationUse => annotationUse
  | .elementValue => elementValue
  | .modifiers => modifiers
  | .block => block
  | .statement first => statement first
  | .localVariable => localVariable
  | .declarator => declarator
  | .formalParameters => formalParameters
  | .typeParameters => typeParameters
  | .typeDeclaration => typeDeclaration
  | .method => method
  | .classBody => classBody
  | .classMember => classMember
  | .interfaceBody => interfaceBody
  | .annotationBody => annotationBody
  | .enumBody => enumBody
  | .qualifiedName => qualifiedName
  | .topLevel first => topLevel first
  | .program => program

end JavaRefactor.Java.Grammar

import JavaRefactor.Java.Grammar.Expressions

/-!
# `Java.Grammar.Statements` — statements

## Contents
- **Variables.** `declarator`, `localVariable`.
- **Statements.** One production per statement, and `statement`.
-/

namespace JavaRefactor.Java.Grammar

open Production

/-! ## Variables -/

/-- A declared variable with its first value. -/
def declarator : Phrase :=
  .node "variable_declarator"
    (declaratorName ++ opt (tok "=" ++ role "value" (.ref .arrayInitializer <|> expr)))

/-- Variables between commas. -/
def declarators : Phrase := commas (role "declarator" (.ref .declarator))

/-- A type behind modifiers or without. No variable is called `instanceof` where a test can stand. -/
def modified (behind without : Phrase) : Phrase :=
  .absent (nameAt .statement ++ tok "instanceof") ++ ((.ref .modifiers ++ behind) <|> without)

/-- The declaration of local variables. -/
def localVariable : Phrase :=
  .node "local_variable_declaration"
    (modified (role "type" (.ref (.plainType .member))) (role "type" (.ref (.plainType .statement)))
      ++ declarators ++ tok ";")

/-! ## Statements -/

/-- Statements, of which there may be none. -/
def statements : Phrase := opt (.ref (.statement true) ++ .many (.ref (.statement false)))

/-- Statements in braces. -/
def block : Phrase := .node "block" (openBrace ++ statements ++ closeBrace)

/-- An expression as a statement. -/
def expressionStatement : Phrase :=
  .node "expression_statement" (.ref (.expression .statement true 0) ++ tok ";")

/-- A condition in parentheses. -/
def condition : Phrase := role "condition" (.ref .parenthesized)

/-- A loop that tests last. -/
def doStatement (inner : Phrase) : Phrase :=
  .node "do_statement" (tok "do" ++ role "body" inner ++ tok "while" ++ condition ++ tok ";")

/-- A loop over the elements of a collection. -/
def enhancedForStatement (inner : Phrase) : Phrase :=
  .node "enhanced_for_statement"
    (tok "for" ++ tok "(" ++
      modified (role "type" (.ref (.plainType .member))) (role "type" (.ref (.plainType .parens)))
      ++ declaratorName ++ tok ":" ++ role "value" expr ++ tok ")" ++ role "body" inner)

/-- A loop with a counter. -/
def forStatement (inner : Phrase) : Phrase :=
  .node "for_statement"
    (tok "for" ++ tok "(" ++
      -- the declaration has its own semicolon
      (role "init" (.ref .localVariable)
        <|> (opt (commas (role "init" (.ref (.expression .parens true 0)))) ++ tok ";"))
      ++ opt (role "condition" expr) ++ tok ";" ++ opt (commas (role "update" expr)) ++ tok ")"
      ++ role "body" inner)

/-- A statement around another one. -/
def compoundStatement (inner : Phrase) : Phrase :=
  .node "labeled_statement"
      (.name "identifier" Place.statement.reservedTypeNames ++ tok ":" ++ inner)
    <|> .node "if_statement"
      (tok "if" ++ condition ++ role "consequence" inner
        ++ ((tok "else" ++ role "alternative" inner) <|> .absent (tok "else")))
    <|> .node "while_statement" (tok "while" ++ condition ++ role "body" inner)
    <|> enhancedForStatement inner <|> forStatement inner <|> doStatement inner

/-- An assertion. -/
def assertStatement : Phrase :=
  .node "assert_statement" (tok "assert" ++ expr ++ opt (tok ":" ++ expr) ++ tok ";")

/-- The statements that leave a loop or a method. -/
def jumpStatement : Phrase :=
  .node "return_statement" (tok "return" ++ opt expr ++ tok ";")
    <|> .node "throw_statement" (tok "throw" ++ expr ++ tok ";")
    <|> .node "break_statement" (tok "break" ++ opt anyName ++ tok ";")
    <|> .node "continue_statement" (tok "continue" ++ opt anyName ++ tok ";")

/-- A statement that starts with `yield`. The word is a name where nothing follows the statement and where
a name in parentheses follows the word, if that makes an expression. -/
def yieldStatement : Phrase :=
  (.ahead (tok "yield") ++ expressionStatement ++ .finish)
    <|> (.ahead (tok "yield" ++ tok "(" ++ nameAt .parens ++ oneOf [")", "&"])
      ++ expressionStatement)
    <|> .node "yield_statement" (tok "yield" ++ expr ++ tok ";")

/-- Operators that can only go on with an expression, never start one. -/
def infixOperators : List String :=
  ["instanceof", "?", "*", "/", "%", "&", "|", "^", "==", "!=", "&&", "||", "<", "<=", "<<", ">"]

/-- A statement that starts with `switch`. It is part of an expression if it is the first of several or the
last of all and an expression can be made of it, and also if only an expression can go on so. -/
def switchStatement (first : Bool) : Phrase :=
  .ahead (tok "switch") ++
    ((expressionStatement ++ if first then .nothing else .finish)
      -- in the middle the statement ends with its brace where it can
      <|> (.ref .switchExpression ++ .absent (oneOf infixOperators))
      <|> expressionStatement <|> .ref .switchExpression)

/-- A statement that holds a lock. -/
def synchronizedStatement : Phrase :=
  .node "synchronized_statement"
    (tok "synchronized" ++ .ref .parenthesized ++ role "body" (.ref .block))

/-- The handler of exceptions. -/
def catchClause : Phrase :=
  .node "catch_clause"
    (tok "catch" ++ tok "(" ++
      .node "catch_formal_parameter"
        (opt (.ref .modifiers)
          ++ .node "catch_type"
            (.ref (.plainType .parameter) ++ .many (tok "|" ++ .ref (.plainType .typeUse)))
          ++ declaratorName)
      ++ tok ")" ++ role "body" (.ref .block))

/-- What runs in any case. -/
def finallyClause : Phrase := .node "finally_clause" (tok "finally" ++ .ref .block)

/-- Handlers, and what runs in any case. Behind them `catch` and `finally` are no names. -/
def handlers : Phrase :=
  .many catchClause ++ (finallyClause <|> .absent (oneOf ["catch", "finally"]))

/-- A statement with handlers. -/
def tryStatement : Phrase :=
  .node "try_statement"
    (tok "try" ++ role "body" (.ref .block) ++ .ahead (oneOf ["catch", "finally"]) ++ handlers)

/-- A resource: a variable, or a name of one. -/
def resource : Phrase :=
  .node "resource"
    ((modified (role "type" (.ref (.plainType .member))) (role "type" (.ref (.plainType .parens)))
        ++ declaratorName ++ tok "=" ++ role "value" expr)
      <|> .only ["field_access"] (.ref (.primary .parens))
      <|> .name "identifier" Place.parens.reservedTypeNames)

/-- A statement that closes resources. -/
def tryWithResources : Phrase :=
  .node "try_with_resources_statement"
    (tok "try" ++
      role "resources"
        (.node "resource_specification"
          (tok "(" ++ sepBy ";" resource ++ opt (tok ";") ++ tok ")"))
      ++ role "body" (.ref .block) ++ handlers)

/-- A statement, the first of several or a later one. -/
def statement (first : Bool) : Phrase :=
  tok ";" <|> .ref .block <|> compoundStatement (.ref (.statement first)) <|> assertStatement
    <|> jumpStatement <|> yieldStatement <|> switchStatement first <|> synchronizedStatement
    <|> tryStatement <|> tryWithResources <|> .ref .typeDeclaration <|> .ref .localVariable
    <|> expressionStatement

end JavaRefactor.Java.Grammar

import JavaRefactor.Java.Grammar.Statements

/-!
# `Java.Grammar.Declarations` — declarations

## Contents
- **Members.** `method`, constructors, fields, and the bodies that hold them.
- **Types.** `typeDeclarations`, classes, records, interfaces, annotation types and enumerations.
- **Files.** Packages, imports, modules, `topLevel` and `program`.
-/

namespace JavaRefactor.Java.Grammar

open Production

/-! ## Members -/

/-- The exceptions that a method declares. -/
def throwsClause : Phrase := .node "throws" (tok "throws" ++ commas typeUse)

/-- The type of a method, behind type parameters or at a place without them. -/
def methodType (place : Place) : Phrase :=
  (role "type_parameters" (.ref .typeParameters) ++ .many (.ref .annotationUse)
      ++ role "type" (.ref (.plainType .typeUse)))
    <|> role "type" (.ref (.plainType place))

/-- A method behind what is held, with its type at a place. -/
def methodAt (place : Place) : Phrase :=
  .node "method_declaration"
    (.held ++ methodType place ++ role "name" anyName
      ++ role "parameters" (.ref .formalParameters) ++ opt (role "dimensions" (.ref .dimensions))
      ++ opt throwsClause ++ (role "body" (.ref .block) <|> tok ";"))

/-- A method of a class, with the held modifiers. -/
def methodStep : Phrase := methodAt .member

/-- A method among statements. -/
def method : Phrase :=
  .absent (nameAt .statement ++ tok "instanceof")
    ++ (.hold (.ref .modifiers) methodStep <|> methodAt .statement)

/-- A call of another constructor. -/
def constructorCall : Phrase :=
  .node "explicit_constructor_invocation"
    (((opt (role "type_arguments" (.ref .typeArguments))
          ++ role "constructor" (thisWord <|> superWord))
        <|> (role "object" (.ref (.primary .statement)) ++ tok "."
          ++ opt (role "type_arguments" (.ref .typeArguments)) ++ role "constructor" superWord))
      ++ role "arguments" (.ref .arguments) ++ tok ";")

/-- A constructor, with the held modifiers. -/
def constructorStep : Phrase :=
  .node "constructor_declaration"
    (.held ++ opt (role "type_parameters" (.ref .typeParameters))
      ++ role "name" (nameAt .member) ++ role "parameters" (.ref .formalParameters)
      ++ opt throwsClause
      ++ role "body"
        (.node "constructor_body"
          (openBrace ++ opt constructorCall ++ statements ++ closeBrace)))

/-- The constructor of a record without parameters of its own, with the held modifiers. -/
def compactConstructorStep : Phrase :=
  .node "compact_constructor_declaration"
    (.held ++ role "name" (nameAt .member) ++ role "body" (.ref .block))

/-- Variables of a class, an interface or an annotation type, with the held modifiers. -/
def fieldStep (kind : String) : Phrase :=
  .node kind (.held ++ role "type" (.ref (.plainType .member)) ++ declarators ++ tok ";")

/-- An element of an annotation type, with the held modifiers. -/
def elementStep : Phrase :=
  .node "annotation_type_element_declaration"
    (.held ++ role "type" (.ref (.plainType .member)) ++ role "name" anyName ++ tok "(" ++ tok ")"
      ++ opt (role "dimensions" (.ref .dimensions))
      ++ opt (tok "default" ++ role "value" (.ref .elementValue)) ++ tok ";")

/-! ## Types -/

/-- The interfaces that a class implements. -/
def superInterfaces : Phrase := .node "super_interfaces" (tok "implements" ++ typeList)

/-- The classes that may extend a class. -/
def permitsClause : Phrase := .node "permits" (tok "permits" ++ typeList)

/-- A class, with the held modifiers. -/
def classStep : Phrase :=
  .node "class_declaration"
    (.held ++ tok "class" ++ role "name" anyName
      ++ opt (role "type_parameters" (.ref .typeParameters))
      ++ opt (role "superclass" (.node "superclass" (tok "extends" ++ typeUse)))
      ++ opt (role "interfaces" superInterfaces) ++ opt (role "permits" permitsClause)
      ++ role "body" (.ref .classBody))

/-- A record, with the held modifiers. -/
def recordStep : Phrase :=
  .node "record_declaration"
    (.held ++ tok "record" ++ role "name" anyName
      ++ opt (role "type_parameters" (.ref .typeParameters))
      ++ role "parameters" (.ref .formalParameters) ++ opt (role "interfaces" superInterfaces)
      ++ role "body" (.ref .classBody))

/-- An interface, with the held modifiers. -/
def interfaceStep : Phrase :=
  .node "interface_declaration"
    (.held ++ tok "interface" ++ role "name" anyName
      ++ opt (role "type_parameters" (.ref .typeParameters))
      ++ opt (.node "extends_interfaces" (tok "extends" ++ typeList))
      ++ opt (role "permits" permitsClause) ++ role "body" (.ref .interfaceBody))

/-- An annotation type, with the held modifiers. -/
def annotationTypeStep : Phrase :=
  .node "annotation_type_declaration"
    (.held ++ tok "@interface" ++ role "name" anyName ++ role "body" (.ref .annotationBody))

/-- An enumeration, with the held modifiers. -/
def enumStep : Phrase :=
  .node "enum_declaration"
    (.held ++ tok "enum" ++ role "name" anyName ++ opt (role "interfaces" superInterfaces)
      ++ role "body" (.ref .enumBody))

/-- A declared type other than a record, with the held modifiers. -/
def typeStep : Phrase := classStep <|> interfaceStep <|> enumStep <|> annotationTypeStep

/-- A member of a class. -/
def classMember : Phrase :=
  tok ";" <|> .ref .block <|> .node "static_initializer" (tok "static" ++ .ref .block)
    <|> .hold (opt (.ref .modifiers))
      (typeStep <|> recordStep <|> methodStep <|> constructorStep <|> compactConstructorStep
        <|> fieldStep "field_declaration")

/-- The members of a class, in braces. -/
def classBody : Phrase := .node "class_body" (openBrace ++ .many (.ref .classMember) ++ closeBrace)

/-- The members of an interface, in braces. -/
def interfaceBody : Phrase :=
  .node "interface_body"
    (openBrace ++
      .many (tok ";" <|> .hold (opt (.ref .modifiers))
        (typeStep <|> recordStep <|> methodStep <|> fieldStep "constant_declaration"))
      ++ closeBrace)

/-- The elements of an annotation type, in braces. -/
def annotationBody : Phrase :=
  .node "annotation_type_body"
    (openBrace ++
      .many (tok ";" <|> .hold (opt (.ref .modifiers))
        (typeStep <|> elementStep <|> fieldStep "constant_declaration"))
      ++ closeBrace)

/-- A value of an enumeration. -/
def enumConstant : Phrase :=
  .node "enum_constant"
    (opt (.ref .modifiers) ++ role "name" (.name "identifier" modifierWords)
      ++ opt (role "arguments" (.ref .arguments)) ++ opt (role "body" (.ref .classBody)))

/-- The values and members of an enumeration, in braces. -/
def enumBody : Phrase :=
  .node "enum_body"
    (openBrace ++ opt (commas enumConstant) ++ opt (tok ",")
      ++ opt (.node "enum_body_declarations" (tok ";" ++ .many (.ref .classMember))) ++ closeBrace)

/-! ## Files -/

/-- The package of a file. -/
def packageDeclaration : Phrase :=
  .node "package_declaration"
    (.many (.ref .annotationUse) ++ tok "package" ++ .ref .qualifiedName ++ tok ";")

/-- An import. -/
def importDeclaration : Phrase :=
  .node "import_declaration"
    (tok "import" ++ opt (tok "static") ++ .ref .qualifiedName
      ++ opt (tok "." ++ .node "asterisk" (tok "*")) ++ tok ";")

/-- A directive about a package of a module. -/
def packageDirective (kind keyword : String) : Phrase :=
  .node kind
    (tok keyword ++ role "package" (.ref .qualifiedName)
      ++ opt (tok "to" ++ commas (role "modules" (.ref .qualifiedName))) ++ tok ";")

/-- A directive of a module. -/
def moduleDirective : Phrase :=
  .node "requires_module_directive"
      (tok "requires"
        ++ .many (role "modifiers" (.node "requires_modifier" (oneOf ["transitive", "static"])))
        ++ role "module" (.ref .qualifiedName) ++ tok ";")
    <|> packageDirective "exports_module_directive" "exports"
    <|> packageDirective "opens_module_directive" "opens"
    <|> .node "uses_module_directive"
      (tok "uses" ++ role "type" (.ref .qualifiedName) ++ tok ";")
    <|> .node "provides_module_directive"
      (tok "provides" ++ role "provided" (.ref .qualifiedName) ++ tok "with" ++ .ref .qualifiedName
        ++ .many (tok "," ++ role "provider" (.ref .qualifiedName)) ++ tok ";")

/-- A module. -/
def moduleDeclaration : Phrase :=
  .node "module_declaration"
    (.many (.ref .annotationUse) ++ opt (tok "open") ++ tok "module"
      ++ role "name" (.ref .qualifiedName)
      ++ role "body" (.node "module_body" (openBrace ++ .many moduleDirective ++ closeBrace)))

/-- A declaration that may stand among statements. -/
def typeDeclaration : Phrase :=
  importDeclaration <|> packageDeclaration <|> moduleDeclaration
    <|> .hold (opt (.ref .modifiers)) (typeStep <|> recordStep)

/-- What may stand at the top of a file: a method, or else a statement. -/
def topLevel (first : Bool) : Phrase := .ref .method <|> .ref (.statement first)

/-- A whole file. -/
def program : Phrase := opt (.ref (.topLevel true) ++ .many (.ref (.topLevel false)))

end JavaRefactor.Java.Grammar

import JavaRefactor.Java.Grammar.Symbol

/-!
# `Java.Grammar.Types` — types, annotations and modifiers

## Contents
- **Types.** `simpleType`, `plainType`, `anyType`, `typeArguments`, `dimensions`.
- **Names.** `qualifiedName`.
- **Annotations.** `annotationUse`, `elementValue`, `modifiers`.
- **Parameters of declarations.** `typeParameters`, `typeList`, `formalParameters`.
-/

namespace JavaRefactor.Java.Grammar

open Production

/-! ## Types -/

/-- The kinds of type names that may be qualified further. -/
def qualifiableKinds : List String := ["type_identifier", "scoped_type_identifier", "generic_type"]

/-- The kinds of type names that may take type arguments. -/
def parametrizableKinds : List String := ["type_identifier", "scoped_type_identifier"]

/-- A primitive type or no type. -/
def primitiveType : Phrase :=
  .node "integral_type" (oneOf ["byte", "short", "int", "long", "char"])
    <|> .node "floating_point_type" (oneOf ["float", "double"])
    <|> word "boolean_type" "boolean"
    <|> word "void_type" "void"

/-- A type that is no array: a primitive type, or a name that grows by qualifiers and arguments. -/
def simpleType (place : Place) : Phrase :=
  primitiveType <|>
    grow (typeNameAt place)
      (.node "generic_type" (.only parametrizableKinds .held ++ .ref .typeArguments)
        <|> .node "scoped_type_identifier"
          (.only qualifiableKinds .held ++ tok "." ++ .many (.ref .annotationUse)
            ++ .name "type_identifier" place.reservedQualifiers))

/-- A type without annotations in front. -/
def plainType (place : Place) : Phrase :=
  grow (.ref (.simpleType place))
    (.node "array_type" (role "element" .held ++ role "dimensions" (.ref .dimensions)))

/-- A type, with annotations or without. -/
def anyType (place : Place) : Phrase :=
  .ref (.plainType place)
    <|> .node "annotated_type" (many1 (.ref .annotationUse) ++ .ref (.plainType place))

/-- A type that can be nothing else. -/
def typeUse : Phrase := .ref (.anyType .typeUse)

/-- A type argument left open, with its bound. -/
def wildcard : Phrase :=
  .node "wildcard"
    (.many (.ref .annotationUse) ++ tok "?" ++
      opt ((tok "extends" ++ typeUse) <|> (superWord ++ typeUse)))

/-- Type arguments in angle brackets, possibly none. -/
def typeArguments : Phrase :=
  .node "type_arguments" (tok "<" ++ opt (commas (wildcard <|> typeUse)) ++ tok ">")

/-- Pairs of empty brackets. -/
def dimensions : Phrase :=
  .node "dimensions" (many1 (.many (.ref .annotationUse) ++ tok "[" ++ tok "]"))

/-- A name with qualifiers. -/
def qualifiedName : Phrase :=
  grow anyName
    (.node "scoped_identifier" (role "scope" .held ++ tok "." ++ role "name" anyName))

/-! ## Annotations -/

/-- The values in braces of an annotation's element. -/
def elementArray : Phrase :=
  .node "element_value_array_initializer"
    (openBrace ++ opt (commas (.ref .elementValue)) ++ opt (tok ",") ++ closeBrace)

/-- The value of an annotation's element. -/
def elementValue : Phrase := .ref .annotationUse <|> elementArray <|> expr

/-- A named element with its value. -/
def elementPair : Phrase :=
  .node "element_value_pair"
    (role "key" (nameAt .operand) ++ tok "=" ++ role "value" (.ref .elementValue))

/-- The elements of an annotation. -/
def annotationArguments : Phrase :=
  .node "annotation_argument_list"
    (tok "(" ++ ((commas elementPair ++ tok ")") <|> (.ref .elementValue ++ tok ")") <|> tok ")"))

/-- An annotation, with elements or without. -/
def annotationUse : Phrase :=
  .node "annotation"
      (tok "@" ++ role "name" (.ref .qualifiedName) ++ role "arguments" annotationArguments)
    <|> .node "marker_annotation" (tok "@" ++ role "name" (.ref .qualifiedName))

/-- The modifiers of a declaration. -/
def modifiers : Phrase :=
  .node "modifiers"
    (many1 (.ref .annotationUse <|> oneOf (modifierWords ++ ["sealed"])
      <|> .fuse (.token "non-sealed")
        (tok "non" ++ .tight ++ tok "-" ++ .tight ++ tok "sealed")))

/-! ## Parameters of declarations -/

/-- The bounds of a type parameter. -/
def typeBound : Phrase :=
  .node "type_bound" (tok "extends" ++ typeUse ++ .many (tok "&" ++ typeUse))

/-- Type parameters in angle brackets. -/
def typeParameters : Phrase :=
  .node "type_parameters"
    (tok "<" ++
      commas (.node "type_parameter"
        (.many (.ref .annotationUse) ++ .name "type_identifier" [] ++ opt typeBound))
      ++ tok ">")

/-- Types between commas. -/
def typeList : Phrase := .node "type_list" (commas typeUse)

/-- A declared name, possibly with brackets behind it. -/
def declaratorName : Phrase :=
  role "name" declaredName ++ opt (role "dimensions" (.ref .dimensions))

/-- The parameter that stands for the current object, behind the given annotations. -/
def receiverParameter (annotations : Phrase) : Phrase :=
  .node "receiver_parameter"
    (annotations ++ .ref (.plainType .parameter)
      ++ opt (.name "identifier" softWords ++ tok "." ++ .many (.name "identifier" ["this"] ++ tok "."))
      ++ thisWord)

/-- A parameter, or the one that takes all arguments left. -/
def parameter : Phrase :=
  .hold (opt (.ref .modifiers))
    (.node "spread_parameter"
        (.held ++ .ref (.plainType .parameter) ++ tok "..." ++ .many (.ref .annotationUse)
          ++ .ref .declarator)
      <|> .node "formal_parameter"
        (.held ++ role "type" (.ref (.plainType .parameter)) ++ declaratorName))

/-- Parameters of which the first may stand for the current object. -/
def receiverFirst (annotations : Phrase) : Phrase :=
  receiverParameter annotations ++ opt (tok "," ++ opt (commas parameter)) ++ tok ")"

/-- The parameters of a method, in parentheses. Behind an annotation, `this` is the name of a parameter
rather than the current object. -/
def formalParameters : Phrase :=
  .node "formal_parameters"
    (tok "(" ++
      (receiverFirst .nothing <|> (opt (commas parameter) ++ tok ")")
        <|> receiverFirst (many1 (.ref .annotationUse))))

end JavaRefactor.Java.Grammar

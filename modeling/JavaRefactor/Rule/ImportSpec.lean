import JavaRefactor.Problem
import JavaRefactor.Types.Basic

/-!
# `Rule.ImportSpec` — imports that a rule may need

## Contents
- **`ImportSpec`**: the qualified name of a type, or of a static member.
- **`ImportSpec.parse`**, which accepts the name alone and an import declaration.
- **Views.** `simpleName`, `qualifier`, `declaration`, `text`.
-/

namespace JavaRefactor

open Text (trimStart trimEnd stripFront)

/-- An import of a type or of a static member, by its qualified name. -/
structure ImportSpec where
  path : String
  isStatic : Bool
  deriving DecidableEq, Repr, Inhabited

namespace ImportSpec

/-- A text without the blanks at its two ends. -/
def trimmed (cs : List Char) : List Char := trimEnd (trimStart cs)

/-- A text without the semicolons at its end. -/
def withoutSemicolons (cs : List Char) : List Char := (cs.reverse.dropWhile (· == ';')).reverse

/-- Whether the characters are at least two names with points between them. -/
def isPath (cs : List Char) : Bool := cs.contains '.' && Types.isQualified cs

/-- Reads an import. -/
def parse? (text : String) : Option ImportSpec :=
  let bare := trimmed (withoutSemicolons (trimmed text.toList))
  let name := match stripFront "import ".toList bare with
    | some rest => trimmed rest
    | none => bare
  match stripFront "static ".toList name with
  | some rest =>
    if isPath (trimmed rest) then some ⟨String.ofList (trimmed rest), true⟩ else none
  | none => if isPath name then some ⟨String.ofList name, false⟩ else none

/-- Reads an import, and tells the text that is none. -/
def parse (text : String) : Except Problem ImportSpec :=
  match parse? text with
  | some spec => .ok spec
  | none => .error (.importSpec text)

/-- The last name of the path. -/
def simpleName (i : ImportSpec) : String := String.ofList (Types.lastSegment i.path.toList)

/-- What precedes the last point of the path. -/
def qualifier (i : ImportSpec) : String :=
  String.ofList ((i.path.toList.reverse.dropWhile (· != '.')).drop 1).reverse

/-- The declaration of the import. -/
def declaration (i : ImportSpec) : String :=
  if i.isStatic then s!"import static {i.path};" else s!"import {i.path};"

/-- How the import is written in a rule. -/
def text (i : ImportSpec) : String := if i.isStatic then s!"static {i.path}" else i.path

end ImportSpec

end JavaRefactor

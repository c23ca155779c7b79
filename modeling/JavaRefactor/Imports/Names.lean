import JavaRefactor.Rule.ImportSpec
import JavaRefactor.Syntax.Tree

/-!
# `Imports.Names` — what a file imports, and the names it uses

## Contents
- **`Declared`**, an import declaration of a file, with `simpleName` and `provides`; `declared` collects
  them.
- **`packageName?`**, the package of a file.
- **`usedNames`**, the simple names used without a qualifier.
-/

namespace JavaRefactor.Imports

open Syntax (Node Tree)
open Text (Span)

/-- An import declaration of a file. -/
structure Declared where
  span : Span
  path : String
  isStatic : Bool
  /-- Whether all members of the path are imported. -/
  onDemand : Bool
  deriving DecidableEq, Repr, Inhabited

namespace Declared

/-- The last name of the path. -/
def simpleName (d : Declared) : String := String.ofList (Types.lastSegment d.path.toList)

/-- Whether the file needs no import of what an import names. -/
def provides (d : Declared) (i : ImportSpec) : Bool :=
  if d.onDemand then d.isStatic == i.isStatic && d.path == i.qualifier
  else d.simpleName == i.simpleName

end Declared

/-- The qualified name in a declaration. -/
def nameIn? (n : Node) : Option String :=
  (n.namedChildren.find? fun c => c.isKind "scoped_identifier" || c.isKind "identifier").map
    fun c => String.ofList (c.normalized.toList.filter (· != ' '))

/-- The import that a node of a file declares. -/
def declaredBy? (n : Node) : Option Declared :=
  if n.isKind "import_declaration" then
    (nameIn? n).map fun path =>
      ⟨n.span, path, n.children.any (·.text? == some "static"), n.children.any (·.isKind "asterisk")⟩
  else none

/-- The imports of a file, in order. -/
def declared (t : Tree) : List Declared := t.root.children.filterMap declaredBy?

/-- The package of a file. -/
def packageName? (t : Tree) : Option String :=
  (t.root.children.find? (·.isKind "package_declaration")).bind nameIn?

/-! ## Used names -/

/-- Whether the node names a member of something else: a call with a receiver, or a field access. -/
def hasQualifier (n : Node) : Bool :=
  (n.isKind "method_invocation" && (n.child? "object").isSome) || n.isKind "field_access"

/-- Whether the node is the member that its parent names. -/
def isMember (n : Node) : Bool := n.field == some "name" || n.field == some "field"

mutual

/-- The simple names used without a qualifier, but for those in import and package declarations. -/
def usedNames : Node → List String
  | .leaf l _ text =>
    if l.kind == .named "identifier" || l.kind == .named "type_identifier" then [text] else []
  | .branch l cs =>
    match l.kind with
    | .named "import_declaration" | .named "package_declaration" | .named "identifier"
    | .named "type_identifier" => []
    | .named "scoped_identifier" | .named "scoped_type_identifier" => usedNamesFirst cs
    | _ => usedNamesAmong (hasQualifier (.branch l cs)) cs

/-- The names used in the first construct of a list: of a qualified name only the front counts. -/
def usedNamesFirst : List Node → List String
  | [] => []
  | n :: ns => if n.isNamed then usedNames n else usedNamesFirst ns

/-- The names used in a list of nodes, without the members if their parent has a qualifier. -/
def usedNamesAmong (qualified : Bool) : List Node → List String
  | [] => []
  | n :: ns =>
    (if qualified && isMember n then [] else usedNames n) ++ usedNamesAmong qualified ns

end

end JavaRefactor.Imports

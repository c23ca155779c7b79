import JavaRefactor.Template.Metavariable
import JavaRefactor.Template.Place

/-!
# `Template.Basic` — compiled templates

A template may be an expression, a statement, several statements or a member of a class. It is read as
Java inside the first of several wrappings that makes it valid.

## Contents
- **`Template`** and its parts: `roots`, `root?`, `constraint`, `metavariableAt?`.
- **`Template.compile`**.
-/

namespace JavaRefactor

open Syntax (Node Tree)
open JavaRefactor.Types (Constraint)
open Text (Span)

/-- A compiled template: its text, its metavariables, what they admit, the tree of the wrapped text,
and the place of the template in it. -/
structure Template where
  source : String
  metavariables : List Metavariable
  declarations : List Declaration
  tree : Tree
  place : Template.Place
  deriving Repr, Inhabited

namespace Template

/-- What is put in front of a template and behind it to read it as Java, in the order tried. -/
def wrappings : List (String × String) :=
  [("", ""),
    ("", ";"),
    ("class __Wrapper__ \x7b\n", "\n\x7d"),
    ("class __Wrapper__ \x7b void __body__() \x7b\n", "\n\x7d \x7d"),
    ("class __Wrapper__ \x7b void __body__() \x7b\n", ";\n\x7d \x7d")]

/-- The root nodes: one, or the siblings of a run. -/
def roots (t : Template) : List Node := t.place.nodes t.tree.root

/-- Whether the template is a run of siblings. -/
def isRun (t : Template) : Bool := t.place.isRun

/-- The root, unless the template is a run of siblings. -/
def root? (t : Template) : Option Node := if t.isRun then none else t.roots.head?

/-- Whether a metavariable of this name occurs in the template. -/
def uses (t : Template) (name : String) : Bool := t.metavariables.any (·.name == name)

/-- What a metavariable admits; of several declarations the last counts. -/
def constraint (t : Template) (name : String) : Constraint :=
  match t.declarations.reverse.find? (·.name == name) with
  | some d => d.constraint
  | none => .any

/-- The leaf that a template node is about: the node itself, or the only construct in an expression
statement. -/
def placeholderLeaf? (n : Node) : Option Node :=
  if n.isKind "expression_statement" then
    match n.namedChildren with
    | [only] => some only
    | _ => none
  else some n

/-- The metavariable that a node of the template stands for. A placeholder that is a statement of its
own stands for a whole statement. -/
def metavariableAt? (t : Template) (n : Node) : Option Metavariable :=
  match placeholderLeaf? n with
  | none => none
  | some leaf =>
    if leaf.isKind "identifier" || leaf.isKind "type_identifier" then
      (Metavariable.nameOfPlaceholder? leaf.leafText).bind fun name =>
        t.metavariables.find? (·.name == name)
    else none

/-- Reads a normalised text inside a wrapping. -/
def readWrapped (text : String) (wrapping : String × String) : Option (Tree × Place) :=
  let start := wrapping.1.utf8ByteSize
  match Java.parse? (wrapping.1 ++ text ++ wrapping.2) with
  | none => none
  | some tree =>
    (placeOf? tree.root ⟨start, start + text.utf8ByteSize⟩).map fun place => (tree, place)

/-- Compiles a template. -/
def compile (source : String) (declarations : List Declaration) : Except Problem Template :=
  let trimmed := Text.trim source
  if trimmed.isEmpty then .error (.template source .empty)
  else match Metavariable.normalise trimmed with
    | .error fault => .error (.metavariable fault)
    | .ok (metavariables, text) =>
      match Metavariable.mixed? metavariables with
      | some m => .error (.metavariable (.mixed m.name))
      | none =>
        match wrappings.findSome? (readWrapped text) with
        | some (tree, place) => .ok ⟨trimmed, metavariables, declarations, tree, place⟩
        | none => .error (.template trimmed .notJava)

end Template

end JavaRefactor

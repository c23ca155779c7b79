import JavaRefactor.Types.Constraint

/-!
# `Template.Metavariable` — metavariables and their placeholders

A template is Java text in which `$NAME` stands for a node and `$$$NAME` for a run of sibling nodes.
Before the text is read as Java, each metavariable is replaced by an identifier, its *placeholder*.

## Contents
- **Names.** `isMetavariableName`, `leadingName`, and `wildcard`, the name that binds nothing.
- **Placeholders.** `placeholder` and its inverse `nameOfPlaceholder?`.
- **Normalisation.** `normalise` finds the metavariables outside string and character literals.
- **Declarations.** `Declaration`, a metavariable's name and constraint.
-/

namespace JavaRefactor

open JavaRefactor.Types (Constraint)
open Text (byteLength)

/-- What a metavariable binds. -/
inductive Shape where
  /-- One node. -/
  | single
  /-- A run of sibling nodes. -/
  | run
  deriving DecidableEq, Repr, Inhabited

/-- An occurrence of a metavariable in a template. -/
structure Metavariable where
  name : String
  shape : Shape
  offset : Nat
  deriving DecidableEq, Repr, Inhabited

namespace Metavariable

/-! ## Names -/

/-- The name of the metavariable that binds nothing. -/
def wildcard : String := "_"

/-- A character that a name may start with. -/
def startsName (c : Char) : Bool := ('A' ≤ c && c ≤ 'Z') || c == '_'

/-- A character that a name may go on with. -/
def continuesName (c : Char) : Bool := ('A' ≤ c && c ≤ 'Z') || c.isDigit || c == '_'

/-- Whether the characters are the name of a metavariable. -/
def isMetavariableName : List Char → Bool
  | [] => false
  | c :: cs => startsName c && cs.all continuesName

/-- The longest name at the front; empty if there is none. -/
def leadingName : List Char → List Char
  | [] => []
  | c :: cs => if startsName c then c :: cs.takeWhile continuesName else []

/-! ## Placeholders -/

/-- What a placeholder starts with. -/
def placeholderFront : String := "__RECAST_MV_"

/-- What a placeholder ends with. -/
def placeholderBack : String := "__"

/-- The identifier that stands for a metavariable. -/
def placeholder (name : String) : String := placeholderFront ++ name ++ placeholderBack

/-- The metavariable that an identifier stands for. -/
def nameOfPlaceholder? (text : String) : Option String :=
  ((Text.stripFront placeholderFront.toList text.toList).bind
    (Text.stripBack placeholderBack.toList)).map String.ofList

/-! ## Normalisation -/

/-- Where a scan of a template stands. -/
inductive ScanState where
  /-- In code. -/
  | code
  /-- In a literal that ends with this quote. -/
  | literal (quote : Char)
  /-- Behind a backslash in such a literal. -/
  | escape (quote : Char)
  /-- In front of as many characters of a metavariable. -/
  | skip (count : Nat)
  deriving DecidableEq, Repr

/-- What a run of dollars and what follows it mean: how many characters of the rest belong to the
metavariable, and its name and shape. -/
def readDollars (offset : Nat) (rest : List Char) :
    Except MetavariableFault (Nat × List Char × Shape) :=
  let more := (rest.takeWhile (· == '$')).length
  let name := leadingName (rest.drop more)
  if more == 0 || more == 2 then
    if name.isEmpty then .error (.nameless offset)
    else .ok (more + name.length, name, if more == 0 then .single else .run)
  else .error (.dollars offset (more + 1))

/-- The metavariables of a text and the text with placeholders in their stead. The text starts at byte
`offset`. -/
def normaliseFrom : ScanState → Nat → List Char →
    Except MetavariableFault (List Metavariable × List Char)
  | _, _, [] => .ok ([], [])
  | .skip (n + 1), offset, c :: cs =>
    normaliseFrom (if n == 0 then .code else .skip n) (offset + c.utf8Size) cs
  | .literal q, offset, c :: cs =>
    let next := if c == '\\' then .escape q else if c == q then .code else .literal q
    (normaliseFrom next (offset + c.utf8Size) cs).map fun (ms, out) => (ms, c :: out)
  | .escape q, offset, c :: cs =>
    (normaliseFrom (.literal q) (offset + c.utf8Size) cs).map fun (ms, out) => (ms, c :: out)
  | _, offset, c :: cs =>
    if c == '$' then
      match readDollars offset cs with
      | .error fault => .error fault
      | .ok (count, name, shape) =>
        (normaliseFrom (.skip count) (offset + c.utf8Size) cs).map fun (ms, out) =>
          (⟨String.ofList name, shape, offset⟩ :: ms,
            (placeholder (String.ofList name)).toList ++ out)
    else
      let next := if c == '"' || c == '\'' then .literal c else .code
      (normaliseFrom next (offset + c.utf8Size) cs).map fun (ms, out) => (ms, c :: out)

/-- The metavariables of a text and the text with placeholders in their stead. -/
def normalise (text : String) : Except MetavariableFault (List Metavariable × String) :=
  (normaliseFrom .code 0 text.toList).map fun (ms, out) => (ms, String.ofList out)

/-- A metavariable that occurs after another of its name with a different shape. -/
def mixed? : List Metavariable → Option Metavariable
  | [] => none
  | m :: ms =>
    match ms.find? (fun m' => m'.name == m.name && m'.shape != m.shape), mixed? ms with
    | some a, some b => if a.offset ≤ b.offset then some a else some b
    | some a, none => some a
    | none, r => r

end Metavariable

/-! ## Declarations -/

/-- A declared metavariable with the types it admits. -/
structure Declaration where
  name : String
  constraint : Constraint
  deriving DecidableEq, Repr, Inhabited

namespace Declaration

/-- Declares a metavariable, whose name may be written with its dollar. -/
def of (name type : String) : Except Problem Declaration :=
  let bare := (Text.stripFront ['$'] name.toList).getD name.toList
  if !Metavariable.isMetavariableName bare || String.ofList bare == Metavariable.wildcard then
    .error (.metavariable (.badName name))
  else
    (Constraint.parse (String.ofList bare) type).map fun c => ⟨String.ofList bare, c⟩

/-- Declares a metavariable that admits any type. -/
def untyped (name : String) : Except Problem Declaration := of name "?"

end Declaration

end JavaRefactor

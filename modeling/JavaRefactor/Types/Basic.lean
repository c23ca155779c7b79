import JavaRefactor.Text.Chars

/-!
# `Types.Basic` — the types that expressions are known by

No class path is at hand, so a reference type is known by its erased simple name only, such as `List`
or `String[]`.

## Contents
- **`Primitive`** with its `keyword`, its wrapper class `boxed` and its `rank` among numbers.
- **`JavaType`**.
- **Erasure.** `Erased`, a type's simple name and its dimensions, read by `Erased.ofChars?`.
-/

namespace JavaRefactor.Types

open Text (isBlank isAlphabetic isAlphanumeric splitOn)

/-- The primitive types. -/
inductive Primitive where
  | boolean
  | byte
  | short
  | char
  | int
  | long
  | float
  | double
  deriving DecidableEq, Repr, Inhabited

namespace Primitive

/-- All primitive types. -/
def all : List Primitive := [boolean, byte, short, char, int, long, float, double]

/-- The word for the type. -/
def keyword : Primitive → String
  | boolean => "boolean"
  | byte => "byte"
  | short => "short"
  | char => "char"
  | int => "int"
  | long => "long"
  | float => "float"
  | double => "double"

/-- The simple name of the wrapper class. -/
def boxed : Primitive → String
  | boolean => "Boolean"
  | byte => "Byte"
  | short => "Short"
  | char => "Character"
  | int => "Integer"
  | long => "Long"
  | float => "Float"
  | double => "Double"

/-- The type a word stands for. -/
def ofKeyword? (word : String) : Option Primitive := all.find? (·.keyword == word)

/-- The type a wrapper class wraps. -/
def ofBoxed? (name : String) : Option Primitive := all.find? (·.boxed == name)

/-- The place among the numeric types, wider ones higher. -/
def rank : Primitive → Option Nat
  | boolean => none
  | byte => some 0
  | short | char => some 1
  | int => some 2
  | long => some 3
  | float => some 4
  | double => some 5

end Primitive

/-- What is known of an expression's type. -/
inductive JavaType where
  | primitive (type : Primitive)
  /-- A class, an interface or an array, by its erased simple name. -/
  | reference (name : String)
  /-- The type of `null`. -/
  | null
  deriving DecidableEq, Repr, Inhabited

namespace JavaType

/-- The type of strings. -/
def string : JavaType := reference "String"

/-- The type of conditions. -/
def boolean : JavaType := primitive .boolean

/-- How the type is written. -/
def text : JavaType → String
  | primitive p => p.keyword
  | reference name => name
  | null => "null"

end JavaType

/-! ## Erasure -/

/-- A letter, `_` or `$`. -/
def startsSegment (c : Char) : Bool := isAlphabetic c || c == '_' || c == '$'

/-- A letter, a digit, `_` or `$`. -/
def continuesSegment (c : Char) : Bool := isAlphanumeric c || c == '_' || c == '$'

/-- Whether the characters are a name. -/
def isSegment : List Char → Bool
  | [] => false
  | c :: cs => startsSegment c && cs.all continuesSegment

/-- Whether the characters are names with points between them. -/
def isQualified (cs : List Char) : Bool := (splitOn '.' cs).all isSegment

/-- A capital letter, possibly with digits behind it. -/
def isTypeVariable : List Char → Bool
  | [] => false
  | c :: cs => ('A' ≤ c && c ≤ 'Z') && cs.all Char.isDigit

/-- What stands outside all angle brackets, less its blanks; none if the brackets do not match. The
first argument counts the open brackets. -/
def outsideBrackets : Nat → List Char → Option (List Char)
  | 0, [] => some []
  | _ + 1, [] => none
  | depth, c :: cs =>
    if c == '<' then outsideBrackets (depth + 1) cs
    else if c == '>' then
      match depth with
      | 0 => none
      | d + 1 => outsideBrackets d cs
    else if depth == 0 && !isBlank c then (outsideBrackets depth cs).map (c :: ·)
    else outsideBrackets depth cs

/-- Takes pairs of brackets off the front of a reversed text. -/
def stripPairs : List Char → List Char × Nat
  | ']' :: '[' :: cs =>
    let (base, n) := stripPairs cs
    (base, n + 1)
  | cs => (cs, 0)

/-- The characters behind the last point. -/
def lastSegment (cs : List Char) : List Char := (cs.reverse.takeWhile (· != '.')).reverse

/-- A type without its type arguments: a possibly qualified name and the number of dimensions. -/
structure Erased where
  base : List Char
  dimensions : Nat
  deriving DecidableEq, Repr

namespace Erased

/-- The erasure of a type; none if its brackets do not match. -/
def ofChars? (cs : List Char) : Option Erased :=
  match outsideBrackets 0 cs with
  | none => none
  | some out =>
    let (base, n) := stripPairs out.reverse
    if base.any (fun c => c == '[' || c == ']') then none else some ⟨base.reverse, n⟩

/-- The name without qualifiers. -/
def simple (e : Erased) : List Char := lastSegment e.base

/-- The name without qualifiers, as a text. -/
def simpleName (e : Erased) : String := String.ofList e.simple

/-- The simple name with its dimensions. -/
def name (e : Erased) : String :=
  String.ofList (e.simple ++ (List.replicate e.dimensions ['[', ']']).flatten)

/-- The primitive type that this is. -/
def primitive? (e : Erased) : Option Primitive :=
  if e.dimensions == 0 then Primitive.ofKeyword? e.simpleName else none

/-- Whether this is a type variable. -/
def isVariable (e : Erased) : Bool := e.dimensions == 0 && isTypeVariable e.simple

end Erased

end JavaRefactor.Types

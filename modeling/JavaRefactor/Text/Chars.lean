import JavaRefactor.Text.Ranges

/-!
# `Text.Chars` — classes of characters

The classes that the lexical rules of templates, names and Java texts are written with, and trimming.

## Contents
- **Classes.** `isBlank` (White_Space), `isAlphabetic`, `isAlphanumeric`, `isNameStart` and
  `isNamePart` (the characters of a Java name).
- **Trimming.** `trimStart`, `trimEnd`, `trim` on lists of characters and on strings.
-/

namespace JavaRefactor.Text

/-- Whether a code point lies in one of the ranges. -/
def inRanges (ranges : List (Nat × Nat)) (n : Nat) : Bool :=
  ranges.any fun r => Nat.ble r.1 n && Nat.ble n r.2

/-- The Unicode property White_Space. -/
def isBlank (c : Char) : Bool :=
  let n := c.toNat
  (9 ≤ n && n ≤ 13) || n == 32 || n == 0x85 || n == 0xA0 || n == 0x1680 ||
    (0x2000 ≤ n && n ≤ 0x200A) || n == 0x2028 || n == 0x2029 || n == 0x202F || n == 0x205F ||
    n == 0x3000

/-- The Unicode property Alphabetic. -/
def isAlphabetic (c : Char) : Bool :=
  if c.toNat < 128 then c.isAlpha else inRanges Ranges.alphabetic c.toNat

/-- Alphabetic, or a number of any kind. -/
def isAlphanumeric (c : Char) : Bool :=
  if c.toNat < 128 then c.isAlphanum
  else inRanges Ranges.alphabetic c.toNat || inRanges Ranges.numeric c.toNat

/-- A character that a Java name may start with. -/
def isNameStart (c : Char) : Bool :=
  if c.toNat < 128 then c.isAlpha || c == '_' || c == '$' else inRanges Ranges.nameStart c.toNat

/-- A character that a Java name may go on with. -/
def isNamePart (c : Char) : Bool :=
  if c.toNat < 128 then c.isAlphanum || c == '_' || c == '$'
  else c.toNat == 0xA2 || inRanges Ranges.namePart c.toNat

/-! ## Trimming -/

/-- Drops the blanks at the front. -/
def trimStart (cs : List Char) : List Char :=
  cs.dropWhile isBlank

/-- Drops the blanks at the back. -/
def trimEnd (cs : List Char) : List Char :=
  (cs.reverse.dropWhile isBlank).reverse

/-- The text without the blanks at its two ends. -/
def trim (s : String) : String :=
  String.ofList (trimEnd (trimStart s.toList))

/-- Whether the text has no character but blanks. -/
def isAllBlank (s : String) : Bool :=
  s.toList.all isBlank

/-! ## Pieces of a text -/

/-- What follows `front`, where the text starts with it. -/
def stripFront (front : List Char) (cs : List Char) : Option (List Char) :=
  if front.isPrefixOf cs then some (cs.drop front.length) else none

/-- What precedes `back`, where the text ends with it. -/
def stripBack (back : List Char) (cs : List Char) : Option (List Char) :=
  if back.isSuffixOf cs then some (cs.take (cs.length - back.length)) else none

/-- The pieces between the occurrences of a separator; there is always at least one. -/
def splitOn (sep : Char) : List Char → List (List Char)
  | [] => [[]]
  | c :: cs =>
    if c == sep then [] :: splitOn sep cs
    else match splitOn sep cs with
      | piece :: pieces => (c :: piece) :: pieces
      | [] => [[c]]

/-- The texts one after the other, with a separator between any two. -/
def joinWith (sep : String) (texts : List String) : String :=
  String.intercalate sep texts

end JavaRefactor.Text

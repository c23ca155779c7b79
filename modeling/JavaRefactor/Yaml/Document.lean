import JavaRefactor.Yaml.Node

/-!
# `Yaml.Document` — one value as a YAML text

A line `---` may stand in front of the value and a line `...` behind it.

## Contents
- **Lines.** `normalBreaks`, `isMarker`, `isVoid`.
- **`Document`**, the text of the value without the marker lines, found by `Document.find?`.
- **`read?`**, the value of a text.
-/

namespace JavaRefactor.Yaml

/-! ## Lines -/

/-- The text with each line break written as a line feed. -/
def normalBreaks : List Char → List Char
  | [] => []
  | '\r' :: '\n' :: cs => '\n' :: normalBreaks cs
  | c :: cs => (if c == '\r' then '\n' else c) :: normalBreaks cs

/-- Whether a line starts with a marker. -/
def isMarker (marker : String) (line : List Char) : Bool :=
  match Text.stripFront marker.toList line with
  | some rest => endsToken rest
  | none => false

/-- Whether a line has nothing but blanks and a comment. -/
def isVoid (line : List Char) : Bool :=
  match line.dropWhile fun c => c == ' ' || c == '\t' with
  | [] => true
  | c :: _ => c == '#'

/-- The text of one value. -/
structure Document where
  text : List Char
  /-- Whether the first line is that of the marker, behind which no block may start. -/
  marked : Bool
  deriving Repr

/-- The lines up to a marker, and whether nothing of another value follows them. -/
def bodyOf (first : List Char) (lines : List (List Char)) : List Char × Bool :=
  let isEnd := fun line => isMarker "---" line || isMarker "..." line
  let body := first :: lines.takeWhile (!isEnd ·)
  match lines.dropWhile (!isEnd ·) with
  | [] => (List.intercalate ['\n'] body, true)
  | stop :: more =>
    (body.flatMap (· ++ ['\n']), isMarker "..." stop && more.all fun line => isVoid line)

/-- The text of the only value of a text. -/
def Document.find? (text : String) : Option Document :=
  let chars := normalBreaks text.toList
  let chars := (Text.stripFront ['\ufeff'] chars).getD chars
  let lines := Text.splitOn '\n' chars
  let isFront := fun line => isVoid line || line.head? == some '%'
  let (first, more, marked) := match lines.dropWhile (isFront ·) with
    | line :: more =>
      if isMarker "---" line then (line.drop 3, more, true) else (line, more, false)
    | [] => ([], [], false)
  match bodyOf first more with
  | (body, true) => some ⟨body, marked⟩
  | (_, false) => none

/-- The value of a text, where it has only one. -/
def read? (text : String) : Option Value :=
  match Document.find? text with
  | none => none
  | some d =>
    let fuel := 4 * (d.text.length + 4)
    match blockValue 0 0 false fuel ⟨d.text, if d.marked then 3 else 0, !d.marked, []⟩ with
    | none => none
    | some (v, c) =>
      match c.gap? false with
      | some last => if last.rest.isEmpty then some v else none
      | none => none

end JavaRefactor.Yaml

import JavaRefactor.Text.Chars
import JavaRefactor.Toml.Scalar

/-!
# `Toml.Document` — what a TOML text defines

## Contents
- **Definitions.** `Definitions`, what has been defined so far; `define?`, `openTable?`, `openTables?`,
  which refuse what contradicts it.
- **Values.** `value?`, with arrays and tables in one line.
- **`read?`**, the values of the names at the top of a text.
-/

namespace JavaRefactor.Toml

/-! ## Definitions -/

/-- What has been defined, by the names that lead to it. -/
abbrev Definitions := List (List String × Definition)

/-- Whether a value stands at a place or on the way to it. -/
def blocked (ds : Definitions) (place : List String) : Bool :=
  ds.any fun (p, d) =>
    match d with
    | .value _ => p.isPrefixOf place
    | _ => false

/-- The places of the names in front of the points of a key, in the table at a place. -/
def stems (inside key : List String) : List (List String) :=
  (List.range (key.length - 1)).map fun n => inside ++ key.take (n + 1)

/-- Defines a value under a key in the table at a place, where nothing is yet. A key with points does not
lead through a table that has a header. -/
def define? (ds : Definitions) (inside key : List String) (v : Value) : Option Definitions :=
  let place := inside ++ key
  let isHeader := fun p => ds.any fun (q, d) => q == p && d != .stem
  if blocked ds place || ds.any (place.isPrefixOf ·.1) || (stems inside key).any isHeader then none
  else some (ds ++ (stems inside key).map (·, .stem) ++ [(place, .value v)])

/-- Defines a table, where none has been defined. -/
def openTable? (ds : Definitions) (place : List String) : Option Definitions :=
  if blocked ds place || ds.any (·.1 == place) then none else some (ds ++ [(place, .table)])

/-- Defines a further table of an array, in which nothing is yet. -/
def openTables? (ds : Definitions) (place : List String) : Option Definitions :=
  match ds.lookup place with
  | some .tables =>
    -- what the tables before it hold is out of reach now
    some (ds.filter fun (p, _) => !(place.isPrefixOf p && p != place))
  | some _ => none
  | none =>
    if blocked ds place || ds.any (place.isPrefixOf ·.1) then none else some (ds ++ [(place, .tables)])

/-! ## Values -/

/-- Skips a comment. -/
def skipComment? (cs : List Char) : Option (List Char) :=
  match cs with
  | '#' :: rest =>
    let comment := rest.takeWhile (· != '\n')
    if comment.any isControl then none else some (rest.drop comment.length)
  | _ => some cs

/-- Skips blanks, line breaks and comments. -/
def skipLines : Nat → List Char → Option (List Char)
  | 0, cs => some cs
  | fuel + 1, cs =>
    match skipComment? (skipBlanks cs) with
    | none => none
    | some ('\n' :: rest) => skipLines fuel rest
    | some rest => some rest

mutual

/-- Reads the value that starts here. -/
def value? : Nat → List Char → Option (Value × List Char)
  | 0, _ => none
  | fuel + 1, cs =>
    match cs with
    | '"' :: _ | '\'' :: _ => (string? cs).map fun (text, rest) => (.text text, rest)
    | '[' :: rest => (items? fuel rest).map fun last => (.array, last)
    | '{' :: rest =>
      match skipBlanks rest with
      | '}' :: last => some (.table, last)
      | first => (entries? fuel [] first).map fun last => (.table, last)
    | _ => word? cs
termination_by structural fuel => fuel

/-- Reads the items of an array up to its bracket. -/
def items? : Nat → List Char → Option (List Char)
  | 0, _ => none
  | fuel + 1, cs =>
    match skipLines cs.length cs with
    | none => none
    | some (']' :: last) => some last
    | some first =>
      match value? fuel first with
      | none => none
      | some (_, behind) =>
        match skipLines behind.length behind with
        | some (',' :: more) => items? fuel more
        | some (']' :: last) => some last
        | _ => none
termination_by structural fuel => fuel

/-- Reads the entries of a table in one line up to its brace. -/
def entries? : Nat → Definitions → List Char → Option (List Char)
  | 0, _, _ => none
  | fuel + 1, ds, cs =>
    match key? cs with
    | some (place, '=' :: rest) =>
      match value? fuel (skipBlanks rest) with
      | none => none
      | some (v, behind) =>
        match define? ds [] place v, skipBlanks behind with
        | some more, ',' :: next => entries? fuel more next
        | some _, '}' :: last => some last
        | _, _ => none
    | _ => none
termination_by structural fuel => fuel

end

/-! ## Documents -/

/-- Where the definitions of a text go: what has been defined, and the table that is open. -/
structure Reading where
  defined : Definitions
  inside : List String
  deriving Repr

/-- Reads the header of a table, behind its first bracket. -/
def header? (r : Reading) (cs : List Char) : Option (Reading × List Char) :=
  match cs with
  | '[' :: rest =>
    match key? rest with
    | some (place, ']' :: ']' :: last) =>
      (openTables? r.defined place).map fun ds => (⟨ds, place⟩, last)
    | _ => none
  | _ =>
    match key? cs with
    | some (place, ']' :: last) => (openTable? r.defined place).map fun ds => (⟨ds, place⟩, last)
    | _ => none

/-- Reads a definition. -/
def entry? (r : Reading) (cs : List Char) : Option (Reading × List Char) :=
  match key? cs with
  | some (place, '=' :: rest) =>
    match value? (2 * rest.length + 2) (skipBlanks rest) with
    | none => none
    | some (v, last) => (define? r.defined r.inside place v).map fun ds => (⟨ds, r.inside⟩, last)
  | _ => none

/-- Reads lines up to the end of the text. -/
def lines? : Nat → Reading → List Char → Option Definitions
  | 0, _, _ => none
  | fuel + 1, r, cs =>
    match skipLines cs.length cs with
    | none => none
    | some [] => some r.defined
    | some (c :: rest) =>
      match if c == '[' then header? r rest else entry? r (c :: rest) with
      | none => none
      | some (next, behind) =>
        match skipComment? (skipBlanks behind) with
        | some [] => some next.defined
        | some ('\n' :: more) => lines? fuel next more
        | _ => none

/-- The text with each line break written as a line feed. -/
def unixBreaks : List Char → List Char
  | [] => []
  | '\r' :: '\n' :: cs => '\n' :: unixBreaks cs
  | c :: cs => c :: unixBreaks cs

/-- What is at a place: its value, or a table if names lead on from it. -/
def Definitions.at? (ds : Definitions) (name : String) : Option Value :=
  match ds.find? fun (p, _) => p.head? == some name with
  | some ([_], .value v) => some v
  | some ([_], .tables) => some .array
  | some _ => some .table
  | none => none

/-- What a text defines. -/
def read? (text : String) : Option Definitions :=
  let cs := unixBreaks text.toList
  let cs := (Text.stripFront ['\ufeff'] cs).getD cs
  lines? (cs.length + 1) ⟨[], []⟩ cs

end JavaRefactor.Toml

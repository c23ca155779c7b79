/-!
# `CommandLine.Json` — objects for programs

## Contents
- **`Json`** and its texts: `Json.quoted`, and `Json.pretty`, with two blanks for each level.
-/

namespace JavaRefactor.CommandLine

/-- A value as programs read it. The entries of an object keep their order. -/
inductive Json where
  | text (value : String)
  | count (value : Nat)
  | boolean (value : Bool)
  | items (values : List Json)
  | entries (values : List (String × Json))
  deriving Repr, Inhabited

namespace Json

/-- A small hexadecimal digit. -/
def hexDigit (n : Nat) : Char :=
  if n < 10 then Char.ofNat ('0'.toNat + n) else Char.ofNat ('a'.toNat + n - 10)

/-- A character inside quotes. -/
def escaped (c : Char) : List Char :=
  match c with
  | '"' => ['\\', '"']
  | '\\' => ['\\', '\\']
  | '\x08' => ['\\', 'b']
  | '\x0c' => ['\\', 'f']
  | '\n' => ['\\', 'n']
  | '\r' => ['\\', 'r']
  | '\t' => ['\\', 't']
  | _ =>
    if c.toNat < 32 then ['\\', 'u', '0', '0', hexDigit (c.toNat / 16), hexDigit (c.toNat % 16)]
    else [c]

/-- A text in quotes. -/
def quoted (text : String) : String := "\"" ++ String.ofList (text.toList.flatMap escaped) ++ "\""

/-- A line break and the blanks of a level. -/
def newline (level : Nat) : String := "\n" ++ String.ofList (List.replicate (2 * level) ' ')

/-- Texts between two marks, each on a line of its own. -/
def enclosed (level : Nat) (opening closing : String) (texts : List String) : String :=
  if texts.isEmpty then opening ++ closing
  else opening ++ newline (level + 1) ++ ("," ++ newline (level + 1)).intercalate texts ++
    newline level ++ closing

mutual

/-- The text of a value on a level. -/
def pretty (level : Nat) : Json → String
  | text value => quoted value
  | count value => toString value
  | boolean value => if value then "true" else "false"
  | items values => enclosed level "[" "]" (prettyItems (level + 1) values)
  | entries values => enclosed level "\x7b" "\x7d" (prettyEntries (level + 1) values)

/-- The texts of items. -/
def prettyItems (level : Nat) : List Json → List String
  | [] => []
  | v :: vs => pretty level v :: prettyItems level vs

/-- The texts of entries. -/
def prettyEntries (level : Nat) : List (String × Json) → List String
  | [] => []
  | (key, v) :: vs => (quoted key ++ ": " ++ pretty level v) :: prettyEntries level vs

end

end Json

end JavaRefactor.CommandLine

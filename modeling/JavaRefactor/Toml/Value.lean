/-!
# `Toml.Value` — values of TOML documents

## Contents
- **`Value`**. Numbers with a fraction, and dates, are told by their kind only.
- **`Definition`**, what a line defines, by the names that lead to it.
-/

namespace JavaRefactor.Toml

/-- A value of a TOML document. -/
inductive Value where
  | text (value : String)
  | integer (value : Int)
  | boolean (value : Bool)
  | float
  | date
  | array
  | table
  deriving DecidableEq, Repr, Inhabited

/-- What a line defines. -/
inductive Definition where
  | value (v : Value)
  /-- The header of a table. -/
  | table
  /-- A name in front of a point in the key of a value, which makes a table. -/
  | stem
  /-- The header of one of several tables in an array. -/
  | tables
  deriving DecidableEq, Repr, Inhabited

end JavaRefactor.Toml

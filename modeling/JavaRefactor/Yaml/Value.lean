import JavaRefactor.Text.Chars

/-!
# `Yaml.Value` — values of YAML documents

Values are asked for by what they are to be: a text, a list, a table. An empty place, `~` and `null`
are no value, and stand for an empty list or table where one is asked for.

## Contents
- **`Value`**, with scalars told apart by whether they are written plainly, without quotes.
- **Views.** `isNull`, `text?`, `optionalText?`, `texts?`, `items?`, `entries?`, `distinct?`.
-/

namespace JavaRefactor.Yaml

/-- A value of a YAML document. The keys of a mapping are texts. -/
inductive Value where
  | scalar (plain : Bool) (text : String)
  | sequence (items : List Value)
  | mapping (entries : List (String × Value))
  deriving Repr, Inhabited

namespace Value

/-- The value of an empty place. -/
def absent : Value := scalar true ""

/-- The ways to write that there is no value. -/
def nullTexts : List String := ["", "~", "null"]

/-- Whether there is no value. -/
def isNull : Value → Bool
  | scalar true text => nullTexts.contains (String.ofList (text.toList.map Char.toLower))
  | _ => false

/-- A text. -/
def text? (v : Value) : Option String :=
  if v.isNull then none
  else match v with
    | scalar _ text => some text
    | _ => none

/-- A text, or none where there is no value. -/
def optionalText? (v : Value) : Option (Option String) :=
  if v.isNull then some none else v.text?.map some

/-- The items of a list. -/
def items? (v : Value) : Option (List Value) :=
  if v.isNull then some []
  else match v with
    | sequence items => some items
    | _ => none

/-- A list of texts. -/
def texts? (v : Value) : Option (List String) := v.items?.bind (·.mapM text?)

/-- Whether no key occurs twice. -/
def distinct : List String → Bool
  | [] => true
  | k :: ks => !ks.contains k && distinct ks

/-- The entries of a table in which no key occurs twice. -/
def entries? (v : Value) : Option (List (String × Value)) :=
  if v.isNull then some []
  else match v with
    | mapping entries => if distinct (entries.map (·.1)) then some entries else none
    | _ => none

end Value

end JavaRefactor.Yaml

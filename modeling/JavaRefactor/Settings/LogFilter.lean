import JavaRefactor.Text.Chars
import JavaRefactor.Text.Count

/-!
# `Settings.LogFilter` — which events are logged

A filter is a list of directives with commas between them. A directive names a target, or a span and
one of its fields, or both, and may end with a level: `target[span{field}]=level`.

## Contents
- **Levels.** `isLevel`.
- **Directives.** `isDirective`.
- **`isFilter`**, whether a text is a filter.
-/

namespace JavaRefactor.LogFilter

/-- The names of the levels. -/
def levels : List String := ["off", "error", "warn", "info", "debug", "trace"]

/-- Whether the characters name a level or write its number; nothing at all stands for a level too. -/
def isLevel (cs : List Char) : Bool :=
  cs.isEmpty || levels.contains (String.ofList (cs.map Char.toLower)) ||
    (Text.count? (String.ofList cs)).any (· ≤ 5)

/-- Whether a directive may go on so behind its target or span. A level stands only where no blanks
surround the directive. -/
def endsWell (bare : Bool) : List Char → Bool
  | [] => true
  | '=' :: level => bare && isLevel level
  | _ => false

/-- Whether a directive may go on so inside its span. -/
def spanEndsWell (bare : Bool) (cs : List Char) : Bool :=
  match cs.dropWhile fun c => c != ']' && c != '{' with
  | ']' :: rest => endsWell bare rest
  | '{' :: rest =>
    let field := rest.takeWhile (· != '}')
    match rest.drop field.length with
    -- the brace of the field closes right in front of the bracket of the span
    | '}' :: ']' :: last => !field.isEmpty && endsWell bare last
    | _ => false
  | _ => false

/-- Whether a target may start with a character. -/
def startsTarget (c : Char) : Bool :=
  c == '-' || c == ':' || c == '_' || Text.isAlphanumeric c

/-- Whether the characters are a directive. -/
def isDirective (text : List Char) : Bool :=
  let cs := Text.trimEnd (Text.trimStart text)
  let bare := cs == text
  match cs with
  | [] => false
  | '[' :: rest => spanEndsWell bare rest
  | c :: rest =>
    startsTarget c &&
      match rest.dropWhile fun c => c != '=' && c != '[' with
      | '[' :: more => spanEndsWell bare more
      | more => endsWell bare more

/-- Whether a text is a filter. -/
def isFilter (text : String) : Bool :=
  text.isEmpty || (Text.splitOn ',' text.toList).all isDirective

end JavaRefactor.LogFilter

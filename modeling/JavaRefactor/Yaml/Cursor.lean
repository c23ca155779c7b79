import JavaRefactor.Yaml.Value

/-!
# `Yaml.Cursor` — a place in a YAML text

## Contents
- **`Cursor`**: what is left of the text, the column, whether only blanks precede on the line, and the
  values that anchors name.
- **Moving.** `forward`, `gap?` and `gapInFlow`, which skip blanks, line breaks and comments.
- **Looking.** `endsToken`, `isDash`, `isColon`.
-/

namespace JavaRefactor.Yaml

/-- A place in a text. -/
structure Cursor where
  rest : List Char
  column : Nat
  /-- Whether only blanks precede on the line. -/
  fresh : Bool
  anchors : List (String × Value)
  deriving Repr, Inhabited

/-- Whether a token ends in front of the characters. -/
def endsToken : List Char → Bool
  | [] => true
  | c :: _ => c == ' ' || c == '\t' || c == '\n'

/-- Whether the character separates or encloses the items of a flow collection. -/
def isFlowMark (c : Char) : Bool := [',', '[', ']', '{', '}'].contains c

/-- What a gap has led to: the characters behind it, their column, whether only blanks precede them on
the line, and whether these have a tab. -/
structure Gap where
  rest : List Char
  column : Nat
  fresh : Bool
  tabbed : Bool
  deriving Repr, Inhabited

/-- Skips blanks, line breaks and comments; a comment must stand behind a blank. -/
def gapFrom (spaced comment fresh tabbed : Bool) (column : Nat) : List Char → Gap
  | [] => ⟨[], column, fresh, false⟩
  | c :: cs =>
    if c == '\n' then gapFrom true false true false 0 cs
    else if comment then gapFrom true true fresh tabbed (column + 1) cs
    else if c == ' ' then gapFrom true false fresh tabbed (column + 1) cs
    else if c == '\t' then gapFrom true false fresh (tabbed || fresh) (column + 1) cs
    else if c == '#' && spaced then gapFrom true true fresh tabbed (column + 1) cs
    else ⟨c :: cs, column, fresh, tabbed⟩

namespace Cursor

/-- Goes on by some characters of the line. -/
def forward (c : Cursor) (count : Nat) : Cursor :=
  ⟨c.rest.drop count, c.column + count, false, c.anchors⟩

/-- Skips a gap, in which no tab may indent a line. -/
def gap? (c : Cursor) (spaced : Bool) : Option Cursor :=
  let g := gapFrom spaced false c.fresh false c.column c.rest
  if g.tabbed then none else some ⟨g.rest, g.column, g.fresh, c.anchors⟩

/-- Skips a gap inside a flow collection, whose lines must not stand left of the column `indent`. -/
def gapInFlow? (c : Cursor) (indent : Nat) (spaced : Bool) : Option Cursor :=
  let g := gapFrom spaced false c.fresh false c.column c.rest
  if g.fresh && g.column < indent then none else some ⟨g.rest, g.column, g.fresh, c.anchors⟩

/-- Whether the item of a block sequence starts here. -/
def isDash (c : Cursor) : Bool :=
  match c.rest with
  | '-' :: cs => endsToken cs
  | _ => false

/-- Skips the blanks of the line. -/
def blanks (c : Cursor) : Cursor :=
  c.forward (c.rest.takeWhile fun x => x == ' ' || x == '\t').length

/-- The place behind a colon that makes what precedes it a key, in a block. -/
def colon? (c : Cursor) : Option Cursor :=
  match c.blanks.rest with
  | ':' :: cs => if endsToken cs then some (c.blanks.forward 1) else none
  | _ => none

/-- Gives a value a name. -/
def name (c : Cursor) (anchor : Option String) (v : Value) : Cursor :=
  match anchor with
  | some a => { c with anchors := (a, v) :: c.anchors }
  | none => c

end Cursor

end JavaRefactor.Yaml

import JavaRefactor.Yaml.Scalar

/-!
# `Yaml.Node` — values as they are written in YAML texts

A value stands in a *block*, where columns tell which lines belong together, or in a *flow*, between
brackets. In a block a value must stand at the column `floor` or right of it; only the items of a
sequence that is the value of a key may stand one column further left.

## Contents
- **Properties.** `property?`, an anchor or a tag in front of a value.
- **Keys.** `key?`, the key of an entry in a block.
- **Flows.** `flowValue` and its parts.
- **Blocks.** `blockValue` and its parts.
-/

namespace JavaRefactor.Yaml

/-! ## Properties -/

/-- The characters of an anchor's name. -/
def anchorName (cs : List Char) : List Char :=
  cs.takeWhile fun c => !(c == ' ' || c == '\t' || c == '\n' || isFlowMark c)

/-- An anchor or a tag; the anchor's name. -/
def property? (c : Cursor) : Option (Option String × Cursor) :=
  match c.rest with
  | '&' :: cs =>
    let name := anchorName cs
    if name.isEmpty then none else some (some (String.ofList name), c.forward (name.length + 1))
  | '!' :: cs => some (none, c.forward ((anchorName cs).length + 1))
  | _ => none

/-- The value that a mark names. -/
def alias? (c : Cursor) : Option (Value × Cursor) :=
  let name := anchorName (c.rest.drop 1)
  (c.anchors.lookup (String.ofList name)).map fun v => (v, c.forward (name.length + 1))

/-! ## Keys -/

/-- Skips the anchors and tags in front of a key. -/
def skipProperties : Nat → Cursor → Cursor
  | 0, c => c
  | fuel + 1, c =>
    match property? c with
    | some (_, behind) => skipProperties fuel behind.blanks
    | none => c

/-- A scalar of one line, and whether it is a plain one. -/
def lineScalar? (c : Cursor) : Option (Value × Cursor) :=
  match c.rest.head? with
  | some '*' => alias? c
  | some '"' | some '\'' =>
    match quoted? 0 c with
    | some (text, false, behind) => some (.scalar false text, behind)
    | _ => none
  | _ => (plainLine? false c).map fun (text, behind) => (.scalar true text, behind)

/-- The key of an entry in a block, and the place behind its colon. -/
def key? (c : Cursor) : Option (String × Cursor) :=
  match lineScalar? (skipProperties 2 c) with
  | some (.scalar _ text, behind) => behind.colon?.map fun value => (text, value)
  | _ => none

/-! ## Flows -/

/-- The place behind a colon in a flow. -/
def flowColon? (c : Cursor) : Option Cursor :=
  match c.rest with
  | ':' :: _ => some (c.forward 1)
  | _ => none

/-- The text of a scalar. -/
def scalarText? : Value → Option String
  | .scalar _ text => some text
  | _ => none

mutual

/-- Reads the value that starts here, in a flow whose lines stand at the column `indent` or right of it. -/
def flowValue (indent : Nat) : Nat → Cursor → Option (Value × Cursor)
  | 0, _ => none
  | fuel + 1, c =>
    match c.rest.head? with
    | some '[' => flowItems indent fuel [] (c.forward 1)
    | some '{' => flowEntries indent fuel [] (c.forward 1)
    | some '*' => alias? c
    | some '"' | some '\'' =>
      (quoted? indent c).map fun (text, _, behind) => (.scalar false text, behind)
    | some '&' | some '!' =>
      match property? c with
      | none => none
      | some (anchor, behind) =>
        match behind.gapInFlow? indent false with
        | none => none
        | some start =>
          (flowValue indent fuel start).map fun (v, last) => (v, last.name anchor v)
    | _ => (plain? true 0 c).map fun (text, behind) => (.scalar true text, behind)

/-- Reads the value behind a colon; there may be none. -/
def flowEntry (indent : Nat) : Nat → Cursor → Option (Value × Cursor)
  | 0, _ => none
  | fuel + 1, c =>
    match c.gapInFlow? indent false with
    | none => none
    | some start =>
      match start.rest.head? with
      | some ',' | some ']' | some '}' => some (.absent, start)
      | _ => flowValue indent fuel start

/-- Reads the items of a sequence up to its bracket. An item may be an entry without braces. -/
def flowItems (indent : Nat) : Nat → List Value → Cursor → Option (Value × Cursor)
  | 0, _, _ => none
  | fuel + 1, items, c =>
    match c.gapInFlow? indent false with
    | none => none
    | some start =>
      if start.rest.head? == some ']' then some (.sequence items, start.forward 1)
      else match flowValue indent fuel start with
        | none => none
        | some (v, behind) =>
          match behind.gapInFlow? indent false with
          | none => none
          | some next =>
            match flowColon? next with
            | none => flowItemsEnd indent fuel (items ++ [v]) next
            | some value =>
              -- a colon behind an item makes it the key of a mapping with one entry
              match scalarText? v, flowEntry indent fuel value with
              | some key, some (w, last) =>
                flowItemsEnd indent fuel (items ++ [.mapping [(key, w)]]) last
              | _, _ => none

/-- Reads what follows an item: a comma and further items, or the bracket. -/
def flowItemsEnd (indent : Nat) : Nat → List Value → Cursor → Option (Value × Cursor)
  | 0, _, _ => none
  | fuel + 1, items, c =>
    match c.gapInFlow? indent false with
    | none => none
    | some next =>
      match next.rest.head? with
      | some ',' => flowItems indent fuel items (next.forward 1)
      | some ']' => some (.sequence items, next.forward 1)
      | _ => none

/-- Reads the entries of a mapping up to its brace. -/
def flowEntries (indent : Nat) : Nat → List (String × Value) → Cursor → Option (Value × Cursor)
  | 0, _, _ => none
  | fuel + 1, entries, c =>
    match c.gapInFlow? indent false with
    | none => none
    | some start =>
      if start.rest.head? == some '}' then some (.mapping entries, start.forward 1)
      else match flowValue indent fuel start with
        | some (.scalar _ key, behind) =>
          match behind.gapInFlow? indent false with
          | none => none
          | some next =>
            match flowColon? next with
            | none => flowEntriesEnd indent fuel (entries ++ [(key, .absent)]) next
            | some value =>
              match flowEntry indent fuel value with
              | some (v, last) => flowEntriesEnd indent fuel (entries ++ [(key, v)]) last
              | none => none
        | _ => none

/-- Reads what follows an entry: a comma and further entries, or the brace. -/
def flowEntriesEnd (indent : Nat) : Nat → List (String × Value) → Cursor → Option (Value × Cursor)
  | 0, _, _ => none
  | fuel + 1, entries, c =>
    match c.gapInFlow? indent false with
    | none => none
    | some next =>
      match next.rest.head? with
      | some ',' => flowEntries indent fuel entries (next.forward 1)
      | some '}' => some (.mapping entries, next.forward 1)
      | _ => none

end

/-! ## Blocks -/

mutual

/-- Reads the value that follows here; there may be none. Where `compact`, a collection may start on
this line. -/
def blockValue (floor dashFloor : Nat) (compact : Bool) : Nat → Cursor → Option (Value × Cursor)
  | 0, _ => none
  | fuel + 1, c =>
    match c.gap? true with
    | none => none
    | some start =>
      if start.rest.isEmpty then some (.absent, start)
      -- only dashes may stand as far to the left as `dashFloor`
      else if start.fresh && start.isDash && dashFloor ≤ start.column then
        blockItems start.column fuel [] start
      else if start.fresh && start.column < floor then some (.absent, start)
      else blockContent floor dashFloor (compact || start.fresh) start.column fuel start
termination_by structural fuel _ => fuel

/-- Reads the value that starts here, on a line where what belongs to it starts at the column `column`. -/
def blockContent (floor dashFloor : Nat) (collection : Bool) (column : Nat) :
    Nat → Cursor → Option (Value × Cursor)
  | 0, _ => none
  | fuel + 1, c =>
    match property? c with
    | some (anchor, behind) =>
      match behind.gap? false with
      | none => none
      | some next =>
        -- behind an anchor or a tag at the end of a line, any value may follow
        let value := if next.fresh || next.rest.isEmpty then
            blockValue floor dashFloor false fuel behind
          else blockContent floor dashFloor collection column fuel next
        value.map fun (v, last) => (v, last.name anchor v)
    | none =>
      if c.isDash then if collection then blockItems column fuel [] c else none
      else match key? c with
        | some (key, value) =>
          if collection then blockEntries column fuel [] key value else none
        | none =>
          match c.rest.head? with
          | some '[' | some '{' => flowValue (floor - 1) fuel c
          | some '|' | some '>' =>
            (block? floor c).map fun (text, behind) => (.scalar false text, behind)
          | some '*' => alias? c
          | some '"' | some '\'' =>
            (quoted? (floor - 1) c).map fun (text, _, behind) => (.scalar false text, behind)
          | _ => (plain? false floor c).map fun (text, behind) => (.scalar true text, behind)
termination_by structural fuel _ => fuel

/-- Reads the items of a sequence, whose dashes stand at the column `column`; one is here. -/
def blockItems (column : Nat) : Nat → List Value → Cursor → Option (Value × Cursor)
  | 0, _, _ => none
  | fuel + 1, items, c =>
    match blockValue (column + 1) (column + 1) true fuel (c.forward 1) with
    | none => none
    | some (v, behind) =>
      match behind.gap? false with
      | none => none
      | some next =>
        if next.fresh && next.column == column && next.isDash then
          blockItems column fuel (items ++ [v]) next
        else some (.sequence (items ++ [v]), next)
termination_by structural fuel _ _ => fuel

/-- Reads the entries of a mapping, whose keys stand at the column `column`; the value of `key` is here. -/
def blockEntries (column : Nat) :
    Nat → List (String × Value) → String → Cursor → Option (Value × Cursor)
  | 0, _, _, _ => none
  | fuel + 1, entries, key, c =>
    match blockValue (column + 1) column false fuel c with
    | none => none
    | some (v, behind) =>
      match behind.gap? false with
      | none => none
      | some next =>
        let found := entries ++ [(key, v)]
        if next.fresh && next.column == column && !next.rest.isEmpty then
          match key? next with
          | some (another, value) => blockEntries column fuel found another value
          | none => none
        else some (.mapping found, next)
termination_by structural fuel _ _ _ => fuel

end

end JavaRefactor.Yaml

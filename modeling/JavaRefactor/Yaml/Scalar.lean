import JavaRefactor.Yaml.Cursor

/-!
# `Yaml.Scalar` — scalars of YAML texts

## Contents
- **Folding.** `fold`, what blanks and line breaks inside a scalar stand for.
- **Quoted scalars.** `quoted?`.
- **Plain scalars.** `plain?`.
- **Block scalars.** `block?`.
-/

namespace JavaRefactor.Yaml

/-! ## Folding -/

/-- What a number of line breaks stands for: one is a blank, unless it is escaped, and of several the
first is dropped. -/
def foldBreaks (breaks : Nat) (escaped : Bool) : List Char :=
  if breaks == 1 && !escaped then [' '] else List.replicate (breaks - 1) '\n'

/-- What blanks and line breaks between two words stand for. -/
def fold (blanks : List Char) (breaks : Nat) (escaped : Bool) : List Char :=
  if breaks == 0 then blanks else foldBreaks breaks escaped

/-! ## Quoted scalars -/

/-- Where the reading of a quoted scalar stands. -/
inductive QuoteMode where
  | text
  /-- Behind a backslash. -/
  | escape
  /-- In front of the second of two quotes. -/
  | doubled
  /-- In front of as many digits of a character's number, which is known so far. -/
  | digits (left value : Nat)
  deriving DecidableEq, Repr

/-- What a character behind a backslash stands for. -/
def escaped? (c : Char) : Option Char :=
  match c with
  | '0' => some '\x00'
  | 'a' => some '\x07'
  | 'b' => some '\x08'
  | 't' | '\t' => some '\t'
  | 'n' => some '\n'
  | 'v' => some '\x0b'
  | 'f' => some '\x0c'
  | 'r' => some '\r'
  | 'e' => some '\x1b'
  | ' ' | '"' | '/' | '\\' => some c
  | 'N' => some '\u0085'
  | '_' => some '\u00a0'
  | 'L' => some '\u2028'
  | 'P' => some '\u2029'
  | _ => none

/-- The number of digits that follow a letter behind a backslash. -/
def digitCount? (c : Char) : Option Nat :=
  match c with
  | 'x' => some 2
  | 'u' => some 4
  | 'U' => some 8
  | _ => none

/-- The value of a hexadecimal digit. -/
def hexValue? (c : Char) : Option Nat :=
  if c.isDigit then some (c.toNat - '0'.toNat)
  else if 'a' ≤ c && c ≤ 'f' then some (c.toNat - 'a'.toNat + 10)
  else if 'A' ≤ c && c ≤ 'F' then some (c.toNat - 'A'.toNat + 10)
  else none

/-- The character with a number. -/
def charOfNumber? (n : Nat) : Option Char :=
  if h : n.isValidChar then some (Char.ofNatAux n h) else none

/-- What has been read of a quoted scalar. -/
structure Quoting where
  /-- The text up to the last word, reversed. -/
  out : List Char
  /-- The blanks behind the last word, reversed. -/
  blanks : List Char
  breaks : Nat
  /-- Whether the first of the line breaks is escaped. -/
  escaped : Bool
  /-- Whether there has been any line break. -/
  several : Bool
  deriving Repr, Inhabited

namespace Quoting

/-- Takes what separates the words over into the text. -/
def flush (q : Quoting) : Quoting :=
  { q with out := (fold q.blanks.reverse q.breaks q.escaped).reverse ++ q.out
           blanks := [], breaks := 0, escaped := false }

/-- Adds a character to the text. -/
def push (q : Quoting) (c : Char) : Quoting :=
  let q := q.flush
  { q with out := c :: q.out }

end Quoting

/-- What a character does to the reading of a quoted scalar. -/
inductive QuoteStep where
  /-- The character is the quote at the end. -/
  | close
  /-- The character has no place here. -/
  | refuse
  | go (mode : QuoteMode) (q : Quoting) (column : Nat)
  deriving Repr

/-- What a character behind a backslash does. -/
def escapeStep (q : Quoting) (column : Nat) (c : Char) : QuoteStep :=
  if c == '\n' then .go .text { q.flush with breaks := 1, escaped := true, several := true } 0
  else match digitCount? c, escaped? c with
    | some n, _ => .go (.digits n 0) q (column + 1)
    | none, some x => .go .text (q.push x) (column + 1)
    | none, none => .refuse

/-- What a digit of a character's number does. -/
def digitStep (left value : Nat) (q : Quoting) (column : Nat) (c : Char) : QuoteStep :=
  match hexValue? c with
  | none => .refuse
  | some d =>
    if left ≤ 1 then
      match charOfNumber? (value * 16 + d) with
      | some x => .go .text (q.push x) (column + 1)
      | none => .refuse
    else .go (.digits (left - 1) (value * 16 + d)) q (column + 1)

/-- What a character of the text does, of which the next one may be seen. Lines must not stand left of
the column `indent`. -/
def textStep (quote : Char) (indent : Nat) (q : Quoting) (column : Nat) (c : Char)
    (next : Option Char) : QuoteStep :=
  if c == '\n' then .go .text { q with blanks := [], breaks := q.breaks + 1, several := true } 0
  else if c == ' ' || c == '\t' then
    .go .text (if q.breaks == 0 then { q with blanks := c :: q.blanks } else q) (column + 1)
  else if 0 < q.breaks && column < indent then .refuse
  else if c == quote then
    if quote == '\'' && next == some quote then .go .doubled q (column + 1) else .close
  else if c == '\\' && quote == '"' then .go .escape q (column + 1)
  else .go .text (q.push c) (column + 1)

/-- What a character does in a mode. -/
def quoteStep (quote : Char) (indent : Nat) (mode : QuoteMode) (q : Quoting) (column : Nat) (c : Char)
    (next : Option Char) : QuoteStep :=
  match mode with
  | .text => textStep quote indent q column c next
  | .doubled => .go .text (q.push c) (column + 1)
  | .escape => escapeStep q column c
  | .digits left value => digitStep left value q column c

/-- Reads a quoted scalar up to its end: its text, whether it has several lines, what is left, and the
column there. -/
def quotedFrom (quote : Char) (indent : Nat) (mode : QuoteMode) (q : Quoting) (column : Nat) :
    List Char → Option (String × Bool × List Char × Nat)
  | [] => none
  | c :: cs =>
    match quoteStep quote indent mode q column c cs.head? with
    | .close => some (String.ofList q.flush.out.reverse, q.several, cs, column + 1)
    | .refuse => none
    | .go mode q column => quotedFrom quote indent mode q column cs

/-- Reads the quoted scalar that starts at a quote: its text and whether it has several lines. -/
def quoted? (indent : Nat) (c : Cursor) : Option (String × Bool × Cursor) :=
  match c.rest with
  | [] => none
  | quote :: cs =>
    (quotedFrom quote indent .text ⟨[], [], 0, false, false⟩ (c.column + 1) cs).map
      fun (text, several, rest, column) => (text, several, ⟨rest, column, false, c.anchors⟩)

/-! ## Plain scalars -/

/-- A character that no plain scalar starts with, unless it is followed by a word where `followed`. -/
def isMark (c : Char) : Bool :=
  ['-', '?', ':', ',', '[', ']', '{', '}', '#', '&', '*', '!', '|', '>', '\'', '"', '%', '@',
    '\x60'].contains c

/-- Whether a plain scalar starts here. -/
def startsPlain (flow : Bool) : List Char → Bool
  | [] => false
  | c :: cs =>
    if ['-', '?', ':'].contains c then
      !endsToken cs && !(flow && (cs.head?.map isFlowMark).getD false)
    else !isMark c

/-- The characters of a plain scalar up to the end of the line. -/
def plainPiece (flow blank : Bool) : List Char → List Char
  | [] => []
  | c :: cs =>
    if c == '\n' || (c == '#' && blank) || (flow && isFlowMark c) then []
    else if c == ':' && (endsToken cs || (flow && (cs.head?.map isFlowMark).getD false)) then []
    else c :: plainPiece flow (c == ' ' || c == '\t') cs

/-- A piece without the blanks at its end. -/
def trimPiece (piece : List Char) : List Char :=
  (piece.reverse.dropWhile fun c => c == ' ' || c == '\t').reverse

/-- Skips blanks and line breaks: how many line breaks there are, what is left, and its column. -/
def blankLines (breaks column : Nat) : List Char → Nat × List Char × Nat
  | [] => (breaks, [], column)
  | c :: cs =>
    if c == '\n' then blankLines (breaks + 1) 0 cs
    else if c == ' ' || c == '\t' then blankLines breaks (column + 1) cs
    else (breaks, c :: cs, column)

/-- Goes on with a plain scalar on further lines, which start at the column `floor` or right of it. -/
def plainLines (flow : Bool) (floor : Nat) : Nat → List Char → Cursor → List Char × Cursor
  | 0, out, c => (out, c)
  | fuel + 1, out, c =>
    let (breaks, rest, column) := blankLines 0 c.column c.rest
    let piece := trimPiece (plainPiece flow true rest)
    if breaks == 0 || piece.isEmpty || (!flow && column < floor) then (out, c)
    else plainLines flow floor fuel (out ++ foldBreaks breaks false ++ piece)
      (Cursor.forward ⟨rest, column, false, c.anchors⟩ piece.length)

/-- The plain scalar of one line that starts here. -/
def plainLine? (flow : Bool) (c : Cursor) : Option (String × Cursor) :=
  if startsPlain flow c.rest then
    let piece := trimPiece (plainPiece flow false c.rest)
    some (String.ofList piece, c.forward piece.length)
  else none

/-- The plain scalar that starts here. -/
def plain? (flow : Bool) (floor : Nat) (c : Cursor) : Option (String × Cursor) :=
  (plainLine? flow c).map fun (first, behind) =>
    let (out, last) := plainLines flow floor c.rest.length first.toList behind
    (String.ofList out, last)

/-! ## Block scalars -/

/-- What becomes of the line breaks at the end of a block scalar. -/
inductive Chomping where
  | strip
  | clip
  | keep
  deriving DecidableEq, Repr

/-- Reads the marks behind the first one of a block scalar: what becomes of the line breaks at its end,
and its indentation where it is given. -/
def blockMarks : List Char → Chomping × Option Nat × List Char
  | '-' :: cs =>
    match cs with
    | d :: ds => if '1' ≤ d && d ≤ '9' then (.strip, some (d.toNat - 48), ds) else (.strip, none, cs)
    | [] => (.strip, none, [])
  | '+' :: cs =>
    match cs with
    | d :: ds => if '1' ≤ d && d ≤ '9' then (.keep, some (d.toNat - 48), ds) else (.keep, none, cs)
    | [] => (.keep, none, [])
  | d :: ds =>
    if '1' ≤ d && d ≤ '9' then
      match ds with
      | '-' :: cs => (.strip, some (d.toNat - 48), cs)
      | '+' :: cs => (.keep, some (d.toNat - 48), cs)
      | _ => (.clip, some (d.toNat - 48), ds)
    else (.clip, none, d :: ds)
  | [] => (.clip, none, [])

/-- The number of blanks in front of a line. -/
def indentation (line : List Char) : Nat := (line.takeWhile (· == ' ')).length

/-- Whether a line has nothing but blanks. -/
def isBlankLine (line : List Char) : Bool := line.all (· == ' ')

/-- The indentation that the first line with a word shows, which must not be below `least`. -/
def shownIndentation (least : Nat) (lines : List (List Char)) : Nat :=
  match lines.find? (!isBlankLine ·) with
  | some line => max least (indentation line)
  | none => max least (lines.foldl (fun n line => max n (indentation line)) 0)

/-- What has been read of a block scalar. -/
structure Blocking where
  out : List Char
  /-- Whether a line has been read, whose line break is not yet in the text. -/
  pending : Bool
  /-- The number of empty lines behind it. -/
  empty : Nat
  /-- Whether that line starts with a blank. -/
  indented : Bool
  deriving Repr, Inhabited

/-- Adds a line, without its indentation, to a block scalar. -/
def Blocking.add (folded : Bool) (b : Blocking) (line : List Char) : Blocking :=
  match line with
  | [] => { b with empty := b.empty + 1 }
  | c :: _ =>
    let blank := c == ' ' || c == '\t'
    let between :=
      if folded && b.pending && !b.indented && !blank then
        if b.empty == 0 then [' '] else []
      else if b.pending then ['\n'] else []
    ⟨b.out ++ between ++ List.replicate b.empty '\n' ++ line, true, 0, blank⟩

/-- The text of a block scalar. -/
def Blocking.text (b : Blocking) (chomping : Chomping) : List Char :=
  match chomping with
  | .strip => b.out
  | .clip => if b.pending then b.out ++ ['\n'] else b.out
  | .keep => b.out ++ (if b.pending then ['\n'] else []) ++ List.replicate b.empty '\n'

/-- Whether the marks of a block scalar are followed by nothing but a comment. -/
def endsHeader (cs : List Char) : Bool :=
  match cs.dropWhile fun c => c == ' ' || c == '\t' with
  | [] => true
  | '#' :: _ => endsToken cs
  | _ => false

/-- Reads the block scalar whose first mark stands here, inside a block that ends left of the column
`floor`. -/
def block? (floor : Nat) (c : Cursor) : Option (String × Cursor) :=
  let header := (c.rest.drop 1).takeWhile (· != '\n')
  let (chomping, given, behind) := blockMarks header
  if !endsHeader behind then none
  else
    let lines := match (c.rest.drop 1).dropWhile (· != '\n') with
      | [] => []
      | _ :: body =>
        let pieces := Text.splitOn '\n' body
        if pieces.getLast? == some [] then pieces.dropLast else pieces
    let indent := match given with
      | some n => floor - 1 + n
      | none => shownIndentation (max floor 1) lines
    let inside := fun line => isBlankLine line || indent ≤ indentation line
    let taken := lines.takeWhile inside
    let b := (taken.map (·.drop indent)).foldl (Blocking.add (c.rest.head? == some '>'))
      ⟨[], false, 0, false⟩
    let rest := (lines.dropWhile inside).flatMap (· ++ ['\n'])
    some (String.ofList (b.text chomping), ⟨rest, 0, true, c.anchors⟩)

end JavaRefactor.Yaml

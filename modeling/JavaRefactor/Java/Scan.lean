import JavaRefactor.Text.Chars

/-!
# `Java.Scan` — the spelling of names, numbers, literals and trivia

A *scan* takes the longest beginning of a text that has a certain spelling and returns it with what
follows. Put one after the other, the two parts are always the text that was scanned.

## Contents
- **`Scan`** and the ways to build one: `one`, `many`, `many1`, `andThen`, `optional`, `orElse`,
  `longer`.
- **Numbers.** One scan per kind of number, and `number`, which picks the longest.
- **Literals.** `charBody`, `stringBody` and `blockBody`, from behind the opening quote.
- **Trivia.** `trivia`, blanks and comments.
-/

namespace JavaRefactor.Java

/-- Splits a text behind the longest beginning with some spelling. -/
abbrev Scan := List Char → Option (List Char × List Char)

namespace Scan

/-- A single character of a class. -/
def one (p : Char → Bool) : Scan
  | c :: cs => if p c then some ([c], cs) else none
  | [] => none

/-- Characters of a class, possibly none. -/
def many (p : Char → Bool) : Scan := fun cs => some (cs.span p)

/-- Characters of a class, at least one. -/
def many1 (p : Char → Bool) : Scan := fun cs =>
  match cs.span p with
  | ([], _) => none
  | r => some r

/-- One spelling, then another. -/
def andThen (a b : Scan) : Scan := fun cs =>
  match a cs with
  | none => none
  | some (x, rest) => (b rest).map fun (y, rest') => (x ++ y, rest')

/-- The spelling or nothing. -/
def optional (a : Scan) : Scan := fun cs => (a cs).getD ([], cs)

/-- The first spelling, or else the second. -/
def orElse (a b : Scan) : Scan := fun cs =>
  match a cs with
  | some r => some r
  | none => b cs

/-- The spelling that reaches further; the first of two that reach as far. -/
def longer (a b : Scan) : Scan := fun cs =>
  match a cs, b cs with
  | some r, some r' => if r.1.length < r'.1.length then some r' else some r
  | some r, none => some r
  | none, r => r

/-- One of the listed characters. -/
def oneOf (allowed : List Char) : Scan := one (allowed.contains ·)

/-! ## Digits -/

/-- A decimal digit. -/
def isDecimal (c : Char) : Bool := c.isDigit

/-- A hexadecimal digit. -/
def isHex (c : Char) : Bool :=
  c.isDigit || (('a' ≤ c && c ≤ 'f') || ('A' ≤ c && c ≤ 'F'))

/-- An octal digit. -/
def isOctal (c : Char) : Bool := '0' ≤ c && c ≤ '7'

/-- A binary digit. -/
def isBinary (c : Char) : Bool := c == '0' || c == '1'

/-- Whether digits go on behind an underscore: with `many`, behind any number of underscores. -/
def goesOn (p : Char → Bool) (many : Bool) (cs : List Char) : Bool :=
  match (if many then cs.dropWhile (· == '_') else cs) with
  | c :: _ => p c
  | [] => false

/-- Digits and underscores, never an underscore at the end. -/
def digitTail (p : Char → Bool) (many : Bool) : List Char → List Char × List Char
  | [] => ([], [])
  | c :: cs =>
    if p c || (c == '_' && goesOn p many cs) then
      let (x, rest) := digitTail p many cs
      (c :: x, rest)
    else ([], c :: cs)

/-- Digits with single underscores between them. -/
def digits (p : Char → Bool) : Scan := fun cs =>
  match cs with
  | c :: _ => if p c then some (digitTail p false cs) else none
  | [] => none

/-- A decimal number without a superfluous leading zero. -/
def plainDecimal : Scan
  | '0' :: cs => some (['0'], cs)
  | c :: cs =>
    if isDecimal c then
      match cs with
      | '_' :: d :: ds =>
        if isDecimal d then
          let (x, rest) := digitTail isDecimal true (d :: ds)
          some (c :: '_' :: x, rest)
        else some ([c], cs)
      | d :: ds =>
        if isDecimal d then
          let (x, rest) := digitTail isDecimal true (d :: ds)
          some (c :: x, rest)
        else some ([c], cs)
      | [] => some ([c], cs)
    else none
  | [] => none

/-! ## Numbers -/

/-- The mark of a `long`. -/
def longMark : Scan := optional (oneOf ['l', 'L'])

/-- The mark of a `float` or a `double`. -/
def floatMark : Scan := oneOf ['f', 'F', 'd', 'D']

/-- A decimal exponent. -/
def exponent : Scan :=
  andThen (oneOf ['e', 'E']) (andThen (optional (oneOf ['+', '-'])) (digits isDecimal))

/-- A binary exponent. -/
def binaryExponent : Scan :=
  andThen (oneOf ['p', 'P'])
    (andThen (optional (oneOf ['+', '-'])) (andThen plainDecimal (optional floatMark)))

/-- The mark `0x`. -/
def hexMark : Scan := andThen (oneOf ['0']) (oneOf ['x', 'X'])

/-- A decimal integer. -/
def decimalInteger : Scan := andThen plainDecimal longMark

/-- A hexadecimal integer. -/
def hexInteger : Scan := andThen hexMark (andThen (digits isHex) longMark)

/-- An octal integer. -/
def octalInteger : Scan :=
  longer (andThen (oneOf ['0']) (andThen (digits isOctal) longMark))
    (andThen (oneOf ['0']) (andThen (oneOf ['o', 'O']) (andThen (digits isOctal) longMark)))

/-- A binary integer. -/
def binaryInteger : Scan :=
  andThen (oneOf ['0']) (andThen (oneOf ['b', 'B']) (andThen (digits isBinary) longMark))

/-- A decimal number with a point, an exponent or a mark. -/
def decimalFloating : Scan :=
  let tail := andThen (optional exponent) (optional floatMark)
  longer
    (longer (andThen (digits isDecimal) (andThen (oneOf ['.']) (andThen (optional (digits isDecimal)) tail)))
      (andThen (oneOf ['.']) (andThen (digits isDecimal) tail)))
    (longer (andThen plainDecimal (andThen exponent (optional floatMark)))
      (andThen plainDecimal (andThen (optional exponent) floatMark)))

/-- A hexadecimal number with a point or an exponent. -/
def hexFloating : Scan :=
  let tail := optional binaryExponent
  longer (andThen hexMark (andThen (digits isHex) (andThen (optional (oneOf ['.'])) tail)))
    (andThen hexMark (andThen (optional (digits isHex))
      (andThen (oneOf ['.']) (andThen (digits isHex) tail))))

/-- The kinds of numbers with their scans; of two that reach as far, the first counts. -/
def numbers : List (String × Scan) :=
  [("decimal_integer_literal", decimalInteger), ("hex_integer_literal", hexInteger),
    ("octal_integer_literal", octalInteger), ("binary_integer_literal", binaryInteger),
    ("decimal_floating_point_literal", decimalFloating),
    ("hex_floating_point_literal", hexFloating)]

/-- The longest number at the front, with its kind. -/
def number (cs : List Char) : Option (String × List Char × List Char) :=
  numbers.foldl (fun best (kind, scan) =>
    match best, scan cs with
    | none, some r => some (kind, r)
    | some b, some r => if b.2.1.length < r.1.length then some (kind, r) else some b
    | b, none => b) none

/-! ## Literals -/

/-- Puts a character in front of what a scan took. -/
def push (c : Char) (r : Option (List Char × List Char)) : Option (List Char × List Char) :=
  r.map fun (x, rest) => (c :: x, rest)

/-- The inside and the closing quote of a character literal. -/
def charBody : Scan
  | [] => none
  | '\'' :: cs => some (['\''], cs)
  | '\\' :: c :: cs => push '\\' (push c (charBody cs))
  | '\n' :: _ => none
  | c :: cs => push c (charBody cs)

/-- Whether an escape is well formed that goes on with `c` and then `cs`. -/
def isEscape (c : Char) (cs : List Char) : Bool :=
  if c == 'x' then (cs.take 2).length == 2 && (cs.take 2).all isHex
  else if c == 'u' then
    ((cs.take 4).length == 4 && (cs.take 4).all isHex) ||
      (match cs with
        | '{' :: ds =>
          match ds.span isHex with
          | (_ :: _, '}' :: _) => true
          | _ => false
        | _ => false)
  else true

/-- How a stretch of a string literal ends: with the closing quote, or where an embedded expression
starts. -/
inductive StringEnd where
  | closed
  | embedded
  deriving DecidableEq, Repr

/-- Puts characters in front of a stretch of a string literal. -/
def pushAll (cs : List Char) (r : Option (List Char × List Char × StringEnd)) :
    Option (List Char × List Char × StringEnd) :=
  r.map fun (x, rest) => (cs ++ x, rest)

/-- The inside of a string literal up to its closing quote or an embedded expression. -/
def stringBody : List Char → Option (List Char × List Char × StringEnd)
  | [] => none
  | '"' :: cs => some (['"'], cs, .closed)
  | '\\' :: '{' :: cs => some (['\\', '{'], cs, .embedded)
  | '\\' :: c :: cs => if isEscape c cs then pushAll ['\\', c] (stringBody cs) else none
  | '\\' :: [] => none
  | c :: cs => pushAll [c] (stringBody cs)

/-- The inside of a text block up to its closing quotes or an embedded expression. -/
def blockBody : List Char → Option (List Char × List Char × StringEnd)
  | [] => none
  | '"' :: '"' :: '"' :: cs => some (['"', '"', '"'], cs, .closed)
  | '\\' :: '{' :: cs => some (['\\', '{'], cs, .embedded)
  | '\\' :: c :: cs => pushAll ['\\', c] (blockBody cs)
  | '\\' :: [] => none
  | c :: cs => pushAll [c] (blockBody cs)

/-! ## Trivia -/

/-- Where a scan of trivia stands: between comments, in a comment up to the end of the line, in a
bracketed comment, or behind a star of one. -/
inductive TriviaState where
  | blank
  | line
  | block
  | star
  deriving DecidableEq, Repr

/-- Blanks and comments; none if a bracketed comment does not end. -/
def trivia : TriviaState → List Char → Option (List Char × List Char)
  | .blank, [] => some ([], [])
  | .line, [] => some ([], [])
  | .block, [] => none
  | .star, [] => none
  | .blank, '/' :: '/' :: cs => push '/' (push '/' (trivia .line cs))
  | .blank, '/' :: '*' :: cs => push '/' (push '*' (trivia .block cs))
  | .blank, c :: cs => if Text.isBlank c then push c (trivia .blank cs) else some ([], c :: cs)
  | .line, c :: cs => push c (trivia (if c == '\n' then .blank else .line) cs)
  | .block, c :: cs => push c (trivia (if c == '*' then .star else .block) cs)
  | .star, c :: cs =>
    push c (trivia (if c == '/' then .blank else if c == '*' then .star else .block) cs)

end Scan

end JavaRefactor.Java

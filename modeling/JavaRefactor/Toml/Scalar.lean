import JavaRefactor.Toml.Value

/-!
# `Toml.Scalar` — scalars and keys of TOML texts

Each reader takes the characters that follow and gives what it has read together with the rest.

## Contents
- **Strings.** `string?`, in four spellings.
- **Numbers and words.** `word?`: integers, fractions, dates and booleans.
- **Keys.** `key?`, names with points between them.
-/

namespace JavaRefactor.Toml

/-- Whether a character may not stand in a text or a comment. -/
def isControl (c : Char) : Bool := (c.toNat < 32 && c != '\t') || c.toNat == 127

/-- Skips blanks. -/
def skipBlanks (cs : List Char) : List Char := cs.dropWhile fun c => c == ' ' || c == '\t'

/-! ## Strings -/

/-- The value of a hexadecimal digit. -/
def digitValue? (c : Char) : Option Nat :=
  if c.isDigit then some (c.toNat - '0'.toNat)
  else if 'a' ≤ c && c ≤ 'f' then some (c.toNat - 'a'.toNat + 10)
  else if 'A' ≤ c && c ≤ 'F' then some (c.toNat - 'A'.toNat + 10)
  else none

/-- The number that digits write in a base. -/
def numberIn (base : Nat) (digits : List Char) : Option Nat :=
  digits.foldlM (fun n c => (digitValue? c).bind fun d =>
    if d < base then some (n * base + d) else none) 0

/-- The character with the number that the first digits write. -/
def charOfDigits? (count : Nat) (cs : List Char) : Option (Char × List Char) :=
  if cs.length < count then none
  else match numberIn 16 (cs.take count) with
    | none => none
    | some n => if h : n.isValidChar then some (Char.ofNatAux n h, cs.drop count) else none

/-- The character that is meant behind a backslash. -/
def escape? : List Char → Option (Char × List Char)
  | 'b' :: cs => some ('\x08', cs)
  | 't' :: cs => some ('\t', cs)
  | 'n' :: cs => some ('\n', cs)
  | 'f' :: cs => some ('\x0c', cs)
  | 'r' :: cs => some ('\r', cs)
  | '"' :: cs => some ('"', cs)
  | '\\' :: cs => some ('\\', cs)
  | 'u' :: cs => charOfDigits? 4 cs
  | 'U' :: cs => charOfDigits? 8 cs
  | _ => none

/-- Reads a string of one line up to its quote. -/
def lineString? (quote : Char) : Nat → List Char → List Char → Option (String × List Char)
  | 0, _, _ => none
  | _ + 1, _, [] => none
  | fuel + 1, out, c :: cs =>
    if c == quote then some (String.ofList out.reverse, cs)
    else if isControl c then none
    else if c == '\\' && quote == '"' then
      match escape? cs with
      | some (x, rest) => lineString? quote fuel (x :: out) rest
      | none => none
    else lineString? quote fuel (c :: out) cs

/-- The number of quotes at the front. -/
def quoteCount (quote : Char) (cs : List Char) : Nat := (cs.takeWhile (· == quote)).length

/-- Skips the line break and the blanks behind a backslash at the end of a line. -/
def skipLineEnd? (cs : List Char) : Option (List Char) :=
  match skipBlanks cs with
  | '\n' :: rest => some (rest.dropWhile fun c => c == ' ' || c == '\t' || c == '\n')
  | _ => none

/-- Reads a string of several lines up to its three quotes, in front of which two more may stand. -/
def blockString? (quote : Char) : Nat → List Char → List Char → Option (String × List Char)
  | 0, _, _ => none
  | _ + 1, _, [] => none
  | fuel + 1, out, c :: cs =>
    if c == quote && 3 ≤ quoteCount quote (c :: cs) then
      let n := quoteCount quote (c :: cs)
      if 5 < n then none
      else
        let more := List.replicate (n - 3) quote
        some (String.ofList (out.reverse ++ more), (c :: cs).drop n)
    else if isControl c && c != '\n' then none
    else if c == '\\' && quote == '"' then
      match skipLineEnd? cs, escape? cs with
      | some rest, _ => blockString? quote fuel out rest
      | none, some (x, rest) => blockString? quote fuel (x :: out) rest
      | none, none => none
    else blockString? quote fuel (c :: out) cs

/-- Reads the string that starts here. -/
def string? (cs : List Char) : Option (String × List Char) :=
  match cs with
  | [] => none
  | quote :: rest =>
    if quote != '"' && quote != '\'' then none
    else if 3 ≤ quoteCount quote cs then
      match cs.drop 3 with
      | '\n' :: body => blockString? quote cs.length [] body
      | body => blockString? quote cs.length [] body
    else lineString? quote cs.length [] rest

/-! ## Numbers and words -/

/-- The digits without the underscores, each of which must stand between two digits. -/
def digitsOf? (cs : List Char) : Option (List Char) :=
  match cs with
  | [] => none
  | '_' :: _ => none
  | _ =>
    let rec go : List Char → Option (List Char)
      | [] => some []
      | '_' :: c :: rest => if c == '_' then none else (go rest).map (c :: ·)
      | '_' :: [] => none
      | c :: rest => (go rest).map (c :: ·)
    go cs

/-- The number of digits in a base. -/
def based? (base : Nat) (cs : List Char) : Option Nat := (digitsOf? cs).bind (numberIn base)

/-- Whether the characters are decimal digits without a needless zero in front. -/
def isDecimal (cs : List Char) : Bool :=
  match digitsOf? cs with
  | some ds => ds.all Char.isDigit && (ds.length == 1 || ds.head? != some '0')
  | none => false

/-- Whether the characters are decimal digits, possibly with zeros in front. -/
def isDigits (cs : List Char) : Bool :=
  match digitsOf? cs with
  | some ds => ds.all Char.isDigit
  | none => false

/-- A number without its sign, and the sign. -/
def unsigned (cs : List Char) : Bool × List Char :=
  match cs with
  | '-' :: rest => (true, rest)
  | '+' :: rest => (false, rest)
  | _ => (false, cs)

/-- An integer takes 64 bits, one of them for its sign. -/
def integerLimit : Int := Int.ofNat (Nat.pow 2 63)

/-- The integer that the characters write. -/
def integer? (cs : List Char) : Option Int :=
  let number := match cs with
    | '0' :: 'x' :: ds => (based? 16 ds).map Int.ofNat
    | '0' :: 'o' :: ds => (based? 8 ds).map Int.ofNat
    | '0' :: 'b' :: ds => (based? 2 ds).map Int.ofNat
    | _ =>
      let (negative, ds) := unsigned cs
      if isDecimal ds then (based? 10 ds).map fun n => if negative then -Int.ofNat n else Int.ofNat n
      else none
  number.bind fun n => if -integerLimit ≤ n && n < integerLimit then some n else none

/-- Whether the characters write a number with a fraction or an exponent, or none at all. -/
def isFloat (cs : List Char) : Bool :=
  let body := (unsigned cs).2
  let mantissa := body.takeWhile fun c => c != 'e' && c != 'E'
  let whole := mantissa.takeWhile (· != '.')
  let exponent := match body.drop mantissa.length with
    | [] => true
    | _ :: e => isDigits (unsigned e).2
  let fraction := match mantissa.drop whole.length with
    | [] => mantissa.length < body.length
    | _ :: f => isDigits f
  body == "inf".toList || body == "nan".toList || (isDecimal whole && fraction && exponent)

/-- Whether the characters have the digits and marks of a pattern, where `d` stands for a digit. -/
def fits : List Char → List Char → Bool
  | [], [] => true
  | 'd' :: ps, c :: cs => c.isDigit && fits ps cs
  | p :: ps, c :: cs => p == c && fits ps cs
  | _, _ => false

/-- The number that the digits among `count` characters from `start` on write. -/
def numberAt (start count : Nat) (cs : List Char) : Nat :=
  (numberIn 10 ((cs.drop start).take count)).getD 0

/-- Whether the characters write hours and minutes. -/
def isHourAndMinute (cs : List Char) : Bool :=
  fits "dd:dd".toList cs && numberAt 0 2 cs ≤ 23 && numberAt 3 2 cs ≤ 59

/-- Whether the characters write a time of day, possibly with a fraction of a second. A minute may have 61
seconds. -/
def isTime (cs : List Char) : Bool :=
  let fraction := match cs.drop 8 with
    | [] => true
    | '.' :: ds => !ds.isEmpty && ds.all Char.isDigit
    | _ => false
  isHourAndMinute (cs.take 5) && fits ":dd".toList ((cs.drop 5).take 3) && numberAt 6 2 cs ≤ 60
    && fraction

/-- Whether the characters write a time of day and how far it is from the universal one. -/
def isOffsetTime (cs : List Char) : Bool :=
  let isZone := fun c => c == 'Z' || c == 'z' || c == '+' || c == '-'
  let time := cs.takeWhile (!isZone ·)
  let zone := match cs.drop time.length with
    | [] => true
    | ['Z'] | ['z'] => true
    | _ :: ds => isHourAndMinute ds
  isTime time && zone

/-- Whether a year has a leap day. -/
def isLeapYear (year : Nat) : Bool := year % 4 == 0 && (year % 100 != 0 || year % 400 == 0)

/-- The number of days of a month; none, where there is no such month. -/
def daysOf (year month : Nat) : Nat :=
  if month == 2 then if isLeapYear year then 29 else 28
  else if [4, 6, 9, 11].contains month then 30
  else if 1 ≤ month && month ≤ 12 then 31
  else 0

/-- Whether the characters write a day. -/
def isDay (cs : List Char) : Bool :=
  let day := numberAt 8 2 cs
  fits "dddd-dd-dd".toList cs && 1 ≤ day && day ≤ daysOf (numberAt 0 4 cs) (numberAt 5 2 cs)

/-- Whether the characters write a day, a time of day, or both. -/
def isDate (cs : List Char) : Bool :=
  let time := match cs.drop 10 with
    | [] => true
    | c :: rest => (c == 'T' || c == 't' || c == ' ') && isOffsetTime rest
  isTime cs || (isDay (cs.take 10) && time)

/-- A character of a number, a date or a word. -/
def isWordPart (c : Char) : Bool :=
  c.isAlphanum || c == '+' || c == '-' || c == '_' || c == '.' || c == ':'

/-- The characters of a number, a date or a word; between a date and a time there may be a blank. -/
def wordOf (cs : List Char) : List Char :=
  let front := cs.takeWhile isWordPart
  match cs.drop front.length with
  | ' ' :: c :: rest =>
    if front.length == 10 && fits "dddd-dd-dd".toList front && c.isDigit then
      front ++ ' ' :: (c :: rest).takeWhile isWordPart
    else front
  | _ => front

/-- Reads a number, a date or a word. -/
def word? (cs : List Char) : Option (Value × List Char) :=
  let word := wordOf cs
  let rest := cs.drop word.length
  if word == "true".toList then some (.boolean true, rest)
  else if word == "false".toList then some (.boolean false, rest)
  else match integer? word with
    | some n => some (.integer n, rest)
    | none =>
      if isFloat word then some (.float, rest)
      else if isDate word then some (.date, rest)
      else none

/-! ## Keys -/

/-- A character of a key without quotes. -/
def isKeyPart (c : Char) : Bool := c.isAlphanum || c == '_' || c == '-'

/-- Reads one name of a key. -/
def keyPart? (cs : List Char) : Option (String × List Char) :=
  match cs.head? with
  | some '"' | some '\'' =>
    if 3 ≤ quoteCount (cs.headD ' ') cs then none else string? cs
  | _ =>
    let name := cs.takeWhile isKeyPart
    if name.isEmpty then none else some (String.ofList name, cs.drop name.length)

/-- Reads a key. -/
def keyFrom? : Nat → List Char → Option (List String × List Char)
  | 0, _ => none
  | fuel + 1, cs =>
    match keyPart? (skipBlanks cs) with
    | none => none
    | some (name, rest) =>
      match skipBlanks rest with
      | '.' :: more => (keyFrom? fuel more).map fun (names, last) => (name :: names, last)
      | last => some ([name], last)

/-- Reads a key. -/
def key? (cs : List Char) : Option (List String × List Char) := keyFrom? cs.length cs

end JavaRefactor.Toml

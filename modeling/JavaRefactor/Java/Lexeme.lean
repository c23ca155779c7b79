import JavaRefactor.Java.Scan
import JavaRefactor.Text.Span

/-!
# `Java.Lexeme` — a Java text as a list of lexemes

Every character of the text belongs to one lexeme, as its text or as the trivia in front of it, or to
the trivia at the end. A `>` is always a lexeme of its own, since `>>` closes two lists of type
arguments as often as it shifts. A string literal with embedded expressions is cut into an opening, a
middle for each further expression, and a closing piece.

## Contents
- **`Lexeme`** and its `Form`.
- **`Lexeme.ofText?`**, the lexemes of a text; none where the text has no lexical structure.
-/

namespace JavaRefactor.Java

open Text (byteLength)

/-- What a lexeme is spelled as. -/
inductive Form where
  | word
  | number (kind : String)
  | character
  | string
  | stringOpening
  | stringMiddle
  | stringClosing
  | symbol
  deriving DecidableEq, Repr, Inhabited

/-- A token of the text with the trivia in front of it; `start` is the byte where the token starts. -/
structure Lexeme where
  form : Form
  trivia : String
  text : String
  start : Nat
  deriving DecidableEq, Repr, Inhabited

namespace Lexeme

/-- The byte behind the token. -/
def stop (l : Lexeme) : Nat := l.start + l.text.utf8ByteSize

/-- The symbols of more than one character, longer ones first. -/
def longSymbols : List String :=
  ["@interface", "...", "<<=", "->", "--", "-=", "++", "+=", "==", "!=", "<=", "<<", "&&", "&=",
    "||", "|=", "*=", "/=", "%=", "^=", "::"]

/-- The symbols of one character. -/
def shortSymbols : List Char :=
  ['(', ')', '{', '}', '[', ']', ';', ',', '.', '@', ':', '?', '=', '+', '-', '*', '/', '&', '|',
    '^', '%', '!', '~', '<', '>']

/-- The longest symbol at the front. -/
def symbol? (cs : List Char) : Option (List Char × List Char) :=
  match longSymbols.find? (fun s => s.toList.isPrefixOf cs) with
  | some s => some (s.toList, cs.drop s.toList.length)
  | none => Scan.one (shortSymbols.contains ·) cs

/-- The strings around an embedded expression, innermost first: whether each is a text block, and how
many braces are open in its expression. -/
abbrev Nesting := List (Bool × Nat)

/-- A lexeme's form and text, the rest of the text, and the strings that are open behind it. -/
structure Step where
  form : Form
  text : List Char
  rest : List Char
  nesting : Nesting

/-- The rest of a string literal, behind its opening text. -/
def stringStep (opening : List Char) (block : Bool) (whole cut : Form) (nesting : Nesting)
    (cs : List Char) : Option Step :=
  match if block then Scan.blockBody cs else Scan.stringBody cs with
  | none => none
  | some (x, rest, .closed) => some ⟨whole, opening ++ x, rest, nesting⟩
  | some (x, rest, .embedded) => some ⟨cut, opening ++ x, rest, (block, 0) :: nesting⟩

/-- Opens or closes a brace of the innermost embedded expression. -/
def nest (symbol : List Char) : Nesting → Nesting
  | [] => []
  | (block, depth) :: outer =>
    if symbol == ['{'] then (block, depth + 1) :: outer
    else if symbol == ['}'] then (block, depth - 1) :: outer
    else (block, depth) :: outer

/-- The lexeme at the front of a text that starts with no trivia. -/
def step (nesting : Nesting) : List Char → Option Step
  | [] => none
  | '"' :: '"' :: '"' :: cs =>
    stringStep ['"', '"', '"'] true .string .stringOpening nesting cs
  | '"' :: cs => stringStep ['"'] false .string .stringOpening nesting cs
  | '\'' :: '\'' :: _ => none
  | '\'' :: cs => (Scan.charBody cs).map fun (x, rest) => ⟨.character, '\'' :: x, rest, nesting⟩
  | c :: cs =>
    if Text.isNameStart c then
      let (x, rest) := cs.span Text.isNamePart
      some ⟨.word, c :: x, rest, nesting⟩
    else match Scan.number (c :: cs) with
      | some (kind, x, rest) => some ⟨.number kind, x, rest, nesting⟩
      | none =>
        match c, nesting with
        | '}', (block, 0) :: outer => stringStep ['}'] block .stringClosing .stringMiddle outer cs
        | _, _ =>
          (symbol? (c :: cs)).map fun (x, rest) => ⟨.symbol, x, rest, nest x nesting⟩

/-- The lexemes of a text that starts at byte `place`, and the trivia at its end. Every lexeme takes a
character, so the length of the text bounds their number. -/
def scan : Nat → Nat → Nesting → List Char → Option (List Lexeme × String)
  | 0, _, _, _ => none
  | fuel + 1, place, nesting, cs =>
    match Scan.trivia .blank cs with
    | none => none
    | some (tr, []) => some ([], String.ofList tr)
    | some (tr, c :: rest) =>
      match step nesting (c :: rest) with
      | none => none
      | some s =>
        let start := place + byteLength tr
        match scan fuel (start + byteLength s.text) s.nesting s.rest with
        | none => none
        | some (ls, trailing) =>
          some (⟨s.form, String.ofList tr, String.ofList s.text, start⟩ :: ls, trailing)

/-- Puts a text in front of the trivia of the first lexeme. -/
def prependTrivia (front : String) : List Lexeme × String → List Lexeme × String
  | ([], trailing) => ([], front ++ trailing)
  | (l :: ls, trailing) => ({ l with trivia := front ++ l.trivia } :: ls, trailing)

/-- A mark of the byte order, which may stand in front of a text. -/
def byteOrderMark : Char := Char.ofNat 0xFEFF

/-- The lexemes of a text and the trivia at its end. -/
def ofText? (s : String) : Option (List Lexeme × String) :=
  match s.toList with
  | [] => some ([], "")
  | c :: cs =>
    if c == byteOrderMark then
      (scan (cs.length + 1) c.utf8Size [] cs).map (prependTrivia (String.ofList [c]))
    else scan (cs.length + 2) 0 [] (c :: cs)

end Lexeme

end JavaRefactor.Java

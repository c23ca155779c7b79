import JavaRefactor.Java.Grammar
import JavaRefactor.Syntax.Tree
import JavaRefactor.Text.Position

/-!
# `Java.Parse` — from a text to its tree

## Contents
- **`parse?`**, the tree of a Java text.
- **`Diagnosis`** and **`diagnose`**, what is wrong with a text that is not Java: a missing `;`, `)` or
  `}` if one of them mends it, and otherwise the text as a whole.
-/

namespace JavaRefactor.Java

open Syntax (Node Tree Label)
open Text (Span Position)

/-- A bound for the depth at which `count` lexemes are read. -/
def depthBound (count : Nat) : Nat := 256 * (count + 4)

/-- The nodes of a whole file, where the lexemes are one. -/
def parseLexemes (ls : List Lexeme) : Option (List Node) :=
  match Production.run Grammar.table (depthBound ls.length) (.ref .program) [] ls with
  | some (nodes, []) => some nodes
  | _ => none

/-- The root over the nodes of a file, which covers the whole text. -/
def rootOf (source : String) (nodes : List Node) : Node :=
  .branch ⟨.named "program", none, ⟨0, source.utf8ByteSize⟩⟩ nodes

/-- The tree of a text, where the text is Java. -/
def parse? (source : String) : Option Tree :=
  match Lexeme.ofText? source with
  | none => none
  | some (ls, trailing) =>
    (parseLexemes ls).map fun nodes => ⟨source, rootOf source nodes, trailing⟩

/-! ## Diagnosis -/

/-- What is wrong at one place of a text. -/
structure Diagnosis where
  span : Span
  position : Position
  context : String
  message : String
  deriving Repr, Inhabited

/-- A text cut to at most fifty bytes. -/
def excerpt (s : String) : String :=
  if 50 < s.utf8ByteSize then String.ofList (s.toList.take 47) ++ "..." else s

/-- The symbols whose lack is told apart. -/
def mendingSymbols : List String := [";", ")", "\x7d"]

/-- The lexemes with a symbol put behind the first `n` of them. -/
def insertSymbol (ls : List Lexeme) (n : Nat) (symbol : String) : List Lexeme :=
  let place := ((ls.take n).getLast?.map Lexeme.stop).getD 0
  ls.take n ++ ⟨.symbol, "", symbol, place⟩ :: ls.drop n

/-- The last place, as a number of lexemes, where one symbol makes the lexemes a file. -/
def missingSymbol? (ls : List Lexeme) : Option (Nat × String) :=
  let places := (List.range (ls.length + 1)).reverse
  (places.flatMap fun n => mendingSymbols.map fun s => (n, s)).find? fun (n, s) =>
    (parseLexemes (insertSymbol ls n s)).isSome

/-- The diagnosis of a range of the text. -/
def diagnosisAt (source : String) (span : Span) (message : String) : Diagnosis :=
  ⟨span, Text.positionOf source span.start, excerpt (Text.slice source span), message⟩

/-- What is wrong with a text that is not Java. -/
def diagnoseFaulty (source : String) : Diagnosis :=
  match (Lexeme.ofText? source).bind fun (ls, _) => (missingSymbol? ls).map fun m => (ls, m) with
  | some (ls, n, symbol) =>
    let place := ((ls.take n).getLast?.map Lexeme.stop).getD 0
    diagnosisAt source ⟨place, place⟩ ("missing " ++ symbol)
  | none => diagnosisAt source ⟨0, source.utf8ByteSize⟩ "syntax error"

/-- All that is wrong with a text; nothing, where it is Java. -/
def diagnose (source : String) : List Diagnosis :=
  match parse? source with
  | some _ => []
  | none => [diagnoseFaulty source]

end JavaRefactor.Java

import JavaRefactor.Java.Lexeme
import JavaRefactor.Syntax.Node

/-!
# `Java.Production` — productions and how they read lexemes

A production reads a beginning of a list of lexemes and yields syntax nodes. Choice is ordered: an
alternative is taken when the ones before it fail. What is repeated is repeated as often as it can be.
Left recursion is written as growth: `grow a b` reads `a` and then `b` as often as it can be, where
`held` inside `b` stands for all nodes read so far.

## Contents
- **`Production σ`**, over symbols `σ` that name productions, and derived forms.
- **`Production.run`**, which reads lexemes; its first argument bounds the depth of the reading.
-/

namespace JavaRefactor.Java

open Syntax (Kind Label Node)
open Text (Span)

/-- A production over the symbols `σ`. -/
inductive Production (σ : Type) where
  /-- Reads nothing. -/
  | nothing
  /-- The lexeme with this text, as a leaf of this kind. -/
  | text (content : String) (kind : Kind)
  /-- A word that is not reserved, as a leaf of the named kind. -/
  | name (kind : String) (reserved : List String)
  /-- A number, as a leaf of the kind of its spelling. -/
  | number
  /-- A lexeme of a form, as a leaf of the named kind. -/
  | formed (form : Form) (kind : String)
  /-- Reads nothing, and holds where the next lexeme has no trivia. -/
  | tight
  /-- Reads nothing, and holds where no lexeme is left. -/
  | finish
  /-- One after the other. -/
  | seq (first second : Production σ)
  /-- The first, or else the second. -/
  | either (first second : Production σ)
  /-- As often as it can be read. -/
  | many (body : Production σ)
  /-- Gives the nodes a role. -/
  | field (role : String) (body : Production σ)
  /-- Makes the nodes the children of one of the named kind. -/
  | node (kind : String) (body : Production σ)
  /-- Melts the nodes into one leaf. -/
  | fuse (kind : Kind) (body : Production σ)
  /-- The production a symbol names. -/
  | ref (symbol : σ)
  /-- The nodes read so far in a growth. -/
  | held
  /-- Reads with the nodes of the first held in the second. -/
  | hold (first second : Production σ)
  /-- Replaces the held nodes as often as the body can be read. -/
  | regrow (body : Production σ)
  /-- Only where the body yields one node of a listed kind. -/
  | only (kinds : List String) (body : Production σ)
  /-- Only where the body yields one node that is of the kind `first` or starts with a node of it, at any
  depth inside nodes of the kind `within`. -/
  | starting (within first : String) (body : Production σ)
  /-- Reads nothing, and holds where the body can be read. -/
  | ahead (body : Production σ)
  /-- Reads nothing, and holds where the body cannot be read. -/
  | absent (body : Production σ)

namespace Production

variable {σ : Type}

instance : Append (Production σ) := ⟨seq⟩

instance : OrElse (Production σ) := ⟨fun a b => either a (b ())⟩

instance : Inhabited (Production σ) := ⟨nothing⟩

/-- A token, by its text. -/
def tok (content : String) : Production σ := text content (.token content)

/-- The brace that opens. -/
def openBrace : Production σ := tok "\x7b"

/-- The brace that closes. -/
def closeBrace : Production σ := tok "\x7d"

/-- A word that is a construct of its own, as a leaf of the named kind. -/
def word (kind content : String) : Production σ := text content (.named kind)

/-- The body or nothing. -/
def opt (body : Production σ) : Production σ := body <|> nothing

/-- As often as it can be read, at least once. -/
def many1 (body : Production σ) : Production σ := body ++ many body

/-- The body, then as often as it can be read a separator and the body again. -/
def sepBy (separator : String) (body : Production σ) : Production σ :=
  body ++ many (tok separator ++ body)

/-- The body between commas, at least once. -/
def commas (body : Production σ) : Production σ := sepBy "," body

/-- The first of several productions that can be read. -/
def choice : List (Production σ) → Production σ
  -- no node is of no kind, so this fails whatever is held and however deep it is read
  | [] => only [] held
  | [p] => p
  | p :: ps => either p (choice ps)

/-- One of several tokens. -/
def oneOf (contents : List String) : Production σ := choice (contents.map tok)

/-- Reads `first` and lets it grow by `step`. -/
def grow (first step : Production σ) : Production σ := hold first (regrow step)

/-! ## Reading -/

/-- The leaf that a lexeme becomes. -/
def leafOf (kind : Kind) (l : Lexeme) : Node :=
  .leaf ⟨kind, none, ⟨l.start, l.stop⟩⟩ l.trivia l.text

/-- The branch over the given children. -/
def branchOf (kind : String) (children : List Node) : Node :=
  .branch ⟨.named kind, none, Syntax.spanOf children⟩ children

/-- One leaf with the text of all the given nodes. -/
def fused (kind : Kind) (ns : List Node) : Option Node :=
  match Node.tokensAll ns with
  | .leaf _ tr t :: rest =>
    some (.leaf ⟨kind, none, Syntax.spanOf ns⟩ tr (t ++ Node.printAll rest))
  | _ => none

/-- Whether a list of nodes is a single node of a listed kind. -/
def isOnly (kinds : List String) : List Node → Bool
  | [n] => n.isNamed && kinds.contains n.kindName
  | _ => false

mutual

/-- Whether a node is of the kind `first` or starts with one, at any depth inside nodes of the kind
`within`. -/
def startsWith (within first : String) : Node → Bool
  | .leaf .. => false
  | .branch l cs => l.kind == .named first || (l.kind == .named within && headStartsWith within first cs)

/-- Whether the first of several nodes is so. -/
def headStartsWith (within first : String) : List Node → Bool
  | [] => false
  | n :: _ => startsWith within first n

end

/-- What a production reads, over the grammar `g` and with the nodes `h` held. -/
def run (g : σ → Production σ) :
    Nat → Production σ → List Node → List Lexeme → Option (List Node × List Lexeme)
  | 0, _, _, _ => none
  | _ + 1, .nothing, _, ls => some ([], ls)
  | _ + 1, .text s k, _, ls =>
    match ls with
    | l :: rest => if l.text == s then some ([leafOf k l], rest) else none
    | [] => none
  | _ + 1, .name k reserved, _, ls =>
    match ls with
    | l :: rest =>
      if l.form == .word && !reserved.contains l.text then some ([leafOf (.named k) l], rest)
      else none
    | [] => none
  | _ + 1, .number, _, ls =>
    match ls with
    | l :: rest =>
      match l.form with
      | .number k => some ([leafOf (.named k) l], rest)
      | _ => none
    | [] => none
  | _ + 1, .formed form k, _, ls =>
    match ls with
    | l :: rest => if l.form == form then some ([leafOf (.named k) l], rest) else none
    | [] => none
  | _ + 1, .tight, _, ls =>
    match ls with
    | l :: _ => if l.trivia.isEmpty then some ([], ls) else none
    | [] => none
  | _ + 1, .finish, _, ls => if ls.isEmpty then some ([], ls) else none
  | n + 1, .seq a b, h, ls =>
    match run g n a h ls with
    | none => none
    | some (xs, rest) =>
      match run g n b h rest with
      | none => none
      | some (ys, rest') => some (xs ++ ys, rest')
  | n + 1, .either a b, h, ls =>
    match run g n a h ls with
    | some r => some r
    | none => run g n b h ls
  | n + 1, .many a, h, ls =>
    match run g n a h ls with
    | none => some ([], ls)
    | some (xs, rest) =>
      match run g n (.many a) h rest with
      | none => none
      | some (ys, rest') => some (xs ++ ys, rest')
  | n + 1, .field role a, h, ls =>
    match run g n a h ls with
    | none => none
    | some (xs, rest) => some (xs.map (Node.withField role), rest)
  | n + 1, .node k a, h, ls =>
    match run g n a h ls with
    | none => none
    | some (xs, rest) => some ([branchOf k xs], rest)
  | n + 1, .fuse k a, h, ls =>
    match run g n a h ls with
    | none => none
    | some (xs, rest) => (fused k xs).map fun leaf => ([leaf], rest)
  | n + 1, .ref s, _, ls => run g n (g s) [] ls
  | _ + 1, .held, h, ls => some (h, ls)
  | n + 1, .hold a b, h, ls =>
    match run g n a h ls with
    | none => none
    | some (xs, rest) => run g n b xs rest
  | n + 1, .regrow a, h, ls =>
    match run g n a h ls with
    | none => some (h, ls)
    | some (xs, rest) => run g n (.regrow a) xs rest
  | n + 1, .only kinds a, h, ls =>
    match run g n a h ls with
    | none => none
    | some (xs, rest) => if isOnly kinds xs then some (xs, rest) else none
  | n + 1, .starting within first a, h, ls =>
    match run g n a h ls with
    | none => none
    | some (xs, rest) => if headStartsWith within first xs then some (xs, rest) else none
  | n + 1, .ahead a, h, ls =>
    match run g n a h ls with
    | none => none
    | some _ => some ([], ls)
  | n + 1, .absent a, h, ls =>
    match run g n a h ls with
    | none => some ([], ls)
    | some _ => none

end Production

end JavaRefactor.Java

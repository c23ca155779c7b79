import JavaRefactor.Syntax.Node

/-!
# `Syntax.Tree` — a text and its tree

## Contents
- **`Tree`**: the text, the root that covers all of it, and the trivia after the last token.
- **`Tree.textOf`**, the piece of the text a node covers, and **`Tree.print`**, the text put together
  from the leaves.
-/

namespace JavaRefactor.Syntax

open Text (Span)

/-- A text together with its syntax tree. -/
structure Tree where
  source : String
  root : Node
  trailing : String
  deriving Repr, Inhabited

namespace Tree

/-- The text in a range; empty where the range does not fall between characters. -/
def slice (t : Tree) (span : Span) : String := Text.slice t.source span

/-- The text a node covers. -/
def textOf (t : Tree) (n : Node) : String := t.slice n.span

/-- The tokens with their trivia, and what follows the last of them. -/
def print (t : Tree) : String := Node.printAll t.root.tokens ++ t.trailing

end Tree

end JavaRefactor.Syntax

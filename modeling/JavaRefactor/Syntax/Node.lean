import JavaRefactor.Syntax.Kind
import JavaRefactor.Text.Span

/-!
# `Syntax.Node` — nodes of a syntax tree

A leaf holds a token together with the *trivia* (blanks and comments) in front of it, so that the
leaves of a tree, read in order, spell the text it was read from. A branch holds its children in
order.

## Contents
- **`Node`** and what is read off a node: `kind`, `field`, `span`, `category`, `children`.
- **Leaves.** `tokens`, `print`, `normalized`.
- **Comparison.** `same`, equality of names of kinds and of token texts.
- **Traversal.** `size`, `listing` (pre-order, by recursion) and `preorder` (with a stack).
- **Look-up.** `withSpan?`, the innermost node with a given span.
-/

namespace JavaRefactor.Syntax

open Text (Span)

/-- What every node carries: its kind, the role it has in its parent, and its place. -/
structure Label where
  kind : Kind
  field : Option String
  span : Span
  deriving DecidableEq, Repr, Inhabited

/-- A node of a syntax tree. -/
inductive Node where
  | leaf (label : Label) (trivia text : String)
  | branch (label : Label) (children : List Node)
  deriving Repr, Inhabited

namespace Node

/-! ## Parts -/

/-- The label of a node. -/
def label : Node → Label
  | leaf l _ _ => l
  | branch l _ => l

/-- The kind of a node. -/
def kind (n : Node) : Kind := n.label.kind

/-- The name of the node's kind, or the text of the token it is. -/
def kindName (n : Node) : String := n.kind.name

/-- The role the node has in its parent. -/
def field (n : Node) : Option String := n.label.field

/-- The bytes the node covers. -/
def span (n : Node) : Span := n.label.span

/-- Whether the node is a construct and not a bare token. -/
def isNamed (n : Node) : Bool := n.kind.isNamed

/-- Whether the node is a leaf. -/
def isLeaf : Node → Bool
  | leaf .. => true
  | branch .. => false

/-- The text of a leaf. -/
def text? : Node → Option String
  | leaf _ _ t => some t
  | branch .. => none

/-- The text of a leaf; empty for a branch. -/
def leafText (n : Node) : String := n.text?.getD ""

/-- The children, in order. -/
def children : Node → List Node
  | leaf .. => []
  | branch _ cs => cs

/-- The children that are constructs. -/
def namedChildren (n : Node) : List Node := n.children.filter isNamed

/-- The first child with the given role. -/
def child? (n : Node) (role : String) : Option Node :=
  n.children.find? fun c => c.field == some role

/-- The group of constructs the node belongs to. -/
def category (n : Node) : Category := Category.ofKind n.kind n.leafText

/-- Whether the node is a construct with the given name. -/
def isKind (n : Node) (name : String) : Bool := n.kind == .named name

/-- Gives the node a role. -/
def withField (role : String) : Node → Node
  | leaf l tr t => leaf { l with field := some role } tr t
  | branch l cs => branch { l with field := some role } cs

/-! ## Leaves -/

mutual

/-- The leaves in order. -/
def tokens : Node → List Node
  | leaf l tr t => [leaf l tr t]
  | branch _ cs => tokensAll cs

/-- The leaves of several nodes in order. -/
def tokensAll : List Node → List Node
  | [] => []
  | n :: ns => tokens n ++ tokensAll ns

end

/-- The trivia and the text of a leaf. -/
def fullText : Node → String
  | leaf _ tr t => tr ++ t
  | branch .. => ""

/-- The texts of all leaves with their trivia, one after the other. -/
def printAll (leaves : List Node) : String :=
  String.join (leaves.map fullText)

/-- The text of the node, without the trivia in front of its first token. -/
def print (n : Node) : String :=
  match n.tokens with
  | [] => ""
  | first :: rest => first.leafText ++ printAll rest

/-- The token texts, one blank between any two. -/
def normalized (n : Node) : String :=
  String.intercalate " " (n.tokens.map leafText)

/-! ## Comparison -/

mutual

/-- Whether two nodes agree in token texts and in the names of their kinds, wherever they stand. -/
def same : Node → Node → Bool
  | leaf l _ t, leaf l' _ t' => l.kind.name == l'.kind.name && t == t'
  | branch l cs, branch l' cs' => l.kind.name == l'.kind.name && sameAll cs cs'
  | _, _ => false

/-- Whether two lists of nodes agree one by one. -/
def sameAll : List Node → List Node → Bool
  | [], [] => true
  | n :: ns, m :: ms => same n m && sameAll ns ms
  | _, _ => false

end

/-! ## Traversal -/

mutual

/-- The number of nodes. -/
def size : Node → Nat
  | leaf .. => 1
  | branch _ cs => 1 + sizeAll cs

/-- The number of nodes of several trees. -/
def sizeAll : List Node → Nat
  | [] => 0
  | n :: ns => size n + sizeAll ns

end

mutual

/-- The nodes in pre-order: a node, then what its children list. -/
def listing : Node → List Node
  | leaf l tr t => [leaf l tr t]
  | branch l cs => branch l cs :: listingAll cs

/-- The nodes of several trees in pre-order. -/
def listingAll : List Node → List Node
  | [] => []
  | n :: ns => listing n ++ listingAll ns

end

/-- Takes `fuel` nodes off a stack of pending trees, each replaced by its children. -/
def walk : Nat → List Node → List Node
  | 0, _ => []
  | _ + 1, [] => []
  | fuel + 1, n :: stack => n :: walk fuel (n.children ++ stack)

/-- The nodes in pre-order, visited with a stack of pending trees. -/
def preorder (n : Node) : List Node := walk n.size [n]

/-! ## Look-up -/

mutual

/-- The innermost node that covers exactly the span; subtrees that do not contain it are skipped. -/
def withSpan? (span : Span) : Node → Option Node
  | leaf l tr t =>
    if l.span.contains span then (if l.span = span then some (leaf l tr t) else none) else none
  | branch l cs =>
    if l.span.contains span then
      match withSpanAmong? span cs with
      | some n => some n
      | none => if l.span = span then some (branch l cs) else none
    else none

/-- The first answer of `withSpan?` among several trees. -/
def withSpanAmong? (span : Span) : List Node → Option Node
  | [] => none
  | n :: ns =>
    match withSpan? span n with
    | some m => some m
    | none => withSpanAmong? span ns

end

end Node

/-- The spans of neighbouring nodes put together. -/
def spanOf (ns : List Node) : Span :=
  match ns.head?, ns.getLast? with
  | some a, some b => ⟨a.span.start, b.span.stop⟩
  | _, _ => ⟨0, 0⟩

end JavaRefactor.Syntax

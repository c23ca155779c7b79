import JavaRefactor.Template.Metavariable
import JavaRefactor.Syntax.Node

/-!
# `Match.Binding` — what metavariables are bound to

## Contents
- **`Bound`**, a node or a run of siblings, with its `span`, `nodes` and `textIn`.
- **`Binding`** and **`Binding.insert?`**, which refuses a second value that differs from the first.
-/

namespace JavaRefactor

open Syntax (Node)
open Text (Span)

/-- What one metavariable is bound to. -/
inductive Bound where
  | node (value : Node)
  /-- Siblings in order; an empty run stands at the byte `anchor`. -/
  | run (nodes : List Node) (anchor : Nat)
  deriving Repr, Inhabited

namespace Bound

/-- The bound nodes. -/
def nodes : Bound → List Node
  | node n => [n]
  | run ns _ => ns

/-- The bytes that are covered. -/
def span : Bound → Span
  | node n => n.span
  | run [] anchor => ⟨anchor, anchor⟩
  | run (n :: ns) _ => Syntax.spanOf (n :: ns)

/-- The piece of the text that is covered. -/
def textIn (source : String) (v : Bound) : String := Text.slice source v.span

/-- Whether two values are of one shape and agree node by node. -/
def same : Bound → Bound → Bool
  | node n, node m => n.same m
  | run ns _, run ms _ => Node.sameAll ns ms
  | _, _ => false

end Bound

/-- Bound names with their values, in the order they were bound. -/
structure Binding where
  entries : List (String × Bound)
  deriving Repr, Inhabited

namespace Binding

/-- The binding of nothing. -/
def empty : Binding := ⟨[]⟩

/-- What a name is bound to. -/
def get? (b : Binding) (name : String) : Option Bound := b.entries.lookup name

/-- The node that a name is bound to. -/
def node? (b : Binding) (name : String) : Option Node :=
  match b.get? name with
  | some (.node n) => some n
  | _ => none

/-- The number of bound names. -/
def size (b : Binding) : Nat := b.entries.length

/-- Binds a name, unless it is bound to something else; the wildcard binds nothing. -/
def insert? (b : Binding) (name : String) (value : Bound) : Option Binding :=
  if name == Metavariable.wildcard then some b
  else match b.get? name with
    | none => some ⟨b.entries ++ [(name, value)]⟩
    | some known => if known.same value then some b else none

end Binding

end JavaRefactor

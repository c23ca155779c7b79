import JavaRefactor.Java.Precedence
import JavaRefactor.Match.Binding
import JavaRefactor.Template.Basic

/-!
# `Pass.Instance` — an after-template with its metavariables filled in

The text of the template is kept as it is; each metavariable is replaced by the text it is bound to, in
parentheses where they are needed and without its own where they are not.

## Contents
- **`Slot`** and **`slotsOf`**, the places of metavariables in a template.
- **`textForNode`**, the text of a node in a slot.
- **`instantiate`**.
-/

namespace JavaRefactor.Pass

open Syntax (Node Category)
open Text (Span slice)

/-- A place of a metavariable in a template. -/
structure Slot where
  node : Node
  parent : Option Node
  name : String
  deriving Repr, Inhabited

mutual

/-- The topmost places of metavariables in a node of a template. -/
def slotsOf (t : Template) (parent : Option Node) : Node → List Slot
  | .leaf l tr x =>
    match t.metavariableAt? (.leaf l tr x) with
    | some v => [⟨.leaf l tr x, parent, v.name⟩]
    | none => []
  | .branch l cs =>
    match t.metavariableAt? (.branch l cs) with
    | some v => [⟨.branch l cs, parent, v.name⟩]
    | none => slotsOfAll t (some (.branch l cs)) cs

/-- The topmost places of metavariables in several nodes. -/
def slotsOfAll (t : Template) (parent : Option Node) : List Node → List Slot
  | [] => []
  | n :: ns => slotsOf t parent n ++ slotsOfAll t parent ns

end

/-- Puts parentheses around a text. -/
def parenthesized (text : String) : String := s!"({text})"

/-- The expression inside a parenthesized one. -/
def insideParentheses? (n : Node) : Option Node :=
  if n.category = .parenthesized then n.namedChildren.head? else none

/-- The text of a node in the stead of a child of `parent`. -/
def textForNode (source : String) (parent slot n : Node) : String :=
  let bare := (insideParentheses? n).bind fun inner =>
    if Java.needsParentheses parent slot (Java.strength inner) then none
    else Text.slice? source inner.span
  match bare with
  | some text => text
  | none =>
    let text := slice source n.span
    if Java.needsParentheses parent slot (Java.strength n) then parenthesized text else text

/-- The text for a slot. -/
def Slot.fill (source : String) (s : Slot) : Bound → String
  | .node n =>
    match s.parent with
    | some parent => textForNode source parent s.node n
    | none => slice source n.span
  | .run ns anchor => (Bound.run ns anchor).textIn source

/-- The template's text from byte `place` to `stop`, with the slots filled in. -/
def fillSlots (text source : String) (b : Binding) (stop : Nat) :
    Nat → List Slot → Except Problem String
  | place, [] => .ok (slice text ⟨place, stop⟩)
  | place, s :: rest =>
    match b.get? s.name with
    | none => .error (.invariant (.unbound s.name))
    | some v =>
      (fillSlots text source b stop s.node.span.stop rest).map fun tail =>
        slice text ⟨place, s.node.span.start⟩ ++ s.fill source v ++ tail

/-- The text of a template whose metavariables are bound to pieces of `source`. -/
def instantiate (t : Template) (b : Binding) (source : String) : Except Problem String :=
  match t.roots with
  | [] => .error (.invariant .noRoot)
  | r :: rs =>
    let span := Syntax.spanOf (r :: rs)
    fillSlots t.tree.source source b span.stop span.start (slotsOfAll t none (r :: rs))

end JavaRefactor.Pass

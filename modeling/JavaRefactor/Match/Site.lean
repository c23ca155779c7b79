import JavaRefactor.Match.Unify

/-!
# `Match.Site` — the sites of a template in a tree

## Contents
- **`Site`**, a range with the binding of a match.
- **Single roots.** `sitesOfNode`: the outermost nodes that match, in pre-order.
- **Runs.** `sitesInChildren`: in each list of children, the shortest runs that match, from the left,
  and the sites inside the children that no run takes.
- **`Matcher.sites`**.
-/

namespace JavaRefactor

open Syntax (Node)
open Text (Span)

/-- A range that a template matches. -/
structure Site where
  span : Span
  binding : Binding
  deriving Repr, Inhabited

namespace Matcher

variable (m : Matcher) (accept : Binding → Bool)

/-- The accepted match of a node. -/
def accepted? (target : Node) : Option Binding :=
  match m.node? target with
  | some b => if accept b then some b else none
  | none => none

mutual

/-- The outermost nodes that match, in pre-order. -/
def sitesOfNode : Node → List Site
  | .leaf l tr t =>
    match m.accepted? accept (.leaf l tr t) with
    | some b => [⟨l.span, b⟩]
    | none => []
  | .branch l cs =>
    match m.accepted? accept (.branch l cs) with
    | some b => [⟨l.span, b⟩]
    | none => sitesOfNodes cs

/-- The outermost nodes that match below several nodes. -/
def sitesOfNodes : List Node → List Site
  | [] => []
  | n :: ns => sitesOfNode n ++ sitesOfNodes ns

end

/-- The accepted match of exactly the given siblings. -/
def window? (siblings : List Node) : Option Site :=
  match m.siblings? siblings with
  | some b => if accept b then some ⟨Syntax.spanOf siblings, b⟩ else none
  | none => none

/-- The shortest accepted run at the front of a list of siblings, which must start with a construct,
and its length. -/
def shortestRun? : List Node → Option (Nat × Site)
  | [] => none
  | c :: cs =>
    if c.isNamed then
      (List.range (cs.length + 1)).findSome? fun n =>
        (m.window? accept (c :: cs.take n)).map fun site => (n + 1, site)
    else none

mutual

/-- The runs of siblings that match, below a node. -/
def sitesInChildren : Node → List Site
  | .leaf .. => []
  | .branch _ cs => sitesInList 0 cs

/-- The runs that match in a list of siblings behind the first `skip`, and below those that no run
takes. -/
def sitesInList : Nat → List Node → List Site
  | _, [] => []
  | skip + 1, _ :: cs => sitesInList skip cs
  | 0, c :: cs =>
    match m.shortestRun? accept (c :: cs) with
    | some (n, site) => site :: sitesInList (n - 1) cs
    | none => sitesInChildren c ++ sitesInList 0 cs

end

/-- The sites whose bindings are accepted; none overlaps another. -/
def sitesWhere (root : Node) : List Site :=
  if m.template.isRun then m.sitesInChildren accept root else m.sitesOfNode accept root

/-- All sites. -/
def sites (root : Node) : List Site := m.sitesWhere (fun _ => true) root

end Matcher

end JavaRefactor

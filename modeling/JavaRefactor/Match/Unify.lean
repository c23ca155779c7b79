import JavaRefactor.Match.Binding
import JavaRefactor.Template.Basic
import JavaRefactor.Types.Oracle

/-!
# `Match.Unify` — a template against a candidate

A node of the template that stands for a metavariable matches what the metavariable may bind; any
other node matches a node of its kind whose text or children match. In a list of children, a run is
tried with each length, the shortest first. A match carries the binding along, so what a failed
attempt bound is forgotten.

## Contents
- **`Matcher`**, a template and what is known of the candidate's types.
- **`matchNode`**, **`matchList`**, by recursion on the template.
- **`Matcher.node?`** and **`Matcher.siblings?`**, which match a whole template.
-/

namespace JavaRefactor

open Syntax (Node)
open JavaRefactor.Types (Typing Constraint)

/-- A template to be found in a tree, and what is known of the types in it. -/
structure Matcher where
  template : Template
  typing : Typing
  deriving Inhabited

namespace Matcher

/-- Whether the types that a metavariable admits are those of a node. -/
def admits (m : Matcher) (v : Metavariable) (target : Node) : Bool :=
  match m.template.constraint v.name with
  | .any => true
  | c => c.admits (m.typing.typeOf target)

/-- Binds a metavariable to a node by itself. -/
def bindNode? (m : Matcher) (v : Metavariable) (target : Node) (b : Binding) : Option Binding :=
  match v.shape with
  | .single =>
    if target.isNamed && m.admits v target then b.insert? v.name (.node target) else none
  | .run => b.insert? v.name (.run [target] target.span.start)

/-- The metavariable for a run of siblings that a node of the template stands for. -/
def runAt? (m : Matcher) (p : Node) : Option Metavariable :=
  match m.template.metavariableAt? p with
  | some v => if v.shape == .run then some v else none
  | none => none

/-- Where an empty run stands that is followed by the given nodes, or else ends at byte `stop`. -/
def anchorOf (stop : Nat) : List Node → Nat
  | next :: _ => next.span.start
  | [] => stop

/-- Where the children of a node end; where the node starts if it has none. -/
def stopOf (start : Nat) (ns : List Node) : Nat :=
  match ns.getLast? with
  | some last => last.span.stop
  | none => start

mutual

/-- Matches a node of the template against a node. -/
def matchNode (m : Matcher) : Node → Node → Binding → Option Binding
  | .leaf l tr t, target, b =>
    match m.template.metavariableAt? (.leaf l tr t) with
    | some v => m.bindNode? v target b
    | none => if target.kind == l.kind && target.text? == some t then some b else none
  | .branch l ps, target, b =>
    match m.template.metavariableAt? (.branch l ps) with
    | some v => m.bindNode? v target b
    | none =>
      match target with
      | .leaf .. => none
      | .branch l' ts =>
        if l'.kind == l.kind then matchList m ps (stopOf l'.span.start ts) ts b else none

/-- Matches nodes of the template against all of a list of siblings that ends at byte `stop`. -/
def matchList (m : Matcher) : List Node → Nat → List Node → Binding → Option Binding
  | [], _, ts, b => if ts.isEmpty then some b else none
  | p :: ps, stop, ts, b =>
    match m.runAt? p with
    | some v =>
      (List.range (ts.length + 1)).findSome? fun n =>
        match b.insert? v.name (.run (ts.take n) (anchorOf stop ts)) with
        | none => none
        | some b' => matchList m ps stop (ts.drop n) b'
    | none =>
      match ts with
      | [] => none
      | t :: rest =>
        match matchNode m p t b with
        | none => none
        | some b' => matchList m ps stop rest b'

end

/-- Matches a template with one root against a node. -/
def node? (m : Matcher) (target : Node) : Option Binding :=
  match m.template.root? with
  | none => none
  | some root => m.matchNode root target .empty

/-- Matches the roots of a template against exactly the given siblings. -/
def siblings? (m : Matcher) (targets : List Node) : Option Binding :=
  let start := match targets with
    | t :: _ => t.span.start
    | [] => 0
  m.matchList m.template.roots (stopOf start targets) targets .empty

/-- Matches a template that is a run of siblings against exactly the given siblings. -/
def run? (m : Matcher) (targets : List Node) : Option Binding :=
  if m.template.isRun then m.siblings? targets else none

end Matcher

end JavaRefactor

import JavaRefactor.Match.Site
import JavaRefactor.Pass.Instance
import JavaRefactor.Rule.Basic
import JavaRefactor.Sorting
import JavaRefactor.Text.Edit

/-!
# `Pass.Occurrence` — the sites of a rule, and their replacement

## Contents
- **`Occurrence`** and **`occurrences`**: the sites of all before-templates, without those that overlap
  one found earlier, in the order they stand in.
- **`replacement`**, the edit for an occurrence.
- **`substitute`**, the text with all occurrences replaced.
-/

namespace JavaRefactor.Pass

open Syntax (Node Tree)
open Text (Span Edit)
open JavaRefactor.Types (Oracle)

/-- A site with the before-template that found it. -/
structure Occurrence where
  before : Template
  site : Site
  deriving Repr, Inhabited

/-- The range of an occurrence. -/
def Occurrence.span (o : Occurrence) : Span := o.site.span

/-- Adds an occurrence to those found earlier, unless it overlaps one of them. -/
def keepApart (found : List Occurrence) (o : Occurrence) : List Occurrence :=
  if found.any (·.span.overlaps o.span) then found else found ++ [o]

/-- The sites of a before-template whose bindings the rule accepts. -/
def occurrencesOf (r : Rule) (root : Node) (o : Oracle) (before : Template) : List Occurrence :=
  ((Matcher.mk before (.ofOracle o)).sitesWhere (r.accepts o) root).map (⟨before, ·⟩)

/-- The sites of a rule in a tree, in the order they stand in. -/
def occurrences (r : Rule) (t : Tree) (o : Oracle) : List Occurrence :=
  let found := r.templates.befores.flatMap (occurrencesOf r t.root o)
  sortBy (·.span.start) (found.foldl keepApart [])

/-- Two neighbours that overlap. -/
def overlap? : List Occurrence → Option (Occurrence × Occurrence)
  | a :: b :: rest => if a.span.overlaps b.span then some (a, b) else overlap? (b :: rest)
  | _ => none

mutual

/-- The first node below the given one with this kind and exactly this span, and its parent before it. -/
def withParent? (span : Span) (kind : String) : Node → Option (Node × Node)
  | .leaf .. => none
  | .branch l cs => withParentAmong? span kind (.branch l cs) cs

/-- The first such node among the children of `parent` and below them. -/
def withParentAmong? (span : Span) (kind : String) (parent : Node) :
    List Node → Option (Node × Node)
  | [] => none
  | c :: cs =>
    if c.span.contains span then
      if c.span = span && c.kindName == kind then some (parent, c)
      else match withParent? span kind c with
        | some found => some found
        | none => withParentAmong? span kind parent cs
    else withParentAmong? span kind parent cs

end

/-- Whether the after-template needs parentheses where the occurrence stands. -/
def needsWrapping (r : Rule) (t : Tree) (o : Occurrence) : Bool :=
  match o.before.root?, r.templates.after.root? with
  | some before, some after =>
    match withParent? o.span before.kindName t.root with
    | some (parent, n) => Java.needsParentheses parent n (Java.strength after)
    | none => false
  | _, _ => false

/-- The edit that replaces an occurrence. -/
def replacement (r : Rule) (t : Tree) (o : Occurrence) : Except Problem Edit :=
  (instantiate r.templates.after o.site.binding t.source).map fun text =>
    ⟨o.span, (if needsWrapping r t o then parenthesized text else text).toList⟩

/-- The text of a tree with the occurrences, which stand in order, replaced. The last one is replaced
first, so that of two that fail the later one is reported. -/
def substitute (r : Rule) (t : Tree) (os : List Occurrence) : Except Problem String :=
  match overlap? os with
  | some (a, b) => .error (.invariant (.overlap a.span b.span))
  | none => do
    let edits ← os.reverse.mapM (replacement r t)
    match Text.applyFromEnd edits.reverse t.source.toList with
    | some cs => .ok (String.ofList cs)
    | none => .error (.invariant .insideCharacter)

end JavaRefactor.Pass

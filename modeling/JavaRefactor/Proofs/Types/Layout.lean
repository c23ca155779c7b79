import JavaRefactor.Proofs.Syntax.Layout
import JavaRefactor.Types.Oracle

/-!
# `Proofs.Types.Layout` — types do not depend on the layout

Types are read off kinds, roles and token texts. So trees that are alike declare the same names with the same
types, and by these an expression has the type of its plain form.

## Contents
- **Declarations.** `declarationsOf_plain`, and `Typing.ofTree_eq`.
- **Inference.** `Oracle.typeOf_plain`, and `Typing.typeOf_eq`.
-/

namespace JavaRefactor.Types

open Syntax (Node Tree)

/-! ## Declarations -/

@[simp] theorem typeOfTypeNode_plain (n : Node) : typeOfTypeNode n.plain = typeOfTypeNode n := by
  simp only [typeOfTypeNode, Node.normalized_plain]

/-- What is asked of a child of a plain node is asked of the plain form of a child. -/
theorem bind_plain {α : Type} {f : Node → Option α} (hf : ∀ n : Node, f n.plain = f n)
    (x : Option Node) : (x.map Node.plain).bind f = x.bind f := by
  cases x with
  | none => rfl
  | some n => exact hf n

/-- The type that is written in a child. -/
theorem typeInChild_plain (n : Node) (role : String) :
    (n.plain.child? role).bind typeOfTypeNode = (n.child? role).bind typeOfTypeNode := by
  rw [Node.child?_plain, bind_plain typeOfTypeNode_plain]

@[simp] theorem textAt_plain (n : Node) (role : String) : textAt n.plain role = textAt n role := by
  unfold textAt
  rw [Node.child?_plain, bind_plain Node.text?_plain]

namespace Oracle

/-- **A node declares what its plain form declares.** -/
theorem declarationsOf_plain (n : Node) : declarationsOf n.plain = declarationsOf n := by
  have htyped := typeInChild_plain n "type"
  have hnamed : ∀ c : Node, (c.plain.child? "name").bind Node.text? = (c.child? "name").bind Node.text? :=
    fun c => textAt_plain c "name"
  have hdeclarators : n.plain.children.filter (·.isKind "variable_declarator") =
      (n.children.filter (·.isKind "variable_declarator")).map Node.plain := by
    simp [List.filter_map, Function.comp_def]
  have hcaught : ((n.plain.children.find? (·.isKind "catch_type")).bind (·.namedChildren.head?)).bind
      typeOfTypeNode = ((n.children.find? (·.isKind "catch_type")).bind (·.namedChildren.head?)).bind
      typeOfTypeNode := by
    rw [Node.children_plain, List.find?_map, Function.comp_def]
    simp only [Node.isKind_plain]
    cases n.children.find? (·.isKind "catch_type") with
    | none => rfl
    | some c =>
        show c.plain.namedChildren.head?.bind typeOfTypeNode = c.namedChildren.head?.bind typeOfTypeNode
        rw [Node.namedChildren_plain, List.head?_map, bind_plain typeOfTypeNode_plain]
  unfold declarationsOf
  simp only [htyped, hnamed, hdeclarators, hcaught, Node.kind_plain, List.filterMap_map,
    Function.comp_def]

/-- **Trees that are alike** declare the same names with the same types. -/
theorem ofTree_eq {t t' : Tree} (h : t.root.plain = t'.root.plain) : ofTree t = ofTree t' := by
  have hlisting : t.root.listing.map Node.plain = t'.root.listing.map Node.plain := by
    rw [← Node.listing_plain, ← Node.listing_plain, h]
  have hread : ∀ ns : List Node, ns.flatMap declarationsOf = (ns.map Node.plain).flatMap declarationsOf := by
    intro ns
    rw [List.flatMap_map]
    simp only [declarationsOf_plain]
  unfold ofTree
  rw [Node.preorder_eq_listing, Node.preorder_eq_listing, hread, hlisting, ← hread]

end Oracle

/-! ## Inference -/

/-- Nodes in plain form, each with its type. -/
def plainTyped (typed : List (Node × Option JavaType)) : List (Node × Option JavaType) :=
  typed.map fun e => (e.1.plain, e.2)

@[simp] theorem typeAt_plain (role : String) (typed : List (Node × Option JavaType)) :
    typeAt role (plainTyped typed) = typeAt role typed := by
  unfold typeAt plainTyped
  rw [List.find?_map]
  simp only [Function.comp_def, Node.field_plain]
  cases typed.find? (·.1.field == some role) with
  | none => rfl
  | some e => rfl

@[simp] theorem typeOfFirst_plain (typed : List (Node × Option JavaType)) :
    typeOfFirst (plainTyped typed) = typeOfFirst typed := by
  unfold typeOfFirst plainTyped
  rw [List.find?_map]
  simp only [Function.comp_def, Node.isNamed_plain]
  cases typed.find? (·.1.isNamed) with
  | none => rfl
  | some e => rfl

/-- A branch has the type of its plain form. -/
theorem typeOfBranch_plain (n : Node) (typed : List (Node × Option JavaType)) :
    typeOfBranch n.plain (plainTyped typed) = typeOfBranch n typed := by
  have htype := typeInChild_plain n "type"
  have hcount : (n.plain.child? "arguments").map (·.namedChildren.length) =
      (n.child? "arguments").map (·.namedChildren.length) := by
    rw [Node.child?_plain, Option.map_map]
    simp [Function.comp_def]
  have hempty : n.plain.namedChildren.isEmpty = n.namedChildren.isEmpty := by
    rw [Node.namedChildren_plain, List.isEmpty_map]
  have hobject : (n.plain.child? "object").isSome = (n.child? "object").isSome := by
    rw [Node.child?_plain, Option.isSome_map]
  simp only [typeOfBranch, Node.category_plain, Node.isKind_plain, typeAt_plain, typeOfFirst_plain,
    textAt_plain, htype, hcount, hempty, hobject]

namespace Oracle

mutual

/-- **An expression has the type of its plain form.** -/
theorem typeOf_plain (o : Oracle) : ∀ n : Node, o.typeOf n.plain = o.typeOf n
  | .leaf l tr t => by
      show o.typeOfLeaf (Node.leaf l tr t).plain = o.typeOfLeaf (Node.leaf l tr t)
      unfold typeOfLeaf
      rw [Node.category_plain, Node.leafText_plain]
  | .branch l cs => by
      show typeOfBranch (Node.branch l cs).plain (o.typesOf (Node.plainAll cs)) =
        typeOfBranch (.branch l cs) (o.typesOf cs)
      rw [typesOf_plain o cs, typeOfBranch_plain]

theorem typesOf_plain (o : Oracle) : ∀ ns : List Node,
    o.typesOf (Node.plainAll ns) = plainTyped (o.typesOf ns)
  | [] => rfl
  | n :: ns => by
      rw [Node.plainAll, typesOf, typesOf, typeOf_plain o n, typesOf_plain o ns]
      rfl

end

end Oracle

namespace Typing

variable {t t' : Tree} {n n' : Node}

/-- **What trees show of their types** is the same for trees that are alike. -/
theorem ofTree_eq (h : t.root.plain = t'.root.plain) : Typing.ofTree t = Typing.ofTree t' := by
  unfold ofTree
  rw [Oracle.ofTree_eq h]

/-- By the types of one file, expressions that are alike have the same type. -/
theorem typeOf_eq (t : Tree) (h : n.plain = n'.plain) :
    (Typing.ofTree t).typeOf n = (Typing.ofTree t).typeOf n' := by
  show (Oracle.ofTree t).typeOf n = (Oracle.ofTree t).typeOf n'
  rw [← Oracle.typeOf_plain, h, Oracle.typeOf_plain]

end Typing

end JavaRefactor.Types

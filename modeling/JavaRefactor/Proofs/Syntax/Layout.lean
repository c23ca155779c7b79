import JavaRefactor.Proofs.Syntax.Listing
import JavaRefactor.Proofs.Syntax.Same
import Mathlib.Data.List.Forall2

/-!
# `Proofs.Syntax.Layout` — trees that differ in their layout alone

The layout of a tree is its trivia and the places of its nodes. Two trees that are alike in all else are
equal when the layout is taken away; what a function reads off a node without its layout, it reads off both.
A node of the one tree has its counterpart in the other where that lists a node at the same position.

## Contents
- **`Node.alike`**, and **`alike_iff`**: equality of what is left by **`Node.plain`**.
- **Parts.** What is read off a node is read off its plain form.
- **`Counterpart`**, with `Counterpart.plain_eq` and `Counterpart.children`.
-/

namespace JavaRefactor.Syntax.Node

/-! ## Without the layout -/

mutual

/-- Whether two nodes agree in kinds, roles and token texts, whatever their layout. -/
def alike : Node → Node → Bool
  | leaf l _ t, leaf l' _ t' => l.kind == l'.kind && l.field == l'.field && t == t'
  | branch l cs, branch l' cs' => l.kind == l'.kind && l.field == l'.field && alikeAll cs cs'
  | _, _ => false

/-- Whether two lists of nodes do one by one. -/
def alikeAll : List Node → List Node → Bool
  | [], [] => true
  | n :: ns, m :: ms => alike n m && alikeAll ns ms
  | _, _ => false

end

/-- A label without its place. -/
def plainLabel (l : Label) : Label := ⟨l.kind, l.field, ⟨0, 0⟩⟩

theorem plainLabel_inj {l l' : Label} :
    plainLabel l = plainLabel l' ↔ l.kind = l'.kind ∧ l.field = l'.field := by
  simp [plainLabel]

mutual

/-- The node without its layout. -/
def plain : Node → Node
  | leaf l _ t => leaf (plainLabel l) "" t
  | branch l cs => branch (plainLabel l) (plainAll cs)

/-- The nodes without their layout. -/
def plainAll : List Node → List Node
  | [] => []
  | n :: ns => plain n :: plainAll ns

end

theorem plainAll_eq (ns : List Node) : plainAll ns = ns.map plain := by
  induction ns with
  | nil => rfl
  | cons n ns ih => rw [plainAll, ih, List.map_cons]

mutual

/-- **To be alike is to be equal** but for the layout. -/
theorem alike_iff : ∀ n m : Node, n.alike m = true ↔ n.plain = m.plain
  | .leaf l tr t, .leaf l' tr' t' => by simp [alike, plain, plainLabel_inj]
  | .leaf .., .branch .. => by simp [alike, plain]
  | .branch .., .leaf .. => by simp [alike, plain]
  | .branch l cs, .branch l' cs' => by
      simp [alike, plain, plainLabel_inj, alikeAll_iff cs cs']

theorem alikeAll_iff : ∀ ns ms : List Node, alikeAll ns ms = true ↔ plainAll ns = plainAll ms
  | [], [] => by simp [alikeAll]
  | [], m :: ms => by simp [alikeAll, plainAll]
  | n :: ns, [] => by simp [alikeAll, plainAll]
  | n :: ns, m :: ms => by simp [alikeAll, plainAll, alike_iff n m, alikeAll_iff ns ms]

end

/-! ## Parts -/

section Parts

variable (n : Node)

@[simp] theorem kind_plain : n.plain.kind = n.kind := by cases n <;> rfl

@[simp] theorem field_plain : n.plain.field = n.field := by cases n <;> rfl

@[simp] theorem isNamed_plain : n.plain.isNamed = n.isNamed := by simp [isNamed]

@[simp] theorem isKind_plain (name : String) : n.plain.isKind name = n.isKind name := by
  simp [isKind]

@[simp] theorem text?_plain : n.plain.text? = n.text? := by cases n <;> rfl

@[simp] theorem leafText_plain : n.plain.leafText = n.leafText := by simp [leafText]

@[simp] theorem category_plain : n.plain.category = n.category := by simp [category]

@[simp] theorem children_plain : n.plain.children = n.children.map plain := by
  cases n with
  | leaf l tr t => rfl
  | branch l cs => exact plainAll_eq cs

@[simp] theorem namedChildren_plain : n.plain.namedChildren = n.namedChildren.map plain := by
  simp [namedChildren, List.filter_map, Function.comp_def]

@[simp] theorem child?_plain (role : String) : n.plain.child? role = (n.child? role).map plain := by
  have hfield : (fun c : Node => c.field == some role) ∘ plain = fun c => c.field == some role := by
    funext c
    exact congrArg (· == some role) (field_plain c)
  unfold child?
  rw [children_plain, List.find?_map, hfield]

end Parts

mutual

theorem tokens_plain : ∀ n : Node, n.plain.tokens = n.tokens.map plain
  | .leaf .. => rfl
  | .branch _ cs => tokensAll_plain cs

theorem tokensAll_plain : ∀ ns : List Node, tokensAll (plainAll ns) = (tokensAll ns).map plain
  | [] => rfl
  | n :: ns => by
      rw [plainAll, tokensAll, tokensAll, tokens_plain n, tokensAll_plain ns, List.map_append]

end

@[simp] theorem normalized_plain (n : Node) : n.plain.normalized = n.normalized := by
  unfold normalized
  rw [tokens_plain, List.map_map]
  congr 2
  funext leaf
  exact leafText_plain leaf

mutual

theorem bare_plain : ∀ n : Node, n.plain.bare = n.bare
  | .leaf .. => rfl
  | .branch _ cs => by rw [plain, bare, bare, bareAll_plain cs]; rfl

theorem bareAll_plain : ∀ ns : List Node, bareAll (plainAll ns) = bareAll ns
  | [] => rfl
  | n :: ns => by rw [plainAll, bareAll, bareAll, bare_plain n, bareAll_plain ns]

end

mutual

theorem listing_plain : ∀ n : Node, n.plain.listing = n.listing.map plain
  | .leaf l tr t => rfl
  | .branch l cs => by
      show branch (plainLabel l) (plainAll cs) :: listingAll (plainAll cs) = _
      rw [listingAll_plain cs]
      rfl

theorem listingAll_plain : ∀ ns : List Node, listingAll (plainAll ns) = (listingAll ns).map plain
  | [] => rfl
  | n :: ns => by
      rw [plainAll, listingAll, listingAll, listing_plain n, listingAll_plain ns, List.map_append]

end

/-- Trees that are alike list equally many nodes. -/
theorem length_listing_eq {n m : Node} (h : n.plain = m.plain) :
    n.listing.length = m.listing.length := by
  have hmap := congrArg List.length (congrArg listing h)
  rw [listing_plain, listing_plain, List.length_map, List.length_map] at hmap
  exact hmap

/-! ## Counterparts -/

/-- Two trees have the two nodes at one position, in pre-order. -/
def Counterpart (root root' n n' : Node) : Prop :=
  ∃ i : Nat, root.preorder[i]? = some n ∧ root'.preorder[i]? = some n'

variable {root root' n n' : Node}

/-- The roots stand in front. -/
theorem counterpart_roots (root root' : Node) : Counterpart root root' root root' := by
  refine ⟨0, ?_, ?_⟩
  · rw [preorder_eq_listing, listing_eq]
    rfl
  · rw [preorder_eq_listing, listing_eq]
    rfl

/-- **Counterparts are alike**, if the trees are. -/
theorem Counterpart.plain_eq (hroots : root.plain = root'.plain)
    (h : Counterpart root root' n n') : n.plain = n'.plain := by
  obtain ⟨i, hi, hi'⟩ := h
  rw [preorder_eq_listing] at hi hi'
  have hlisting : root.listing.map plain = root'.listing.map plain := by
    rw [← listing_plain, ← listing_plain, hroots]
  have hat := congrArg (·[i]?) hlisting
  simp only [List.getElem?_map, hi, hi', Option.map_some] at hat
  exact Option.some.inj hat

/-- Nodes that are alike one by one, behind pieces of equal length, are counterparts one by one. -/
theorem counterparts_of_pieces {front front' rest rest' ns ns' : List Node}
    (h : root.listing = front ++ listingAll ns ++ rest)
    (h' : root'.listing = front' ++ listingAll ns' ++ rest')
    (hlength : front.length = front'.length) (hplain : ns.map plain = ns'.map plain) :
    List.Forall₂ (Counterpart root root') ns ns' := by
  induction ns generalizing front front' ns' with
  | nil =>
      obtain rfl : ns' = [] := List.map_eq_nil_iff.mp hplain.symm
      exact .nil
  | cons n ns ih =>
      obtain ⟨n', ns', rfl, hn, hns⟩ := List.map_eq_cons_iff.mp hplain.symm
      have hfront : root.listing = (front ++ n.listing) ++ listingAll ns ++ rest := by
        rw [h, listingAll]
        simp
      have hfront' : root'.listing = (front' ++ n'.listing) ++ listingAll ns' ++ rest' := by
        rw [h', listingAll]
        simp
      have hlengths : (front ++ n.listing).length = (front' ++ n'.listing).length := by
        rw [List.length_append, List.length_append, hlength, length_listing_eq hn]
      refine .cons ⟨front.length, ?_, ?_⟩ (ih hfront hfront' hlengths hns.symm)
      · rw [preorder_eq_listing, hfront, listing_eq n]
        simp
      · rw [preorder_eq_listing, hfront', listing_eq n', hlength]
        simp

/-- **The children of counterparts are counterparts**, one by one. -/
theorem Counterpart.children (hroots : root.plain = root'.plain)
    (h : Counterpart root root' n n') :
    List.Forall₂ (Counterpart root root') n.children n'.children := by
  have hplain := congrArg Node.children (h.plain_eq hroots)
  rw [children_plain, children_plain] at hplain
  obtain ⟨i, hi, hi'⟩ := h
  rw [preorder_eq_listing] at hi hi'
  obtain ⟨front, rest, hsplit, hlength⟩ := split_listing hi
  obtain ⟨front', rest', hsplit', hlength'⟩ := split_listing hi'
  -- the children of a node are listed right behind it
  have hbehind : root.listing = (front ++ [n]) ++ listingAll n.children ++ rest := by
    rw [hsplit, listing_eq n]
    simp
  have hbehind' : root'.listing = (front' ++ [n']) ++ listingAll n'.children ++ rest' := by
    rw [hsplit', listing_eq n']
    simp
  refine counterparts_of_pieces hbehind hbehind' ?_ hplain
  rw [List.length_append, List.length_append, hlength, hlength', List.length_singleton,
    List.length_singleton]

end JavaRefactor.Syntax.Node

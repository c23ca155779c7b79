import JavaRefactor.Proofs.Syntax.Listing
import JavaRefactor.Template.Place

/-!
# `Proofs.Syntax.Preorder` — walks over a tree agree

The walk with a stack takes as many rounds as the tree has nodes. What it visits is what the recursion lists:
the node at each place of the tree, in the order of the places. Its leaves are the tokens of the tree.

## Contents
- **`Walk`**, a walk that pushes the children of a node in reverse, with `Walk.step` and `Walk.after`;
  `Walk.after_sizeAll`, where a walk from any stack ends.
- **`places`**, the paths to the nodes of a tree: `map_nodeAt?_places`, `mem_places_iff` and
  `pairwise_places`.
- **`tokens_eq_filter`**.
- **`preorder_walks`**.
-/

namespace JavaRefactor.Syntax.Node

open Template (nodeAt?)

/-! ## With a stack -/

/-- Where a walk stands: the nodes it has visited, and those that are pending, of which the last is next. -/
structure Walk where
  visited : List Node
  pending : List Node

namespace Walk

/-- A walk that starts at a node. -/
def start (n : Node) : Walk := ⟨[], [n]⟩

/-- One round visits the last of the pending nodes and puts its children in its stead, the last one first.
    A walk with no node pending is over. -/
def step (w : Walk) : Option Walk :=
  match w.pending.getLast? with
  | none => none
  | some n => some ⟨w.visited ++ [n], w.pending.dropLast ++ n.children.reverse⟩

/-- Where a walk stands after some rounds, unless it is over before. -/
def after : Nat → Walk → Option Walk
  | 0, w => some w
  | rounds + 1, w => w.step.bind (after rounds)

theorem step_concat (out stack : List Node) (n : Node) :
    step ⟨out, stack ++ [n]⟩ = some ⟨out ++ [n], stack ++ n.children.reverse⟩ := by
  simp [step]

theorem step_eq_none_iff {w : Walk} : w.step = none ↔ w.pending = [] := by
  unfold step
  cases h : w.pending.getLast? with
  | none => simpa using h
  | some n =>
      have hne : w.pending ≠ [] := by
        rintro hnil
        rw [hnil] at h
        exact absurd h (by simp)
      simp [hne]

/-- **A walk from any stack** is over after as many rounds as there are nodes in the pending trees, and has
    visited what they list, from the last tree to the first. -/
theorem after_sizeAll (out stack : List Node) :
    after (sizeAll stack) ⟨out, stack.reverse⟩ = some ⟨out ++ listingAll stack, []⟩ := by
  induction hsize : sizeAll stack generalizing out stack with
  | zero =>
      cases stack with
      | nil => simp [after, listingAll]
      | cons n stack =>
          have hn := size_eq n
          rw [sizeAll] at hsize
          omega
  | succ rounds ih =>
      cases stack with
      | nil => exact absurd hsize (by simp [sizeAll])
      | cons n stack =>
          have hrest : sizeAll (n.children ++ stack) = rounds := by
            have hn := size_eq n
            rw [sizeAll] at hsize
            rw [sizeAll_append]
            omega
          rw [after, List.reverse_cons, step_concat, Option.bind_some, ← List.reverse_append,
            ih (out ++ [n]) (n.children ++ stack) hrest, listingAll_append, listingAll, listing_eq]
          simp

end Walk

/-! ## Places -/

mutual

/-- The paths of child numbers to the nodes of a tree. -/
def places : Node → List (List Nat)
  | .leaf .. => [[]]
  | .branch _ cs => [] :: placesAll 0 cs

/-- The paths to the nodes of several trees, of which the first has the given number. -/
def placesAll (first : Nat) : List Node → List (List Nat)
  | [] => []
  | n :: ns => (places n).map (first :: ·) ++ placesAll (first + 1) ns

end

theorem places_eq (n : Node) : n.places = [] :: placesAll 0 n.children := by
  cases n with
  | leaf l tr t => simp [places, placesAll, children]
  | branch l cs => simp [places, children]

/-- A path to a node of several trees leads into one of them. -/
theorem mem_placesAll {first : Nat} {ns : List Node} {path : List Nat} :
    path ∈ placesAll first ns ↔
      ∃ j n rest, ns[j]? = some n ∧ path = (first + j) :: rest ∧ rest ∈ n.places := by
  induction ns generalizing first with
  | nil => simp [placesAll]
  | cons m ns ih =>
      rw [placesAll, List.mem_append, List.mem_map, ih]
      constructor
      · rintro (⟨rest, hrest, rfl⟩ | ⟨j, n, rest, hn, rfl, hrest⟩)
        · exact ⟨0, m, rest, rfl, rfl, hrest⟩
        · exact ⟨j + 1, n, rest, hn, by rw [Nat.add_right_comm, Nat.add_assoc], hrest⟩
      · rintro ⟨j, n, rest, hn, rfl, hrest⟩
        cases j with
        | zero =>
            obtain rfl : m = n := Option.some.inj hn
            exact Or.inl ⟨rest, hrest, rfl⟩
        | succ j => exact Or.inr ⟨j, n, rest, hn, by rw [Nat.add_right_comm, Nat.add_assoc], hrest⟩

/-- **The places of a tree** are the paths that lead to a node of it. -/
theorem mem_places_iff {n : Node} {path : List Nat} :
    path ∈ n.places ↔ (nodeAt? n path).isSome = true := by
  induction path generalizing n with
  | nil => simp [places_eq, nodeAt?]
  | cons i path ih =>
      rw [places_eq, List.mem_cons, mem_placesAll, nodeAt?]
      constructor
      · rintro (h | ⟨j, c, rest, hc, hpath, hrest⟩)
        · exact absurd h (by simp)
        · rw [Nat.zero_add] at hpath
          obtain ⟨rfl, rfl⟩ := List.cons.inj hpath
          rw [hc]
          exact ih.mp hrest
      · intro h
        cases hc : n.children[i]? with
        | none =>
            rw [hc] at h
            exact absurd h (by simp)
        | some c =>
            rw [hc] at h
            exact Or.inr ⟨i, c, path, hc, by rw [Nat.zero_add], ih.mpr h⟩

mutual

/-- **In the order of the places** a tree has the nodes that it lists. -/
theorem map_nodeAt?_places : ∀ n : Node, n.places.map (nodeAt? n) = n.listing.map some
  | .leaf l tr t => by simp [places, listing, nodeAt?]
  | .branch l cs => by
      rw [places, listing, List.map_cons, List.map_cons,
        map_nodeAt?_placesAll (.branch l cs) cs fun j => by rw [Nat.zero_add]; rfl]
      rfl

/-- What several trees list, where they are the last children of a node. -/
theorem map_nodeAt?_placesAll (root : Node) : ∀ (ns : List Node) {first : Nat},
    (∀ j, root.children[first + j]? = ns[j]?) →
    (placesAll first ns).map (nodeAt? root) = (listingAll ns).map some
  | [], _, _ => rfl
  | n :: ns, first, hroot => by
      have hbelow : nodeAt? root ∘ (first :: ·) = nodeAt? n := by
        funext path
        have hn : root.children[first]? = some n := hroot 0
        show nodeAt? root (first :: path) = nodeAt? n path
        rw [nodeAt?, hn]
      have hrest : ∀ j, root.children[first + 1 + j]? = ns[j]? := by
        intro j
        rw [Nat.add_right_comm]
        exact hroot (j + 1)
      rw [placesAll, listingAll, List.map_append, List.map_append, List.map_map, hbelow,
        map_nodeAt?_places n, map_nodeAt?_placesAll root ns hrest]

end

mutual

/-- **The places stand in order**: a node in front of those below it, and what is below a child in front of
    what is below a later one. -/
theorem pairwise_places : ∀ n : Node, n.places.Pairwise (· < ·)
  | .leaf l tr t => by simp [places]
  | .branch l cs => by
      rw [places, List.pairwise_cons]
      refine ⟨?_, pairwise_placesAll cs 0⟩
      intro path hpath
      obtain ⟨j, c, rest, -, rfl, -⟩ := mem_placesAll.mp hpath
      exact List.nil_lt_cons _ _

theorem pairwise_placesAll : ∀ (ns : List Node) (first : Nat), (placesAll first ns).Pairwise (· < ·)
  | [], _ => List.Pairwise.nil
  | n :: ns, first => by
      rw [placesAll, List.pairwise_append, List.pairwise_map]
      refine ⟨?_, pairwise_placesAll ns (first + 1), ?_⟩
      · exact (pairwise_places n).imp fun h => List.cons_lt_cons_self.mpr h
      · intro path hpath path' hpath'
        obtain ⟨rest, -, rfl⟩ := List.mem_map.mp hpath
        obtain ⟨j, c, rest', -, rfl, -⟩ := mem_placesAll.mp hpath'
        exact List.cons_lt_cons_iff.mpr (Or.inl (by omega))

end

/-! ## Tokens -/

mutual

/-- **The tokens are the leaves** that are listed. -/
theorem tokens_eq_filter : ∀ n : Node, n.tokens = n.listing.filter isLeaf
  | .leaf .. => rfl
  | .branch l cs => by
      rw [tokens, listing, List.filter_cons_of_neg (by simp [isLeaf]), tokensAll_eq_filter cs]

theorem tokensAll_eq_filter : ∀ ns : List Node, tokensAll ns = (listingAll ns).filter isLeaf
  | [] => rfl
  | n :: ns => by
      rw [tokensAll, listingAll, List.filter_append, tokens_eq_filter n, tokensAll_eq_filter ns]

end

/-! ## All of them -/

/-- **Walks over a tree agree.** The walk with a stack is over after as many rounds as the tree has nodes. It has
    then visited what the recursion lists: the nodes at all paths of child numbers that lead to one, each
    path once and the paths in their lexicographic order, in which a path stands in front of those that go
    on from it. The leaves among them are the tokens of the tree. -/
theorem preorder_walks (n : Node) :
    (Walk.start n).after n.size = some ⟨n.preorder, []⟩ ∧
    (⟨n.preorder, []⟩ : Walk).step = none ∧
    n.preorder = n.listing ∧
    (∃ paths : List (List Nat), paths.Pairwise (· < ·) ∧
      (∀ path, path ∈ paths ↔ (nodeAt? n path).isSome = true) ∧
      paths.map (nodeAt? n) = n.preorder.map some) ∧
    n.tokens = n.preorder.filter isLeaf := by
  rw [preorder_eq_listing]
  refine ⟨?_, Walk.step_eq_none_iff.mpr rfl, rfl, ?_, tokens_eq_filter n⟩
  · have hwalk := Walk.after_sizeAll [] [n]
    simpa [sizeAll, listingAll, Walk.start] using hwalk
  · exact ⟨n.places, pairwise_places n, fun _ => mem_places_iff, map_nodeAt?_places n⟩

end JavaRefactor.Syntax.Node

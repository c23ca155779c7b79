import JavaRefactor.Syntax.Node

/-!
# `Proofs.Syntax.Listing` — nodes in pre-order

The walk with a stack lists the same nodes as the recursion on the tree, and what a node lists stands in one
piece of what the tree lists.

## Contents
- **`preorder_eq_listing`**.
- **Membership.** `mem_listingAll_iff`, `mem_listing_of_mem_children` and `mem_listing_trans`; tokens,
  `mem_listing_of_mem_tokens`.
- **`split_listing`**: the nodes of a subtree follow its root.
-/

namespace JavaRefactor.Syntax.Node

/-! ## With a stack and by recursion -/

theorem listing_eq (n : Node) : n.listing = n :: listingAll n.children := by
  cases n with
  | leaf l tr t => simp [listing, listingAll, children]
  | branch l cs => simp [listing, children]

theorem size_eq (n : Node) : n.size = 1 + sizeAll n.children := by
  cases n with
  | leaf l tr t => simp [size, sizeAll, children]
  | branch l cs => simp [size, children]

theorem listingAll_append (ns ms : List Node) :
    listingAll (ns ++ ms) = listingAll ns ++ listingAll ms := by
  induction ns with
  | nil => rfl
  | cons n ns ih => simp [listingAll, ih]

theorem sizeAll_append (ns ms : List Node) : sizeAll (ns ++ ms) = sizeAll ns + sizeAll ms := by
  induction ns with
  | nil => simp [sizeAll]
  | cons n ns ih =>
      show n.size + sizeAll (ns ++ ms) = n.size + sizeAll ns + sizeAll ms
      rw [ih, Nat.add_assoc]

/-- With steps for all nodes that are pending, the walk lists them all. -/
theorem walk_eq_listingAll {fuel : Nat} {stack : List Node} (h : sizeAll stack ≤ fuel) :
    walk fuel stack = listingAll stack := by
  induction fuel generalizing stack with
  | zero =>
      cases stack with
      | nil => rfl
      | cons n stack =>
          have hsize := size_eq n
          have hcons : sizeAll (n :: stack) = n.size + sizeAll stack := rfl
          omega
  | succ fuel ih =>
      cases stack with
      | nil => rfl
      | cons n stack =>
          have hfuel : sizeAll (n.children ++ stack) ≤ fuel := by
            have hsize := size_eq n
            have hcons : sizeAll (n :: stack) = n.size + sizeAll stack := rfl
            rw [sizeAll_append]
            omega
          show n :: walk fuel (n.children ++ stack) = n.listing ++ listingAll stack
          rw [ih hfuel, listingAll_append, listing_eq, List.cons_append]

/-- **Both ways list the same nodes.** -/
theorem preorder_eq_listing (n : Node) : n.preorder = n.listing := by
  have hsize : sizeAll [n] ≤ n.size := by simp [sizeAll]
  show walk n.size [n] = n.listing
  rw [walk_eq_listingAll hsize]
  simp [listingAll]

/-! ## Membership -/

theorem mem_listing_self (n : Node) : n ∈ n.listing := by
  cases n with
  | leaf => simp [listing]
  | branch => simp [listing]

/-- What some trees list is what one of them does. -/
theorem mem_listingAll_iff {k : Node} {ns : List Node} :
    k ∈ listingAll ns ↔ ∃ n ∈ ns, k ∈ n.listing := by
  induction ns with
  | nil => simp [listingAll]
  | cons m ms ih => simp [listingAll, ih]

theorem mem_listingAll {n k : Node} {ns : List Node} (hn : n ∈ ns) (hk : k ∈ n.listing) :
    k ∈ listingAll ns :=
  mem_listingAll_iff.mpr ⟨n, hn, hk⟩

theorem mem_listing_of_mem_children {n c : Node} (h : c ∈ n.children) : c ∈ n.listing := by
  rw [listing_eq]
  exact List.mem_cons_of_mem n (mem_listingAll h (mem_listing_self c))

mutual

/-- A node below a node of the tree is in the tree. -/
theorem mem_listing_trans : ∀ {n k c : Node}, k ∈ n.listing → c ∈ k.listing → c ∈ n.listing
  | .leaf l tr t, k, c, hk, hc => by
      rw [listing, List.mem_singleton] at hk
      subst hk
      exact hc
  | .branch l cs, k, c, hk, hc => by
      rw [listing, List.mem_cons] at hk
      rcases hk with rfl | hk
      · exact hc
      · exact List.mem_cons_of_mem _ (mem_listingAll_trans hk hc)

theorem mem_listingAll_trans : ∀ {ns : List Node} {k c : Node}, k ∈ listingAll ns →
    c ∈ k.listing → c ∈ listingAll ns
  | [], _, _, hk, _ => absurd hk (by simp [listingAll])
  | n :: ns, k, c, hk, hc => by
      rw [listingAll, List.mem_append] at hk ⊢
      rcases hk with hk | hk
      · exact Or.inl (mem_listing_trans hk hc)
      · exact Or.inr (mem_listingAll_trans hk hc)

end

mutual

/-- A token of a node is a leaf of it. -/
theorem mem_listing_of_mem_tokens : ∀ {n k : Node}, k ∈ n.tokens → k ∈ n.listing ∧ k.isLeaf = true
  | .leaf l tr t, k, h => by
      rw [tokens, List.mem_singleton] at h
      subst h
      exact ⟨mem_listing_self _, rfl⟩
  | .branch l cs, k, h => by
      obtain ⟨hmem, hleaf⟩ := mem_listingAll_of_mem_tokensAll h
      exact ⟨List.mem_cons_of_mem _ hmem, hleaf⟩

theorem mem_listingAll_of_mem_tokensAll : ∀ {ns : List Node} {k : Node}, k ∈ tokensAll ns →
    k ∈ listingAll ns ∧ k.isLeaf = true
  | [], _, h => absurd h (by simp [tokensAll])
  | n :: ns, k, h => by
      rw [tokensAll, List.mem_append] at h
      rw [listingAll, List.mem_append]
      rcases h with h | h
      · obtain ⟨hmem, hleaf⟩ := mem_listing_of_mem_tokens h
        exact ⟨Or.inl hmem, hleaf⟩
      · obtain ⟨hmem, hleaf⟩ := mem_listingAll_of_mem_tokensAll h
        exact ⟨Or.inr hmem, hleaf⟩

end

/-! ## Subtrees -/

mutual

/-- **A subtree in a list of nodes**: its nodes stand behind each other, from its root on. -/
theorem split_listing : ∀ {root n : Node} {i : Nat}, root.listing[i]? = some n →
    ∃ front rest, root.listing = front ++ n.listing ++ rest ∧ front.length = i
  | .leaf l tr t, n, i, h => by
      cases i with
      | zero =>
          obtain rfl : Node.leaf l tr t = n := Option.some.inj h
          exact ⟨[], [], by simp, rfl⟩
      | succ i => exact absurd h (by simp [listing])
  | .branch l cs, n, i, h => by
      cases i with
      | zero =>
          obtain rfl : Node.branch l cs = n := Option.some.inj h
          exact ⟨[], [], by simp, rfl⟩
      | succ i =>
          have hbelow : (listingAll cs)[i]? = some n := h
          obtain ⟨front, rest, hsplit, hlength⟩ := split_listingAll hbelow
          refine ⟨.branch l cs :: front, rest, ?_, by rw [List.length_cons, hlength]⟩
          rw [listing, hsplit]
          rfl

theorem split_listingAll : ∀ {roots : List Node} {n : Node} {i : Nat},
    (listingAll roots)[i]? = some n →
    ∃ front rest, listingAll roots = front ++ n.listing ++ rest ∧ front.length = i
  | [], n, i, h => absurd h (by simp [listingAll])
  | root :: roots, n, i, h => by
      rw [listingAll] at h ⊢
      by_cases hi : i < root.listing.length
      · rw [List.getElem?_append_left hi] at h
        obtain ⟨front, rest, hsplit, hlength⟩ := split_listing h
        exact ⟨front, rest ++ listingAll roots, by rw [hsplit]; simp, hlength⟩
      · have hle : root.listing.length ≤ i := Nat.le_of_not_lt hi
        rw [List.getElem?_append_right hle] at h
        obtain ⟨front, rest, hsplit, hlength⟩ := split_listingAll h
        refine ⟨root.listing ++ front, rest, by rw [hsplit]; simp, ?_⟩
        rw [List.length_append, hlength]
        omega

end

end JavaRefactor.Syntax.Node

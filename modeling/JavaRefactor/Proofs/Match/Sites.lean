import JavaRefactor.Match.Site
import JavaRefactor.Proofs.Syntax.Listing

/-!
# `Proofs.Match.Sites` — the sites of a template are matches

A site stands where a node of the tree does that the matcher accepts, or where some neighbouring children of
a node do.

## Contents
- **`Matcher.Returns`**, the bindings a matcher returns for whole templates.
- **`Node.HasRun`**, neighbouring children of a node in a tree.
- **Runs.** `shortestRun?_eq_some`, what the search takes at a child, and **`ShortestIn`**, that somewhere in a tree.
- **`mem_sitesOfNode`**, **`mem_sitesInChildren`**, by recursion on the tree, and `origin_of_mem_sitesWhere`.
- **`mem_sitesWhere`**: a site carries an accepted binding that the matcher returns; and
  **`span_of_mem_sitesWhere`**, where it stands.
-/

namespace JavaRefactor

open Syntax (Node spanOf)

/-! ## Nodes of a tree -/

/-- The nodes are neighbouring children of one node in the tree, and at least one. -/
def Syntax.Node.HasRun (root : Node) (xs : List Node) : Prop :=
  ∃ p ∈ root.listing, xs <:+: p.children ∧ xs ≠ []

namespace Matcher

variable {m : Matcher} {accept : Binding → Bool}

/-! ## Accepted matches -/

/-- The bindings that a matcher returns for a template: those of nodes where the template has one root,
    those of siblings where it is a run of them. -/
def Returns (m : Matcher) (b : Binding) : Prop :=
  (∃ n, m.node? n = some b) ∨ (∃ ns, m.run? ns = some b)

theorem node?_of_accepted? {n : Node} {b : Binding} (h : m.accepted? accept n = some b) :
    m.node? n = some b ∧ accept b = true := by
  unfold accepted? at h
  cases hn : m.node? n with
  | none => rw [hn] at h; exact absurd h (by simp)
  | some b' =>
      rw [hn] at h
      by_cases ha : accept b' = true
      · simp only [ha, if_true, Option.some.injEq] at h
        exact ⟨congrArg some h, h ▸ ha⟩
      · simp [ha] at h

theorem siblings?_of_window? {xs : List Node} {s : Site} (h : m.window? accept xs = some s) :
    m.siblings? xs = some s.binding ∧ accept s.binding = true ∧ s.span = spanOf xs := by
  unfold window? at h
  cases hb : m.siblings? xs with
  | none => rw [hb] at h; exact absurd h (by simp)
  | some b =>
      rw [hb] at h
      by_cases ha : accept b = true
      · simp only [ha, if_true, Option.some.injEq] at h
        subst h
        exact ⟨rfl, ha, rfl⟩
      · simp [ha] at h

/-! ## Single roots -/

/-- The sites in a node: the node itself, or else those below its children. -/
theorem sitesOfNode_eq (n : Node) : m.sitesOfNode accept n =
    match m.accepted? accept n with
    | some b => [⟨n.span, b⟩]
    | none => m.sitesOfNodes accept n.children := by
  cases n with
  | leaf l tr t =>
      rw [sitesOfNode]
      rfl
  | branch l cs =>
      rw [sitesOfNode]
      rfl

mutual

/-- A site below a node is an accepted match of a node there. -/
theorem mem_sitesOfNode : ∀ {n : Node} {s : Site}, s ∈ m.sitesOfNode accept n →
    ∃ k ∈ n.listing, m.accepted? accept k = some s.binding ∧ s.span = k.span
  | .leaf l tr t, s, h => by
      unfold sitesOfNode at h
      cases ha : m.accepted? accept (.leaf l tr t) with
      | none => rw [ha] at h; exact absurd h (by simp)
      | some b =>
          rw [ha, List.mem_singleton] at h
          subst h
          exact ⟨_, Node.mem_listing_self _, ha, rfl⟩
  | .branch l cs, s, h => by
      unfold sitesOfNode at h
      cases ha : m.accepted? accept (.branch l cs) with
      | none =>
          rw [ha] at h
          obtain ⟨k, hk, hs⟩ := mem_sitesOfNodes h
          exact ⟨k, by simp [Node.listing, hk], hs⟩
      | some b =>
          rw [ha, List.mem_singleton] at h
          subst h
          exact ⟨_, Node.mem_listing_self _, ha, rfl⟩

theorem mem_sitesOfNodes : ∀ {ns : List Node} {s : Site}, s ∈ m.sitesOfNodes accept ns →
    ∃ k ∈ Node.listingAll ns, m.accepted? accept k = some s.binding ∧ s.span = k.span
  | [], s, h => absurd h (by simp [sitesOfNodes])
  | n :: ns, s, h => by
      unfold sitesOfNodes at h
      rw [Node.listingAll]
      rcases List.mem_append.mp h with h | h
      · obtain ⟨k, hk, hs⟩ := mem_sitesOfNode h
        exact ⟨k, List.mem_append_left _ hk, hs⟩
      · obtain ⟨k, hk, hs⟩ := mem_sitesOfNodes h
        exact ⟨k, List.mem_append_right _ hk, hs⟩

end

/-! ## Runs -/

/-- The first number for which a search among numbers finds something. -/
theorem findSome?_range {α : Type} {f : Nat → Option α} {n : Nat} {x : α}
    (h : (List.range n).findSome? f = some x) : ∃ k < n, f k = some x ∧ ∀ j < k, f j = none := by
  obtain ⟨front, k, rest, hrange, hk, hnone⟩ := List.findSome?_eq_some_iff.mp h
  have hmem : ∀ j, j ∈ front ++ k :: rest ↔ j < n := by
    intro j
    rw [← hrange, List.mem_range]
  have hkn : k < n := (hmem k).mp (by simp)
  refine ⟨k, hkn, hk, ?_⟩
  intro j hj
  -- the numbers are in order, so that a smaller one is in front
  have hsorted : (front ++ k :: rest).Pairwise (· < ·) := by
    rw [← hrange]
    exact List.pairwise_lt_range
  have hbehind : ∀ i ∈ rest, k < i := (List.pairwise_cons.mp (List.pairwise_append.mp hsorted).2.1).1
  rcases List.mem_append.mp ((hmem j).mpr (Nat.lt_trans hj hkn)) with hfront | hrest
  · exact hnone j hfront
  · rcases List.mem_cons.mp hrest with rfl | hrest
    · exact absurd hj (Nat.lt_irrefl j)
    · exact absurd hj (Nat.not_lt_of_gt (hbehind j hrest))

/-- **The shortest run** starts with a construct, is as long as it says, and is an accepted match, which no
    shorter run is. -/
theorem shortestRun?_eq_some {ns : List Node} {k : Nat} {s : Site}
    (h : m.shortestRun? accept ns = some (k, s)) :
    (∃ c cs, ns = c :: cs ∧ c.isNamed = true) ∧ 0 < k ∧ m.window? accept (ns.take k) = some s ∧
      ∀ j, 0 < j → j < k → m.window? accept (ns.take j) = none := by
  cases ns with
  | nil => exact absurd h (by simp [shortestRun?])
  | cons c cs =>
      rw [shortestRun?] at h
      by_cases hc : c.isNamed = true
      · rw [if_pos hc] at h
        obtain ⟨n, -, hn, hnone⟩ := findSome?_range h
        obtain ⟨s', hw, he⟩ := Option.map_eq_some_iff.mp hn
        obtain ⟨rfl, rfl⟩ := Prod.mk.inj he
        refine ⟨⟨c, cs, rfl, hc⟩, Nat.succ_pos n, hw, ?_⟩
        intro j hpos hj
        obtain ⟨i, rfl⟩ : ∃ i, j = i + 1 := ⟨j - 1, by omega⟩
        exact Option.map_eq_none_iff.mp (hnone i (by omega))
      · rw [if_neg hc] at h
        exact absurd h (by simp)

theorem window?_of_shortestRun? {ns : List Node} {k : Nat} {s : Site}
    (h : m.shortestRun? accept ns = some (k, s)) :
    m.window? accept (ns.take k) = some s ∧ 0 < k ∧ ns.take k ≠ [] := by
  obtain ⟨⟨c, cs, rfl, -⟩, hpos, hw, -⟩ := shortestRun?_eq_some h
  refine ⟨hw, hpos, ?_⟩
  intro hnil
  rcases List.take_eq_nil_iff.mp hnil with hk | hnone
  · exact Nat.ne_of_gt hpos hk
  · exact absurd hnone (by simp)

/-- The site is the shortest run at a child of a node in the tree. -/
def ShortestIn (m : Matcher) (accept : Binding → Bool) (root : Node) (s : Site) : Prop :=
  ∃ p ∈ root.listing, ∃ rest k, rest <:+ p.children ∧ m.shortestRun? accept rest = some (k, s)

theorem ShortestIn.exists_run {root : Node} {s : Site} (h : m.ShortestIn accept root s) :
    ∃ xs, root.HasRun xs ∧ m.window? accept xs = some s := by
  obtain ⟨p, hp, rest, k, hrest, hrun⟩ := h
  obtain ⟨hw, -, hne⟩ := window?_of_shortestRun? hrun
  exact ⟨rest.take k, ⟨p, hp, (List.take_prefix k rest).isInfix.trans hrest.isInfix, hne⟩, hw⟩

/-- What stands in a list of siblings, or below one of them, does so in a longer list. -/
theorem shortest_of_cons (n : Node) {ns : List Node} {s : Site}
    (h : (∃ rest k, rest <:+ ns ∧ m.shortestRun? accept rest = some (k, s)) ∨
      ∃ c ∈ ns, m.ShortestIn accept c s) :
    (∃ rest k, rest <:+ n :: ns ∧ m.shortestRun? accept rest = some (k, s)) ∨
      ∃ c ∈ n :: ns, m.ShortestIn accept c s := by
  rcases h with ⟨rest, k, hrest, hs⟩ | ⟨c, hc, hs⟩
  · exact Or.inl ⟨rest, k, hrest.trans (List.suffix_cons n ns), hs⟩
  · exact Or.inr ⟨c, List.mem_cons_of_mem n hc, hs⟩

mutual

/-- A site among the children in a tree is the shortest run at one of them. -/
theorem mem_sitesInChildren : ∀ {n : Node} {s : Site}, s ∈ m.sitesInChildren accept n →
    m.ShortestIn accept n s
  | .leaf .., s, h => absurd h (by simp [sitesInChildren])
  | .branch l cs, s, h => by
      unfold sitesInChildren at h
      rcases mem_sitesInList h with ⟨rest, k, hrest, hs⟩ | ⟨c, hc, p, hp, hs⟩
      · exact ⟨.branch l cs, Node.mem_listing_self _, rest, k, hrest, hs⟩
      · exact ⟨p, by simp [Node.listing, Node.mem_listingAll hc hp], hs⟩

/-- A site in a list of siblings is the shortest run at one of them, or it lies below one of them. -/
theorem mem_sitesInList : ∀ {skip : Nat} {ns : List Node} {s : Site},
    s ∈ m.sitesInList accept skip ns →
    (∃ rest k, rest <:+ ns ∧ m.shortestRun? accept rest = some (k, s)) ∨
      ∃ c ∈ ns, m.ShortestIn accept c s
  | _, [], s, h => absurd h (by simp [sitesInList])
  -- behind a run that was taken its nodes are passed over
  | skip + 1, n :: ns, s, h => by
      unfold sitesInList at h
      exact shortest_of_cons n (mem_sitesInList h)
  | 0, n :: ns, s, h => by
      unfold sitesInList at h
      cases hr : m.shortestRun? accept (n :: ns) with
      | none =>
          rw [hr] at h
          rcases List.mem_append.mp h with h | h
          · exact Or.inr ⟨n, by simp, mem_sitesInChildren h⟩
          · exact shortest_of_cons n (mem_sitesInList h)
      | some found =>
          obtain ⟨k, s'⟩ := found
          rw [hr] at h
          rcases List.mem_cons.mp h with rfl | h
          · exact Or.inl ⟨n :: ns, k, List.suffix_refl _, hr⟩
          · exact shortest_of_cons n (mem_sitesInList h)

end

/-! ## Sites -/

variable {root : Node} {s : Site}

/-- A site is an accepted match of a node in the tree or, for a run, of neighbouring children of one. -/
theorem origin_of_mem_sitesWhere (h : s ∈ m.sitesWhere accept root) :
    (∃ n ∈ root.listing, m.accepted? accept n = some s.binding ∧ s.span = n.span) ∨
      m.template.isRun = true ∧ ∃ xs, root.HasRun xs ∧ m.window? accept xs = some s := by
  unfold sitesWhere at h
  by_cases hr : m.template.isRun = true
  · rw [if_pos hr] at h
    exact Or.inr ⟨hr, (mem_sitesInChildren h).exists_run⟩
  · rw [if_neg hr] at h
    exact Or.inl (mem_sitesOfNode h)

/-- **Sites are matches.** The binding of a site is one that the matcher returns, and it is accepted. -/
theorem mem_sitesWhere (h : s ∈ m.sitesWhere accept root) :
    m.Returns s.binding ∧ accept s.binding = true := by
  rcases origin_of_mem_sitesWhere h with ⟨n, -, hn, -⟩ | ⟨hr, xs, -, hw⟩
  · obtain ⟨hb, ha⟩ := node?_of_accepted? hn
    exact ⟨Or.inl ⟨n, hb⟩, ha⟩
  · obtain ⟨hb, ha, -⟩ := siblings?_of_window? hw
    exact ⟨Or.inr ⟨xs, by simp [run?, hr, hb]⟩, ha⟩

/-- **Where a site stands**: it covers what a node covers, or what neighbouring children of one cover. -/
theorem span_of_mem_sitesWhere (h : s ∈ m.sitesWhere accept root) :
    (∃ n ∈ root.listing, s.span = n.span) ∨ ∃ xs, root.HasRun xs ∧ s.span = spanOf xs := by
  rcases origin_of_mem_sitesWhere h with ⟨n, hn, -, hs⟩ | ⟨-, xs, hxs, hw⟩
  · exact Or.inl ⟨n, hn, hs⟩
  · exact Or.inr ⟨xs, hxs, (siblings?_of_window? hw).2.2⟩

end Matcher

end JavaRefactor

import JavaRefactor.Proofs.Syntax.Listing
import JavaRefactor.Proofs.Text.Order

/-!
# `Proofs.Syntax.Nested` — trees whose ranges are nested

The children of a node stand inside it, one behind the other, and each of them takes a byte. So whatever is below a
node is inside it, and of two nodes either one is below the other or they share no byte.

## Contents
- **`Nested`**, and `Nested.children`.
- **`Nested.of_mem_listing`**: what is below a node is inside it.
- **`Enclosing`**: children are inside their parents, and no more is asked of them; `Enclosing.inside`, and
  `Nested.enclosing`.
- **Neighbours.** `inOrder_spanOf`: neighbouring nodes lie tightly in their common range; `inOrder_of_infix`, and
  `Nested.neighbours` for some children of a node; `inOrder_drop`; and `eq_of_span_eq`.
-/

namespace JavaRefactor.Syntax

open Text (InOrder Span)
open Text.Span (Inside)

namespace Node

mutual

/-- The ranges below a node are nested. -/
def Nested : Node → Prop
  | leaf l _ _ => l.span.start ≤ l.span.stop
  | branch l cs => InOrder l.span.start (cs.map span) l.span.stop ∧ NestedAll cs

/-- The ranges below several nodes are. -/
def NestedAll : List Node → Prop
  | [] => True
  | n :: ns => Nested n ∧ NestedAll ns

end

theorem nestedAll_iff {ns : List Node} : NestedAll ns ↔ ∀ n ∈ ns, n.Nested := by
  induction ns with
  | nil => simp [NestedAll]
  | cons n ns ih => simp [NestedAll, ih]

/-- The children of a node stand in order inside it. -/
theorem Nested.children {n : Node} (h : n.Nested) :
    InOrder n.span.start (n.children.map span) n.span.stop ∧ ∀ c ∈ n.children, c.Nested := by
  cases n with
  | leaf l tr t => exact ⟨h, by simp [Node.children]⟩
  | branch l cs => exact ⟨h.1, nestedAll_iff.mp h.2⟩

mutual

/-- **What is below a node is inside it**, and takes a byte. -/
theorem Nested.of_mem_listing : ∀ {n m : Node}, n.Nested → m ∈ n.listing →
    m.Nested ∧ Inside m.span n.span ∧ (m = n ∨ m.span.start < m.span.stop)
  | .leaf l tr t, m, h, hm => by
      rw [listing, List.mem_singleton] at hm
      subst hm
      exact ⟨h, Inside.refl _, Or.inl rfl⟩
  | .branch l cs, m, h, hm => by
      rw [listing, List.mem_cons] at hm
      rcases hm with rfl | hm
      · exact ⟨h, Inside.refl _, Or.inl rfl⟩
      · obtain ⟨horder, hnested⟩ := h
        obtain ⟨hm, hinside, hbyte⟩ := NestedAll.of_mem_listingAll horder hnested hm
        exact ⟨hm, hinside, Or.inr hbyte⟩

theorem NestedAll.of_mem_listingAll : ∀ {ns : List Node} {m : Node} {first last : Nat},
    InOrder first (ns.map span) last → NestedAll ns → m ∈ listingAll ns →
    m.Nested ∧ Inside m.span ⟨first, last⟩ ∧ m.span.start < m.span.stop
  | [], _, _, _, _, _, hm => absurd hm (by simp [listingAll])
  | n :: ns, m, first, last, horder, hnested, hm => by
      obtain ⟨hstart, hne, hrest⟩ := horder
      obtain ⟨hn, hns⟩ := hnested
      rw [listingAll, List.mem_append] at hm
      rcases hm with hm | hm
      · obtain ⟨hm, hinside, hbyte⟩ := hn.of_mem_listing hm
        have hlast := hrest.le
        refine ⟨hm, ⟨Nat.le_trans hstart hinside.1, Nat.le_trans hinside.2 hlast⟩, ?_⟩
        rcases hbyte with rfl | hbyte
        · exact hne
        · exact hbyte
      · obtain ⟨hm, hinside, hbyte⟩ := NestedAll.of_mem_listingAll hrest hns hm
        have hfirst : first ≤ n.span.stop := Nat.le_trans hstart (Nat.le_of_lt hne)
        exact ⟨hm, ⟨Nat.le_trans hfirst hinside.1, hinside.2⟩, hbyte⟩

end

/-! ## Children inside their parents -/

/-- Every node of the tree has its children inside it. They may be empty, and stand in any order. -/
def Enclosing (n : Node) : Prop := ∀ m ∈ n.listing, ∀ c ∈ m.children, Inside c.span m.span

instance (n : Node) : Decidable n.Enclosing :=
  inferInstanceAs (Decidable (∀ m ∈ n.listing, ∀ c ∈ m.children, Inside c.span m.span))

theorem Enclosing.of_mem_listing {n m : Node} (h : n.Enclosing) (hm : m ∈ n.listing) : m.Enclosing :=
  fun k hk => h k (mem_listing_trans hm hk)

theorem Enclosing.child {n c : Node} (h : n.Enclosing) (hc : c ∈ n.children) : c.Enclosing :=
  h.of_mem_listing (mem_listing_of_mem_children hc)

mutual

/-- **What is below a node is inside it**, where children are inside their parents. -/
theorem Enclosing.inside : ∀ {n m : Node}, n.Enclosing → m ∈ n.listing → Inside m.span n.span
  | .leaf l tr t, m, _, hm => by
      rw [listing, List.mem_singleton] at hm
      subst hm
      exact Inside.refl _
  | .branch l cs, m, h, hm => by
      rw [listing, List.mem_cons] at hm
      rcases hm with rfl | hm
      · exact Inside.refl _
      · exact Enclosing.insideAll (fun c hc => h.child hc) (h _ (mem_listing_self _)) hm

theorem Enclosing.insideAll : ∀ {ns : List Node} {m : Node} {outer : Span}, (∀ n ∈ ns, n.Enclosing) →
    (∀ n ∈ ns, Inside n.span outer) → m ∈ listingAll ns → Inside m.span outer
  | [], _, _, _, _, hm => absurd hm (by simp [listingAll])
  | n :: ns, m, outer, h, hinside, hm => by
      rw [listingAll, List.mem_append] at hm
      obtain ⟨hn, hns⟩ := List.forall_mem_cons.mp h
      obtain ⟨hinside, hinsides⟩ := List.forall_mem_cons.mp hinside
      rcases hm with hm | hm
      · exact (hn.inside hm).trans hinside
      · exact Enclosing.insideAll hns hinsides hm

end

/-- Nested ranges enclose one another. -/
theorem Nested.enclosing {n : Node} (h : n.Nested) : n.Enclosing := by
  intro m hm c hc
  obtain ⟨horder, -⟩ := (h.of_mem_listing hm).1.children
  obtain ⟨hstart, -, hstop⟩ := horder.of_mem (List.mem_map_of_mem hc)
  exact ⟨hstart, hstop⟩

end Node

/-! ## Neighbours -/

/-- **Neighbouring nodes** in order are in order within their common range, which has a byte. -/
theorem inOrder_spanOf {first last : Nat} {xs : List Node} (h : InOrder first (xs.map Node.span) last)
    (hne : xs ≠ []) : InOrder (spanOf xs).start (xs.map Node.span) (spanOf xs).stop ∧
      Inside (spanOf xs) ⟨first, last⟩ ∧ (spanOf xs).start < (spanOf xs).stop := by
  obtain ⟨x, tail, rfl⟩ := List.exists_cons_of_ne_nil hne
  obtain ⟨init, y, hlast⟩ : ∃ init y, x :: tail = init ++ [y] :=
    ⟨_, _, (List.dropLast_concat_getLast hne).symm⟩
  have hstart : (spanOf (x :: tail)).start = x.span.start := by
    unfold spanOf
    rw [hlast, List.getLast?_concat, ← hlast]
    rfl
  have hstop : (spanOf (x :: tail)).stop = y.span.stop := by
    unfold spanOf
    rw [hlast, List.getLast?_concat, ← hlast]
    rfl
  have htight : InOrder x.span.start ((x :: tail).map Node.span) y.span.stop := by
    have hfront : InOrder x.span.start ((x :: tail).map Node.span) last :=
      ⟨Nat.le_refl _, h.2.1, h.2.2⟩
    rw [hlast, List.map_append] at hfront ⊢
    obtain ⟨middle, hinit, hy, hbyte, -⟩ := InOrder.append_iff.mp hfront
    exact InOrder.append_iff.mpr ⟨middle, hinit, hy, hbyte, Nat.le_refl _⟩
  have hy : y ∈ x :: tail := by
    rw [hlast]
    simp
  have hbounds := h.of_mem (List.mem_map_of_mem hy)
  have hbyte : x.span.start < y.span.stop := by
    have := htight.2.2.le
    exact Nat.lt_of_lt_of_le h.2.1 this
  rw [hstart, hstop]
  exact ⟨htight, ⟨by rw [hstart]; exact h.1, by rw [hstop]; exact hbounds.2.2⟩, hbyte⟩

/-- Some neighbours of nodes in order are in order. -/
theorem inOrder_of_infix {first last : Nat} {xs ns : List Node}
    (h : InOrder first (ns.map Node.span) last) (hxs : xs <:+: ns) :
    ∃ first' last', first ≤ first' ∧ last' ≤ last ∧ InOrder first' (xs.map Node.span) last' := by
  obtain ⟨front, rest, rfl⟩ := hxs
  rw [List.map_append, List.map_append] at h
  obtain ⟨last', hleft, hrest⟩ := InOrder.append_iff.mp h
  obtain ⟨first', hfront, hmiddle⟩ := InOrder.append_iff.mp hleft
  exact ⟨first', last', hfront.le, hrest.le, hmiddle⟩

/-- **Some children of a node** below a nested one, neighbours of each other, lie tightly in their common range. -/
theorem Node.Nested.neighbours {root p : Node} {xs : List Node} (h : root.Nested) (hp : p ∈ root.listing)
    (hxs : xs <:+: p.children) (hne : xs ≠ []) :
    InOrder (spanOf xs).start (xs.map Node.span) (spanOf xs).stop ∧ ∀ x ∈ xs, x.Nested := by
  obtain ⟨horder, hnested⟩ := (h.of_mem_listing hp).1.children
  obtain ⟨_, _, -, -, hrun⟩ := inOrder_of_infix horder hxs
  exact ⟨(inOrder_spanOf hrun hne).1, fun x hx => hnested x (hxs.subset hx)⟩

/-- The first nodes in order lie in front of the other ones. -/
theorem inOrder_drop {first last count : Nat} {ns : List Node} (h : InOrder first (ns.map Node.span) last)
    (hne : ns.take count ≠ []) :
    first ≤ (spanOf (ns.take count)).start ∧ (spanOf (ns.take count)).start < (spanOf (ns.take count)).stop ∧
      InOrder (spanOf (ns.take count)).stop ((ns.drop count).map Node.span) last := by
  rw [← List.take_append_drop count ns, List.map_append] at h
  obtain ⟨middle, htaken, hleft⟩ := InOrder.append_iff.mp h
  obtain ⟨-, hinside, hbyte⟩ := inOrder_spanOf htaken hne
  exact ⟨hinside.1, hbyte, hleft.mono hinside.2 (Nat.le_refl _)⟩

/-- Nodes in order are told apart by their ranges. -/
theorem eq_of_span_eq {first last : Nat} {ns : List Node} {n k : Node}
    (h : InOrder first (ns.map Node.span) last) (hn : n ∈ ns) (hk : k ∈ ns) (hspan : n.span = k.span) : n = k := by
  induction ns generalizing first with
  | nil => exact absurd hn (by simp)
  | cons c cs ih =>
      obtain ⟨-, hbyte, hrest⟩ := h
      -- what is behind the first node starts where that has ended
      have hbehind : ∀ d ∈ cs, c.span ≠ d.span := by
        intro d hd hsame
        have hstart := (hrest.of_mem (List.mem_map_of_mem hd)).1
        rw [← hsame] at hstart
        omega
      rcases List.mem_cons.mp hn with rfl | hn' <;> rcases List.mem_cons.mp hk with rfl | hk'
      · rfl
      · exact absurd hspan (hbehind k hk')
      · exact absurd hspan.symm (hbehind n hn')
      · exact ih hrest hn' hk'

end JavaRefactor.Syntax

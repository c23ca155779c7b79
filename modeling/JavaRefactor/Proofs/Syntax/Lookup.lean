import JavaRefactor.Proofs.Template.Place

/-!
# `Proofs.Syntax.Lookup` — nodes by their range

A range is looked up in two ways: for the innermost node that has it, and for the path to that node. Both searches
go through the children in order and pass over those that do not contain the range. The one is answered by the node
itself where none below it has the range, the other by its parent.

## Contents
- **`withSpan?_eq`**: the answer for a node by that for its children.
- **`bind_innermostPath`**: below a node both searches come to the same answer, in every tree.
- **`exists_of_withSpan?`**, what is found, and **`withSpan?_isSome_iff`**, where something is.
- **`withSpan?_innermost`**.
-/

namespace JavaRefactor.Syntax.Node

open Template
open Text (Span)

variable {span : Span} {n : Node}

/-! ## Both searches -/

/-- A node is the answer if it contains the span, has it, and none below it is an answer. -/
theorem withSpan?_eq (span : Span) (n : Node) :
    withSpan? span n = if n.span.contains span then
      (withSpanAmong? span n.children).or (if n.span = span then some n else none) else none := by
  cases n with
  | leaf l tr t => rfl
  | branch l cs =>
      show withSpan? span (branch l cs) = if l.span.contains span then
        (withSpanAmong? span cs).or (if l.span = span then some (branch l cs) else none) else none
      rw [withSpan?]
      cases withSpanAmong? span cs <;> rfl

theorem withSpanAmong?_cons (span : Span) (n : Node) (ns : List Node) :
    withSpanAmong? span (n :: ns) = (withSpan? span n).or (withSpanAmong? span ns) := by
  rw [withSpanAmong?]
  cases withSpan? span n <;> rfl

/-- A path with a step in it leads below the node. -/
theorem mem_below_of_nodeAt? {path : List Nat} {m : Node} (h : nodeAt? n path = some m) (hne : path ≠ []) :
    m ∈ listingAll n.children := by
  obtain ⟨i, path, rfl⟩ := List.exists_cons_of_ne_nil hne
  rw [nodeAt?] at h
  split at h
  · rename_i c hc
    exact mem_listingAll (List.mem_of_getElem? hc) (nodeAt?_mem h)
  · exact absurd h (by simp)

/-- A path that was found leads to a node below, with the span and innermost among those that have it. -/
theorem exists_of_innermostPath {path : List Nat} (h : innermostPath span n = some path) :
    ∃ m, nodeAt? n path = some m ∧ m ∈ listingAll n.children ∧ m.span = span ∧ innermostPath span m = none := by
  obtain ⟨front, last, parent, m, rfl, hparent, hm, hspan, hnone⟩ := innermostPath_spec h
  have hpath : nodeAt? n (front ++ [last]) = some m := by rw [nodeAt?_concat hparent, hm]
  exact ⟨m, hpath, mem_below_of_nodeAt? hpath (by simp), hspan, hnone⟩

mutual

/-- **Below a node** the path leads to the node that is found, and to none where none is. -/
theorem bind_innermostPath (span : Span) : ∀ n : Node,
    (innermostPath span n).bind (nodeAt? n) = withSpanAmong? span n.children
  | .leaf .. => rfl
  | .branch l cs => bind_innermostPathAmong span (.branch l cs) cs fun j => by rw [Nat.zero_add]; rfl

/-- The same of several trees that are the last children of a node. -/
theorem bind_innermostPathAmong (span : Span) (root : Node) : ∀ (cs : List Node) {index : Nat},
    (∀ j, root.children[index + j]? = cs[j]?) →
    (innermostPathAmong span index cs).bind (nodeAt? root) = withSpanAmong? span cs
  | [], _, _ => rfl
  | c :: cs, index, hroot => by
      have hc : root.children[index]? = some c := hroot 0
      have hbelow := bind_innermostPath span c
      have hlater : (innermostPathAmong span (index + 1) cs).bind (nodeAt? root) = withSpanAmong? span cs := by
        apply bind_innermostPathAmong span root cs
        intro j
        rw [Nat.add_right_comm]
        exact hroot (j + 1)
      rw [innermostPathAmong, withSpanAmong?_cons, withSpan?_eq, ← hbelow]
      by_cases hcontains : c.span.contains span = true
      · rw [if_pos hcontains, if_pos hcontains]
        cases hpath : innermostPath span c with
        | some path =>
            obtain ⟨m, hm, -⟩ := exists_of_innermostPath hpath
            show nodeAt? root (index :: path) = ((nodeAt? c path).or _).or _
            rw [nodeAt?_of_child hc, hm]
            rfl
        | none =>
            by_cases hspan : c.span = span
            · show (if c.span = span then _ else _ : Option (List Nat)).bind _ = ((none : Option Node).or _).or _
              rw [if_pos hspan, if_pos hspan]
              exact nodeAt?_of_child hc
            · show (if c.span = span then _ else _ : Option (List Nat)).bind _ = ((none : Option Node).or _).or _
              rw [if_neg hspan, if_neg hspan]
              exact hlater
      · rw [if_neg hcontains, if_neg hcontains]
        exact hlater

end

/-! ## What is found -/

/-- **What is found for a span** is a node of the tree that has it, and no path is found below that one. -/
theorem exists_of_withSpan? {m : Node} (h : withSpan? span n = some m) :
    m ∈ n.listing ∧ m.span = span ∧ innermostPath span m = none := by
  rw [withSpan?_eq, ← bind_innermostPath] at h
  split at h
  · cases hpath : innermostPath span n with
    | some path =>
        obtain ⟨k, hk, hbelow, hspan, hnone⟩ := exists_of_innermostPath hpath
        rw [hpath, Option.bind_some, hk] at h
        obtain rfl : k = m := Option.some.inj h
        rw [listing_eq]
        exact ⟨List.mem_cons_of_mem _ hbelow, hspan, hnone⟩
    | none =>
        rw [hpath, Option.bind_none, Option.none_or] at h
        split at h
        · rename_i hspan
          obtain rfl : n = m := Option.some.inj h
          exact ⟨mem_listing_self n, hspan, hpath⟩
        · exact absurd h (by simp)
  · exact absurd h (by simp)

/-- **A path is found** where something below the node has the span. -/
theorem innermostPath_isSome_iff (h : n.Enclosing) :
    (innermostPath span n).isSome = true ↔ ∃ m ∈ listingAll n.children, m.span = span := by
  constructor
  · intro hsome
    obtain ⟨path, hpath⟩ := Option.isSome_iff_exists.mp hsome
    obtain ⟨m, -, hm, hspan, -⟩ := exists_of_innermostPath hpath
    exact ⟨m, hm, hspan⟩
  · rintro ⟨m, hm, hspan⟩
    rw [← Option.ne_none_iff_isSome]
    intro hnone
    exact span_ne_of_innermostPath h hnone m hm hspan

/-- The node that a path was found to is the one that is found. -/
theorem withSpan?_of_innermostPath (h : n.Enclosing) {path : List Nat} (hpath : innermostPath span n = some path) :
    withSpan? span n = nodeAt? n path := by
  obtain ⟨m, hm, hbelow, rfl, -⟩ := exists_of_innermostPath hpath
  have hinside := h.inside (nodeAt?_mem hm)
  have hcontains : n.span.contains m.span = true := by
    simpa [Span.contains] using And.intro hinside.1 hinside.2
  rw [withSpan?_eq, if_pos hcontains, ← bind_innermostPath, hpath, Option.bind_some, hm]
  rfl

/-- **A node is found** where one of the tree has the span. -/
theorem withSpan?_isSome_iff (h : n.Enclosing) :
    (withSpan? span n).isSome = true ↔ ∃ m ∈ n.listing, m.span = span := by
  constructor
  · intro hsome
    obtain ⟨m, hm⟩ := Option.isSome_iff_exists.mp hsome
    obtain ⟨hmem, hspan, -⟩ := exists_of_withSpan? hm
    exact ⟨m, hmem, hspan⟩
  · rintro ⟨m, hm, hspan⟩
    cases hpath : innermostPath span n with
    | some path =>
        obtain ⟨k, hk, -⟩ := exists_of_innermostPath hpath
        rw [withSpan?_of_innermostPath h hpath, hk]
        rfl
    | none =>
        -- nothing below the node has the span, so it is the node's own
        rw [listing_eq, List.mem_cons] at hm
        rcases hm with rfl | hm
        · subst hspan
          rw [withSpan?_eq, ← bind_innermostPath, hpath]
          simp [Span.contains]
        · exact absurd hspan (span_ne_of_innermostPath h hpath m hm)

/-- **A range is looked up alike in both ways.** In a tree whose nodes have their children inside them, a node is
    found for a range exactly if one of the tree has that range. It has the range itself and none of those
    below it has. A path is found exactly if a node below the root has the range, and it leads to the node
    that is found. -/
theorem withSpan?_innermost (h : n.Enclosing) (span : Span) :
    ((withSpan? span n).isSome = true ↔ ∃ m ∈ n.listing, m.span = span) ∧
    (∀ m, withSpan? span n = some m →
      m ∈ n.listing ∧ m.span = span ∧ ∀ k ∈ listingAll m.children, k.span ≠ span) ∧
    ((innermostPath span n).isSome = true ↔ ∃ m ∈ listingAll n.children, m.span = span) ∧
    ∀ path, innermostPath span n = some path →
      path ≠ [] ∧ ∃ m, nodeAt? n path = some m ∧ withSpan? span n = some m := by
  refine ⟨withSpan?_isSome_iff h, ?_, innermostPath_isSome_iff h, ?_⟩
  · intro m hm
    obtain ⟨hmem, hspan, hnone⟩ := exists_of_withSpan? hm
    exact ⟨hmem, hspan, span_ne_of_innermostPath (h.of_mem_listing hmem) hnone⟩
  · intro path hpath
    obtain ⟨front, last, -, -, rfl, -⟩ := innermostPath_spec hpath
    obtain ⟨m, hm, -⟩ := exists_of_innermostPath hpath
    exact ⟨by simp, m, hm, by rw [withSpan?_of_innermostPath h hpath, hm]⟩

/-- A name, an empty construct with an empty token in it, and an empty token, all of which touch byte 2. -/
def touching : Node :=
  .branch ⟨.named "program", none, ⟨0, 2⟩⟩
    [.leaf ⟨.named "identifier", none, ⟨0, 2⟩⟩ "" "ab",
      .branch ⟨.named "argument_list", none, ⟨2, 2⟩⟩ [.leaf ⟨.token "(", none, ⟨2, 2⟩⟩ "" ""],
      .leaf ⟨.token ";", none, ⟨2, 2⟩⟩ "" ""]

/-- Of the nodes with an empty range the one in the first construct that has it is found. -/
theorem withSpan?_innermost_touching : touching.Enclosing ∧ innermostPath ⟨2, 2⟩ touching = some [1, 0] ∧
    withSpan? ⟨2, 2⟩ touching = some (.leaf ⟨.token "(", none, ⟨2, 2⟩⟩ "" "") := by
  have h : touching.Enclosing := by decide
  have hpath : innermostPath ⟨2, 2⟩ touching = some [1, 0] := by decide
  obtain ⟨-, m, hm, hfound⟩ := (withSpan?_innermost h ⟨2, 2⟩).2.2.2 _ hpath
  obtain rfl := Option.some.inj hm
  exact ⟨h, hpath, hfound⟩

end JavaRefactor.Syntax.Node

import JavaRefactor.Proofs.Syntax.Listing
import JavaRefactor.Proofs.Syntax.Nested
import JavaRefactor.Template.Place

/-!
# `Proofs.Template.Place` — what stands at the place of a range

The place that is found for a range of a text is that of neighbouring children of one node of the tree, which together have
exactly the range.

## Contents
- **Paths.** `nodeAt?_mem` and `nodeAt?_concat`.
- **Single nodes.** `innermostPath_spec`, and `span_ne_of_innermostPath`, where no path is found.
- **Runs.** `coveringRun_spec` and `runPlace_spec`.
- **`nodes_of_placeOf?`**, for both, and `isNamed_of_placeOf?`, for runs.
-/

namespace JavaRefactor.Template

open Syntax (Node spanOf)
open Text (Span)

variable {span : Span} {n root : Node}

/-! ## Paths -/

/-- A path leads to a node of the tree. -/
theorem nodeAt?_mem {path : List Nat} {m : Node} (h : nodeAt? n path = some m) : m ∈ n.listing := by
  induction path generalizing n with
  | nil =>
      obtain rfl : n = m := Option.some.inj h
      exact Node.mem_listing_self n
  | cons i path ih =>
      rw [nodeAt?] at h
      split at h
      · rename_i c hc
        exact Node.mem_listing_trans (Node.mem_listing_of_mem_children (List.mem_of_getElem? hc)) (ih h)
      · exact absurd h (by simp)

/-- A path whose first step leads to a child. -/
theorem nodeAt?_of_child {i : Nat} {path : List Nat} {c : Node} (hc : n.children[i]? = some c) :
    nodeAt? n (i :: path) = nodeAt? c path := by
  rw [nodeAt?, hc]

/-- One step more leads to a child of the node that was come to. -/
theorem nodeAt?_concat {path : List Nat} {last : Nat} {parent : Node} (h : nodeAt? n path = some parent) :
    nodeAt? n (path ++ [last]) = parent.children[last]? := by
  induction path generalizing n with
  | nil =>
      obtain rfl : n = parent := Option.some.inj h
      rw [List.nil_append, nodeAt?]
      cases n.children[last]? <;> rfl
  | cons i path ih =>
      rw [nodeAt?] at h
      split at h
      · rename_i c hc
        rw [List.cons_append, nodeAt?_of_child hc, ih h]
      · exact absurd h (by simp)

/-! ## Single nodes -/

/-- A path leads to a child that has the span, and to no other one below that has it. -/
def LeadsTo (span : Span) (n : Node) (path : List Nat) : Prop :=
  ∃ front last parent c, path = front ++ [last] ∧ nodeAt? n front = some parent ∧
    parent.children[last]? = some c ∧ c.span = span ∧ innermostPath span c = none

theorem LeadsTo.below {i : Nat} {c : Node} {path : List Nat} (hc : n.children[i]? = some c)
    (h : LeadsTo span c path) : LeadsTo span n (i :: path) := by
  obtain ⟨front, last, parent, c', rfl, hparent, hc', hspan⟩ := h
  exact ⟨i :: front, last, parent, c', rfl, by rw [nodeAt?_of_child hc, hparent], hc', hspan⟩

mutual

/-- **The innermost path** leads to a node that has the span. -/
theorem innermostPath_spec : ∀ {n : Node} {path : List Nat}, innermostPath span n = some path →
    LeadsTo span n path
  | .leaf .., path, h => absurd h (by simp [innermostPath])
  | .branch l cs, path, h => by
      obtain ⟨j, c, rest, rfl, hc, hrest⟩ := innermostPathAmong_spec h
      rw [Nat.zero_add]
      rcases hrest with ⟨rfl, hspan⟩ | hrest
      · exact ⟨[], j, .branch l cs, c, rfl, rfl, hc, hspan⟩
      · exact hrest.below hc

theorem innermostPathAmong_spec : ∀ {cs : List Node} {index : Nat} {path : List Nat},
    innermostPathAmong span index cs = some path →
      ∃ j c rest, path = (index + j) :: rest ∧ cs[j]? = some c ∧
        ((rest = [] ∧ c.span = span ∧ innermostPath span c = none) ∨ LeadsTo span c rest)
  | [], _, _, h => absurd h (by simp [innermostPathAmong])
  | c :: cs, index, path, h => by
      have hlater : innermostPathAmong span (index + 1) cs = some path →
          ∃ j c' rest, path = (index + j) :: rest ∧ (c :: cs)[j]? = some c' ∧
            ((rest = [] ∧ c'.span = span ∧ innermostPath span c' = none) ∨ LeadsTo span c' rest) := by
        intro h
        obtain ⟨j, c', rest, rfl, hc, hrest⟩ := innermostPathAmong_spec h
        exact ⟨j + 1, c', rest, by rw [Nat.add_right_comm, Nat.add_assoc], hc, hrest⟩
      rw [innermostPathAmong] at h
      split at h
      · split at h
        · rename_i rest hrest
          obtain rfl := Option.some.inj h
          exact ⟨0, c, rest, rfl, rfl, Or.inr (innermostPath_spec hrest)⟩
        · rename_i hnone
          split at h
          · rename_i hspan
            obtain rfl := Option.some.inj h
            exact ⟨0, c, [], rfl, rfl, Or.inl ⟨rfl, hspan, hnone⟩⟩
          · exact hlater h
      · exact hlater h

end

mutual

/-- **Where no path is found** nothing below a node has the span. -/
theorem span_ne_of_innermostPath : ∀ {n : Node}, n.Enclosing → innermostPath span n = none →
    ∀ m ∈ Node.listingAll n.children, m.span ≠ span
  | .leaf .., _, _ => fun m hm => absurd hm (by simp [Node.children, Node.listingAll])
  | .branch l cs, hn, h => span_ne_of_innermostPathAmong (fun _ hc => hn.child hc) h

theorem span_ne_of_innermostPathAmong : ∀ {cs : List Node} {index : Nat}, (∀ c ∈ cs, c.Enclosing) →
    innermostPathAmong span index cs = none → ∀ m ∈ Node.listingAll cs, m.span ≠ span
  | [], _, _, _ => fun m hm => absurd hm (by simp [Node.listingAll])
  | c :: cs, index, hns, h => by
      obtain ⟨hc, hcs⟩ := List.forall_mem_cons.mp hns
      intro m hm hspan
      rw [Node.listingAll, List.mem_append] at hm
      rw [innermostPathAmong] at h
      rcases hm with hm | hm
      · -- what is below a child is inside it, so the child has been searched
        obtain ⟨hstart, hstop⟩ := hc.inside hm
        have hcontains : c.span.contains span = true := by
          rw [← hspan]
          simpa [Span.contains] using And.intro hstart hstop
        rw [if_pos hcontains] at h
        split at h
        · exact absurd h (by simp)
        · rename_i hnone
          split at h
          · exact absurd h (by simp)
          · rename_i hne
            rw [Node.listing_eq, List.mem_cons] at hm
            rcases hm with rfl | hm
            · exact hne hspan
            · exact span_ne_of_innermostPath hc hnone m hm hspan
      · have hlater : innermostPathAmong span (index + 1) cs = none := by
          split at h
          · split at h
            · exact absurd h (by simp)
            · split at h
              · exact absurd h (by simp)
              · exact h
          · exact h
        exact span_ne_of_innermostPathAmong hcs hlater m hm hspan

end

/-! ## Runs -/

/-- The children at a place have the span together, and those of a run are constructs. -/
def Spans (span : Span) (n : Node) (p : Place) : Prop :=
  ∃ parent, nodeAt? n p.parent = some parent ∧ p.nodes n ≠ [] ∧ spanOf (p.nodes n) = span ∧
    (p.isRun = true → ∀ c ∈ p.nodes n, c.isNamed = true)

theorem nodes_of_nodeAt? {p : Place} {parent : Node} (h : nodeAt? n p.parent = some parent) :
    p.nodes n = (parent.children.drop p.first).take p.count := by
  unfold Place.nodes
  rw [h]

/-- **The children that cover a span** are one behind the other. -/
theorem coveringRun_spec {l : Syntax.Label} {cs : List Node} {p : Place}
    (h : coveringRun span cs = some p) : Spans span (.branch l cs) p := by
  unfold coveringRun at h
  simp only at h
  generalize houtside : (fun c : Node => !span.contains c.span) = outside at h
  generalize hcovered : ((cs.dropWhile outside).reverse.dropWhile outside).reverse = covered at h
  split at h
  · rename_i a b ha hb
    split at h
    · rename_i hends
      obtain rfl := Option.some.inj h
      simp only [Bool.and_eq_true, beq_iff_eq] at hends
      obtain ⟨⟨hstart, hstop⟩, hnamed⟩ := hends
      have hroot : nodeAt? (.branch l cs) [] = some (.branch l cs) := rfl
      have hnodes : Place.nodes (.branch l cs) ⟨[], (cs.takeWhile outside).length, covered.length, true⟩ =
          covered := by
        rw [nodes_of_nodeAt? hroot]
        show (cs.drop (cs.takeWhile outside).length).take covered.length = covered
        -- what is in front of the run and what is behind it is left out
        have hfront : cs.drop (cs.takeWhile outside).length = cs.dropWhile outside := by
          have hsplit := List.takeWhile_append_dropWhile (p := outside) (l := cs)
          calc cs.drop (cs.takeWhile outside).length
              = (cs.takeWhile outside ++ cs.dropWhile outside).drop (cs.takeWhile outside).length := by
                rw [hsplit]
            _ = cs.dropWhile outside := List.drop_left
        have hbehind : covered <+: cs.dropWhile outside := by
          rw [← hcovered, ← List.reverse_suffix, List.reverse_reverse]
          exact List.dropWhile_suffix _
        rw [hfront]
        exact (List.prefix_iff_eq_take.mp hbehind).symm
      refine ⟨.branch l cs, hroot, ?_, ?_, ?_⟩
      · rw [hnodes]
        rintro rfl
        exact absurd ha (by simp)
      · rw [hnodes]
        unfold spanOf
        rw [ha, hb]
        show (⟨a.span.start, b.span.stop⟩ : Span) = span
        rw [hstart, hstop]
      · intro _
        rw [hnodes]
        exact List.all_eq_true.mp hnamed
    · exact absurd h (by simp)
  · exact absurd h (by simp)

theorem Spans.below {i : Nat} {c : Node} {p : Place} (hc : n.children[i]? = some c)
    (h : Spans span c p) : Spans span n (p.below i) := by
  obtain ⟨parent, hparent, hne, hspan, hnamed⟩ := h
  have hparent' : nodeAt? n (p.below i).parent = some parent := by
    show nodeAt? n (i :: p.parent) = some parent
    rw [nodeAt?_of_child hc, hparent]
  have hnodes : (p.below i).nodes n = p.nodes c := by
    rw [nodes_of_nodeAt? hparent', nodes_of_nodeAt? hparent]
    rfl
  refine ⟨parent, hparent', ?_, ?_, ?_⟩
  · rw [hnodes]
    exact hne
  · rw [hnodes]
    exact hspan
  · intro hrun
    rw [hnodes]
    exact hnamed hrun

mutual

/-- **The run of a span** has the span. -/
theorem runPlace_spec : ∀ {n : Node} {p : Place}, runPlace span n = some p → Spans span n p
  | .leaf .., p, h => absurd h (by simp [runPlace])
  | .branch l cs, p, h => by
      rw [runPlace] at h
      split at h
      · rename_i found hfound
        obtain ⟨j, c, q, hc, hq, hp⟩ := runPlaceAmong_spec (hfound.trans (congrArg some h))
        rw [hp, Nat.zero_add]
        exact hq.below hc
      · exact coveringRun_spec h

theorem runPlaceAmong_spec : ∀ {cs : List Node} {index : Nat} {p : Place},
    runPlaceAmong span index cs = some (some p) →
      ∃ j c q, cs[j]? = some c ∧ Spans span c q ∧ p = q.below (index + j)
  | [], _, _, h => absurd h (by simp [runPlaceAmong])
  | c :: cs, index, p, h => by
      rw [runPlaceAmong] at h
      split at h
      · obtain ⟨q, hq, rfl⟩ := Option.map_eq_some_iff.mp (Option.some.inj h)
        exact ⟨0, c, q, rfl, runPlace_spec hq, rfl⟩
      · obtain ⟨j, c', q, hc, hq, hp⟩ := runPlaceAmong_spec h
        exact ⟨j + 1, c', q, hc, hq, by rw [hp, Nat.add_right_comm, Nat.add_assoc]⟩

end

/-! ## Both -/

/-- The place of one child. -/
theorem nodes_of_child {front : List Nat} {last : Nat} {parent c : Node} (hparent : nodeAt? root front = some parent)
    (hc : parent.children[last]? = some c) : Place.nodes root ⟨front, last, 1, false⟩ = [c] := by
  rw [nodes_of_nodeAt? hparent]
  show (parent.children.drop last).take 1 = [c]
  obtain ⟨hlast, hget⟩ := List.getElem?_eq_some_iff.mp hc
  rw [List.drop_eq_getElem_cons hlast, hget]
  rfl

theorem spans_of_placeOf? {p : Place} (h : placeOf? root span = some p) : Spans span root p := by
  unfold placeOf? at h
  split at h
  · rename_i path hpath
    obtain ⟨front, last, parent, c, rfl, hparent, hc, hspan, -⟩ := innermostPath_spec hpath
    rw [List.getLast?_concat, List.dropLast_concat] at h
    obtain rfl := Option.some.inj h
    have hnodes := nodes_of_child hparent hc
    exact ⟨parent, hparent, by rw [hnodes]; simp, by rw [hnodes]; exact hspan,
      fun hrun => absurd hrun (by simp)⟩
  · exact runPlace_spec h

/-- **What stands at the place of a span** are neighbouring children of a node of the tree, which have the span
    together. -/
theorem nodes_of_placeOf? {p : Place} (h : placeOf? root span = some p) :
    ∃ parent ∈ root.listing, p.nodes root <:+: parent.children ∧ p.nodes root ≠ [] ∧
      spanOf (p.nodes root) = span := by
  obtain ⟨parent, hparent, hne, hspan, -⟩ := spans_of_placeOf? h
  refine ⟨parent, nodeAt?_mem hparent, ?_, hne, hspan⟩
  rw [nodes_of_nodeAt? hparent]
  exact (List.take_prefix _ _).isInfix.trans (List.drop_suffix _ _).isInfix

/-- The nodes of a run are constructs. -/
theorem isNamed_of_placeOf? {p : Place} (h : placeOf? root span = some p) (hrun : p.isRun = true) :
    ∀ c ∈ p.nodes root, c.isNamed = true := by
  obtain ⟨-, -, -, -, hnamed⟩ := spans_of_placeOf? h
  exact hnamed hrun

end JavaRefactor.Template

import JavaRefactor.Proofs.Match.Completeness

/-!
# `Proofs.Match.Repeated` — names that stand several times in a template

A name that is met again keeps its first value, and every later one is compared with that. Agreement of values
is an equivalence, so it does not matter which of them came first: the values of a template can be bound if
and only if those of one name agree with one another and with what is bound already.

## Contents
- **`Bound.same_iff_nodes`**: values agree that are of one shape and have nodes that agree.
- **`Binding.isSome_extend?_iff`**, when a list of facings can be bound, and **`Binding.isSome_extend?_perm`**.
- **`Bound.same_equivalence`**.
-/

namespace JavaRefactor

open Syntax (Node)

/-! ## Values -/

namespace Bound

/-- Values agree that are of one shape and whose nodes agree one by one. -/
theorem same_iff_nodes (x y : Bound) :
    x.same y = true ↔ x.shape = y.shape ∧ Node.sameAll x.nodes y.nodes = true := by
  cases x with
  | node n => cases y <;> simp [same, shape, nodes, Node.sameAll]
  | run ns anchor => cases y <;> simp [same, shape, nodes]

end Bound

/-! ## Lists of facings -/

namespace Binding

variable {b : Binding} {fs gs : List Facing}

/-- What can be bound agrees with what is bound already. -/
theorem allows_of_extend? {b' : Binding} (h : extend? fs b = some b') : b.Allows fs := by
  intro f hf hw y hy
  obtain ⟨z, hz, hs⟩ := agrees_of_extend? h f hf hw
  rw [get?_of_extend?_mono h hy] at hz
  exact Option.some.inj hz ▸ hs

/-- Facings that agree with one another and with what is bound already can be bound. -/
theorem isSome_extend?_of_consistent (hc : Consistent fs) (ha : b.Allows fs) :
    (extend? fs b).isSome = true := by
  induction fs generalizing b with
  | nil => rfl
  | cons f fs ih =>
      have hsub : [f] ⊆ f :: fs := List.cons_subset_cons f (List.nil_subset fs)
      obtain ⟨b', hb'⟩ := insert?_of_allows (ha.mono hsub)
      have he : extend? [f] b = some b' := by simp [extend?, hb']
      -- the new value agrees with all that are faced under its name
      have hallows : b'.Allows fs := by
        refine (ha.mono (List.subset_cons_self f fs)).extend? he ?_
        intro g hg hw
        exact (hc g.name hw).mono hsub (List.subset_cons_self f fs)
      have hrest := ih (hc.mono (List.subset_cons_self f fs)) hallows
      rw [extend?, hb']
      exact hrest

/-- **When facings can be bound**: if those of one name agree with one another and with what is bound
    already. -/
theorem isSome_extend?_iff : (extend? fs b).isSome = true ↔ Consistent fs ∧ b.Allows fs := by
  constructor
  · intro h
    obtain ⟨b', hb'⟩ := Option.isSome_iff_exists.mp h
    exact ⟨consistent_of_extend? hb', allows_of_extend? hb'⟩
  · rintro ⟨hc, ha⟩
    exact isSome_extend?_of_consistent hc ha

/-- **The order of facings** does not matter for whether they can be bound. -/
theorem isSome_extend?_perm (h : fs.Perm gs) : (extend? fs b).isSome = (extend? gs b).isSome := by
  rw [Bool.eq_iff_iff, isSome_extend?_iff, isSome_extend?_iff]
  exact ⟨fun ⟨hc, ha⟩ => ⟨hc.mono h.symm.subset, ha.mono h.symm.subset⟩,
    fun ⟨hc, ha⟩ => ⟨hc.mono h.subset, ha.mono h.subset⟩⟩

end Binding

/-! ## Agreement -/

/-- A relation that compares what is left of its arguments is an equivalence. -/
theorem equivalence_of_iff {α β : Type} {r : α → α → Bool} (f : α → β)
    (h : ∀ x y, r x y = true ↔ f x = f y) : Equivalence fun x y => r x y = true where
  refl x := (h x x).mpr rfl
  symm hxy := (h _ _).mpr ((h _ _).mp hxy).symm
  trans hxy hyz := (h _ _).mpr (((h _ _).mp hxy).trans ((h _ _).mp hyz))

namespace Bound

/-- **Agreement is an equivalence**, of nodes, of runs and of bound values. Nodes agree if they are equal when
    classes, roles, places and trivia are taken away, there and below; then they have tokens that agree
    one by one, with equal texts, and the same text with one blank between any two tokens. Runs agree that are
    equally long and agree node by node, and values that agree as runs and are of one shape. So whether values
    can be bound to their names does not depend on which of them comes first. -/
theorem same_equivalence :
    Equivalence (fun n m : Node => n.same m = true) ∧
    (∀ n m : Node, n.same m = (n.kindName == m.kindName && n.text? == m.text? &&
      n.children.length == m.children.length &&
      (n.children.zip m.children).all fun p => p.1.same p.2)) ∧
    (∀ n m : Node, n.same m = true ↔ n.bare = m.bare) ∧
    (∀ n m : Node, n.same m = true → n.normalized = m.normalized ∧
      n.tokens.map Node.text? = m.tokens.map Node.text? ∧ Node.sameAll n.tokens m.tokens = true) ∧
    Equivalence (fun ns ms : List Node => Node.sameAll ns ms = true) ∧
    (∀ ns ms : List Node, Node.sameAll ns ms =
      (ns.length == ms.length && (ns.zip ms).all fun p => p.1.same p.2)) ∧
    Equivalence (fun x y : Bound => x.same y = true) ∧
    (∀ x y : Bound, x.same y = true ↔ x.shape = y.shape ∧ Node.sameAll x.nodes y.nodes = true) ∧
    ∀ (b : Binding) (fs gs : List Facing), fs.Perm gs →
      (Binding.extend? fs b).isSome = (Binding.extend? gs b).isSome := by
  refine ⟨equivalence_of_iff Node.bare Node.same_iff, Node.same_eq, Node.same_iff, ?_,
    equivalence_of_iff Node.bareAll Node.sameAll_iff, Node.sameAll_eq,
    equivalence_of_iff Bound.bare Bound.same_iff, same_iff_nodes, ?_⟩
  · intro n m h
    have hbare := (Node.same_iff n m).mp h
    have htokens : Node.bareAll n.tokens = Node.bareAll m.tokens := by
      rw [← Node.tokens_bare, ← Node.tokens_bare, hbare]
    refine ⟨?_, ?_, (Node.sameAll_iff _ _).mpr htokens⟩
    · rw [← Node.normalized_bare, hbare, Node.normalized_bare]
    · rw [← Node.map_text?_bareAll, htokens, Node.map_text?_bareAll]
  · intro b fs gs h
    exact Binding.isSome_extend?_perm h

/-- A call and the same call with other layout, whose tokens two placeholders of one name face. -/
theorem same_equivalence_layout : ∃ (t t' : Syntax.Tree) (f g : Facing),
    Java.parse? "f(a, b);" = some t ∧ Java.parse? "f( a /* one */,b );" = some t' ∧
    t.root.same t'.root = true ∧ t.root.normalized = t'.root.normalized ∧
    t.root.tokens.map Node.text? = t'.root.tokens.map Node.text? ∧ f.name = g.name ∧
    f.value = .run t.root.tokens 0 ∧ g.value = .run t'.root.tokens 2 ∧ [f, g].Perm [g, f] ∧
    (Binding.extend? [f, g] .empty).isSome = (Binding.extend? [g, f] .empty).isSome := by
  have h : ((Java.parse? "f(a, b);").any fun t => (Java.parse? "f( a /* one */,b );").any fun t' =>
      t.root.same t'.root) = true := by
    decide +kernel
  obtain ⟨t, ht, h⟩ := (Option.any_eq_true _ _).mp h
  obtain ⟨t', ht', h⟩ := (Option.any_eq_true _ _).mp h
  obtain ⟨-, -, -, htexts, -, -, -, -, horder⟩ := same_equivalence
  obtain ⟨hnormalized, htokens, -⟩ := htexts t.root t'.root h
  let f : Facing := ⟨⟨"X", .run, 0⟩, .run t.root.tokens 0⟩
  let g : Facing := ⟨⟨"X", .run, 9⟩, .run t'.root.tokens 2⟩
  have hswap : [f, g].Perm [g, f] := .swap g f []
  exact ⟨t, t', f, g, ht, ht', h, hnormalized, htokens, rfl, rfl, rfl, hswap,
    horder .empty [f, g] [g, f] hswap⟩

end Bound

end JavaRefactor

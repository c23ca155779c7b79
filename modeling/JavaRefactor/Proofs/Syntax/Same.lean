import JavaRefactor.Match.Binding

/-!
# `Proofs.Syntax.Same` — agreement in kinds and token texts

`Node.same` compares what two nodes say and not where they stand. It is equality of what is left of the
two nodes when classes, roles, places and trivia are taken away, and so it is an equivalence.

## Contents
- **One level.** `Node.same_eq`: what is compared of two nodes, and what of their children.
- **`Node.bare`**, what is left of a node, and **`Node.same_iff`**.
- **Tokens.** `Node.tokens_bare` and `Node.normalized_bare`: what is left has the tokens of the node.
- **`Bound.bare`** and **`Bound.same_iff`**, the same for bound values.
-/

namespace JavaRefactor

namespace Syntax.Node

mutual

/-- A node agrees with itself. -/
theorem same_refl : ∀ n : Node, n.same n = true
  | .leaf l tr t => by simp [same]
  | .branch l cs => by simp [same, sameAll_refl cs]

/-- A list of nodes agrees with itself. -/
theorem sameAll_refl : ∀ ns : List Node, sameAll ns ns = true
  | [] => by simp [sameAll]
  | n :: ns => by simp [sameAll, same_refl n, sameAll_refl ns]

end

/-! ## One level -/

/-- Lists agree that are equally long and whose nodes agree one by one. -/
theorem sameAll_eq (ns ms : List Node) :
    sameAll ns ms = (ns.length == ms.length && (ns.zip ms).all fun p => p.1.same p.2) := by
  induction ns generalizing ms with
  | nil => cases ms <;> simp [sameAll]
  | cons n ns ih =>
      cases ms with
      | nil => simp [sameAll]
      | cons m ms =>
          rw [sameAll, ih, List.zip_cons_cons, List.all_cons, List.length_cons, List.length_cons]
          cases n.same m <;> simp

/-- **Nodes agree** whose kinds have one name, whose token texts, if any, are equal and whose children
    agree one by one. -/
theorem same_eq (n m : Node) :
    n.same m = (n.kindName == m.kindName && n.text? == m.text? &&
      n.children.length == m.children.length &&
      (n.children.zip m.children).all fun p => p.1.same p.2) := by
  cases n with
  | leaf l tr t =>
      cases m with
      | leaf l' tr' t' => simp [same, kindName, kind, label, text?, children]
      | branch l' cs' => simp [same, text?]
  | branch l cs =>
      cases m with
      | leaf l' tr' t' => simp [same, text?]
      | branch l' cs' =>
          simp [same, sameAll_eq, kindName, kind, label, text?, children, Bool.and_assoc]

/-! ## What is compared -/

/-- A label that tells the name of the kind alone, and not whether it is that of a construct or of a token. -/
def bareLabel (l : Label) : Label := ⟨.named l.kind.name, none, ⟨0, 0⟩⟩

@[simp] theorem bareLabel_inj {l l' : Label} :
    bareLabel l = bareLabel l' ↔ l.kind.name = l'.kind.name := by
  simp [bareLabel]

mutual

/-- The node without class, role, place and trivia, and so are the nodes below it. -/
def bare : Node → Node
  | .leaf l _ t => .leaf (bareLabel l) "" t
  | .branch l cs => .branch (bareLabel l) (bareAll cs)

/-- The nodes without classes, roles, places and trivia. -/
def bareAll : List Node → List Node
  | [] => []
  | n :: ns => bare n :: bareAll ns

end

theorem bareAll_eq_map (ns : List Node) : bareAll ns = ns.map bare := by
  induction ns with
  | nil => rfl
  | cons n ns ih => rw [bareAll, List.map_cons, ih]

theorem length_bareAll (ns : List Node) : (bareAll ns).length = ns.length := by
  rw [bareAll_eq_map, List.length_map]

mutual

/-- **Agreement is equality** of what is left without classes, roles, places and trivia. -/
theorem same_iff : ∀ n m : Node, n.same m = true ↔ n.bare = m.bare
  | .leaf l tr t, .leaf l' tr' t' => by simp [same, bare]
  | .leaf l tr t, .branch l' cs' => by simp [same, bare]
  | .branch l cs, .leaf l' tr' t' => by simp [same, bare]
  | .branch l cs, .branch l' cs' => by simp [same, bare, sameAll_iff cs cs']

theorem sameAll_iff : ∀ ns ms : List Node, sameAll ns ms = true ↔ bareAll ns = bareAll ms
  | [], [] => by simp [sameAll]
  | [], m :: ms => by simp [sameAll, bareAll]
  | n :: ns, [] => by simp [sameAll, bareAll]
  | n :: ns, m :: ms => by simp [sameAll, bareAll, same_iff n m, sameAll_iff ns ms]

end

/-! ## Tokens -/

mutual

/-- What is left of a node has what is left of its tokens. -/
theorem tokens_bare : ∀ n : Node, n.bare.tokens = bareAll n.tokens
  | .leaf .. => rfl
  | .branch _ cs => tokensAll_bareAll cs

theorem tokensAll_bareAll : ∀ ns : List Node, tokensAll (bareAll ns) = bareAll (tokensAll ns)
  | [] => rfl
  | n :: ns => by
      rw [bareAll, tokensAll, tokensAll, tokens_bare n, tokensAll_bareAll ns]
      simp only [bareAll_eq_map, List.map_append]

end

/-- What is left of nodes has their texts. -/
theorem map_text?_bareAll (ns : List Node) : (bareAll ns).map text? = ns.map text? := by
  rw [bareAll_eq_map, List.map_map]
  congr 1
  funext n
  cases n <;> rfl

/-- What is left of a node has its token texts. -/
theorem normalized_bare (n : Node) : n.bare.normalized = n.normalized := by
  have htexts := congrArg (List.map fun x : Option String => x.getD "") (map_text?_bareAll n.tokens)
  rw [List.map_map, List.map_map] at htexts
  unfold normalized
  rw [tokens_bare]
  exact congrArg (String.intercalate " ") htexts

end Syntax.Node

/-! ## Bound values -/

namespace Bound

open Syntax (Node)

/-- A bound value agrees with itself. -/
theorem same_refl (x : Bound) : x.same x = true := by
  cases x with
  | node n => exact Node.same_refl n
  | run ns anchor => exact Node.sameAll_refl ns

/-- The bound nodes without classes, roles, places and trivia. -/
def bare : Bound → Bound
  | .node n => .node n.bare
  | .run ns _ => .run (Node.bareAll ns) 0

/-- **Agreement of bound values is equality** of what is left without classes, roles, places and trivia. -/
theorem same_iff (x y : Bound) : x.same y = true ↔ x.bare = y.bare := by
  cases x with
  | node n =>
      cases y with
      | node m => simpa [same, bare] using Node.same_iff n m
      | run ms anchor => simp [same, bare]
  | run ns anchor =>
      cases y with
      | node m => simp [same, bare]
      | run ms anchor' => simpa [same, bare] using Node.sameAll_iff ns ms

theorem same_symm {x y : Bound} (h : x.same y = true) : y.same x = true :=
  (same_iff y x).mpr ((same_iff x y).mp h).symm

theorem same_trans {x y z : Bound} (h : x.same y = true) (h' : y.same z = true) :
    x.same z = true :=
  (same_iff x z).mpr (((same_iff x y).mp h).trans ((same_iff y z).mp h'))

/-- Runs that agree are equally long. -/
theorem length_eq_of_same {ns ms : List Node} {anchor anchor' : Nat}
    (h : (run ns anchor).same (run ms anchor') = true) : ns.length = ms.length := by
  have hb : Node.bareAll ns = Node.bareAll ms := (Node.sameAll_iff ns ms).mp h
  rw [← Node.length_bareAll ns, ← Node.length_bareAll ms, hb]

end Bound

end JavaRefactor

import JavaRefactor.Proofs.Rule.Unbound

/-!
# `Proofs.Rule.Predicates` — what the predicates of a checked rule are about

The names in the predicates of a rule are checked once, against all before-templates together: one that records
the metavariable is enough. A predicate is evaluated for a match of one before-template, and it does not hold
without a node for each of its names. So a before-template that binds one of them to no node finds nothing, and
the rule is accepted all the same.

## Contents
- **`Template.HasNode`**, and `Matcher.node?_isSome_iff_of_returns`: what a match binds to a node.
- **`Predicate.node?_isSome_of_holds`**: a predicate that holds is about nodes.
- **`RuleDraft.predicate_names_of_build`**, and `predicate_without_node`, a rule with a before-template that finds
  nothing.
-/

namespace JavaRefactor

open Syntax (Node)
open JavaRefactor.Types (Oracle)

/-! ## Nodes that are bound -/

/-- A placeholder of the template has this name and stands for a single node. -/
def Template.HasNode (t : Template) (name : String) : Prop :=
  ∃ v ∈ t.placeholders, v.name = name ∧ v.shape = .single

/-- **A match binds a name to a node** exactly if the template has a placeholder for a single node of that name,
    but for the wildcard. -/
theorem Matcher.node?_isSome_iff_of_returns {m : Matcher} {source : String} {ds : List Declaration} {b : Binding}
    (hc : Template.compile source ds = .ok m.template) (h : m.Returns b) (name : String) :
    (b.node? name).isSome = true ↔ name ≠ Metavariable.wildcard ∧ m.template.HasNode name := by
  constructor
  · intro hsome
    obtain ⟨n, hn⟩ := Option.isSome_iff_exists.mp hsome
    have hget := Binding.node?_eq_some.mp hn
    obtain ⟨hname, -⟩ := (get?_isSome_iff_of_returns hc h name).mp (by rw [hget]; rfl)
    -- the value is what a placeholder of that name faces, and of its shape
    obtain ⟨fs, he, hplaceholders, hshapes⟩ := explained_of_returns hc h
    obtain ⟨f, hf, hfname, hvalue⟩ := he.faced name _ hget
    have hmem : f.placeholder ∈ m.template.placeholders := hplaceholders ▸ List.mem_map_of_mem hf
    have hshape := hshapes f hf
    rw [hvalue] at hshape
    exact ⟨hname, f.placeholder, hmem, hfname, hshape.symm⟩
  · rintro ⟨hname, v, hv, rfl, hsingle⟩
    have hbound := (get?_isSome_iff_of_returns hc h v.name).mpr ⟨hname, List.mem_map_of_mem hv⟩
    obtain ⟨x, hx⟩ := Option.isSome_iff_exists.mp hbound
    have hrecorded := List.mem_of_find?_eq_some (Template.placeholdersOfAll_recorded _ hv)
    have hshape := shape_eq_of_returns hc h hx hrecorded
    cases x with
    | node n => rw [Binding.node?_eq_some.mpr hx]; rfl
    | run ns anchor => exact absurd (hshape.trans hsingle) (by simp [Bound.shape])

/-! ## Predicates -/

/-- **A predicate that holds is about nodes**: each of its names is bound to one. -/
theorem Predicate.node?_isSome_of_holds {p : Predicate} {o : Oracle} {b : Binding} (h : p.holds o b = true) :
    ∀ name ∈ p.names, (b.node? name).isSome = true := by
  have htyped : ∀ name, (typeOf o b name).isSome = true → (b.node? name).isSome = true := by
    intro name hname
    unfold typeOf at hname
    cases hn : b.node? name with
    | none => rw [hn] at hname; exact absurd hname (by simp)
    | some n => rfl
  cases p with
  | sameType left right =>
      have hleft : (typeOf o b left).isSome = true := by
        cases hl : typeOf o b left with
        | none => simp [holds, hl] at h
        | some type => rfl
      have hright : (typeOf o b right).isSome = true := by
        cases hr : typeOf o b right with
        | none => simp [holds, hr] at h
        | some type => rfl
      simp only [names, List.mem_cons, List.not_mem_nil, or_false, forall_eq_or_imp, forall_eq]
      exact ⟨htyped left hleft, htyped right hright⟩
  | literal name | notLiteral name =>
      simp only [names, List.mem_singleton, forall_eq]
      obtain ⟨n, hn, -⟩ := (Option.any_eq_true _ _).mp h
      rw [hn]
      rfl
  | notType name excluded =>
      simp only [names, List.mem_singleton, forall_eq]
      obtain ⟨type, htype, -⟩ := (Option.any_eq_true _ _).mp h
      exact htyped name (by rw [htype]; rfl)

namespace RuleDraft

/-- The names that the check of the predicates lets pass. -/
theorem binds_of_build {d : RuleDraft} {r : Rule} (h : d.build = .ok r) {p : Predicate} (hp : p ∈ r.predicates)
    {name : String} (hname : name ∈ p.names) : r.templates.binds name = true := by
  obtain ⟨_, -, -, hbound, -⟩ := build_inv h
  have hnone := List.findSome?_eq_none_iff.mp hbound p hp
  unfold unboundName? at hnone
  rw [Option.map_eq_none_iff, List.find?_eq_none] at hnone
  simpa using hnone name hname

/-- **What the predicates of a checked rule are about.** A name in one of them is not the wildcard, and some
    before-template uses it. A match of a before-template binds it to a node exactly if that template has a
    placeholder for a single node of this name, and a before-template that has none finds nothing. -/
theorem predicate_names_of_build {d : RuleDraft} {r : Rule} (h : d.build = .ok r) {p : Predicate}
    (hp : p ∈ r.predicates) {name : String} (hname : name ∈ p.names) :
    (name ≠ Metavariable.wildcard ∧ ∃ t ∈ r.templates.befores, t.uses name = true) ∧
    (∀ m : Matcher, m.template ∈ r.templates.befores → ∀ b, m.Returns b →
      ((b.node? name).isSome = true ↔ m.template.HasNode name)) ∧
    ∀ t ∈ r.templates.befores, ¬ t.HasNode name → ∀ root o, Pass.occurrencesOf r root o t = [] := by
  have hused := binds_of_build h hp hname
  unfold TemplateSet.binds at hused
  rw [Bool.and_eq_true, bne_iff_ne, List.any_eq_true] at hused
  have hnode : ∀ m : Matcher, m.template ∈ r.templates.befores → ∀ b, m.Returns b →
      ((b.node? name).isSome = true ↔ m.template.HasNode name) := by
    intro m hm b hb
    obtain ⟨source, hc⟩ := (checked_of_build h).befores m.template hm
    rw [Matcher.node?_isSome_iff_of_returns hc hb name]
    exact and_iff_right hused.1
  refine ⟨hused, hnode, ?_⟩
  intro t ht hnone root o
  -- a site would be a match that is accepted, and so with a node for the name
  by_contra hsome
  obtain ⟨occurrence, hmem⟩ := List.exists_mem_of_ne_nil _ hsome
  obtain ⟨s, hs, -⟩ := List.mem_map.mp hmem
  obtain ⟨hreturns, haccepts⟩ := Matcher.mem_sitesWhere hs
  have hholds := List.all_eq_true.mp haccepts p hp
  exact hnone ((hnode _ ht _ hreturns).mp (Predicate.node?_isSome_of_holds hholds name hname))

/-- A rule with a predicate and two before-templates. -/
def literalDraft (second : String) : RuleDraft :=
  ⟨"Literal", none, ["f($X);", second], some "h();", [], ["literal($X)"], []⟩

/-- A match of a before-template that binds the name, behind another one that does. -/
theorem predicate_names_of_build_second : ∃ (r : Rule) (m : Matcher) (b : Binding),
    (literalDraft "g($X, $$$R);").build = .ok r ∧ m.template ∈ r.templates.befores ∧ m.Returns b ∧
    .literal "X" ∈ r.predicates ∧ ((b.node? "X").isSome = true ↔ m.template.HasNode "X") := by
  have h : ((literalDraft "g($X, $$$R);").build.toOption.any fun r =>
      decide (.literal "X" ∈ r.predicates) && (r.templates.befores[1]?).any fun before =>
        (Java.parse? "g(1, a);").any fun t => (t.root.preorder[1]?).any fun n =>
          ((Matcher.mk before .empty).node? n).isSome) = true := by
    decide +kernel
  obtain ⟨r, hr, h⟩ := (Option.any_eq_true _ _).mp h
  obtain ⟨hp, h⟩ := (Bool.and_eq_true _ _).mp h
  obtain ⟨before, hbefore, h⟩ := (Option.any_eq_true _ _).mp h
  obtain ⟨t, -, h⟩ := (Option.any_eq_true _ _).mp h
  obtain ⟨n, -, h⟩ := (Option.any_eq_true _ _).mp h
  obtain ⟨b, hb⟩ := Option.isSome_iff_exists.mp h
  have hbuild := Attempts.toOption_eq_some.mp hr
  have hp := of_decide_eq_true hp
  have hmem := List.mem_of_getElem? hbefore
  have hname : "X" ∈ (Predicate.literal "X").names := by decide
  obtain ⟨-, hnode, -⟩ := predicate_names_of_build hbuild hp hname
  exact ⟨r, ⟨before, .empty⟩, b, hbuild, hmem, Or.inl ⟨n, hb⟩, hp, hnode ⟨before, .empty⟩ hmem b (Or.inl ⟨n, hb⟩)⟩

/-- A rule that is accepted although one of its before-templates does not bind the name in its predicate: a match
    of that template has no node for it. -/
theorem predicate_without_node : ∃ (r : Rule) (m : Matcher) (b : Binding),
    (literalDraft "g($A);").build = .ok r ∧ m.template ∈ r.templates.befores ∧ m.Returns b ∧
    .literal "X" ∈ r.predicates ∧ b.node? "X" = none := by
  have h : ((literalDraft "g($A);").build.toOption.any fun r =>
      decide (.literal "X" ∈ r.predicates) && (r.templates.befores[1]?).any fun before =>
        (Java.parse? "g(1);").any fun t => (t.root.preorder[1]?).any fun n =>
          ((Matcher.mk before .empty).node? n).any fun b => (b.node? "X").isNone) = true := by
    decide +kernel
  obtain ⟨r, hr, h⟩ := (Option.any_eq_true _ _).mp h
  obtain ⟨hp, h⟩ := (Bool.and_eq_true _ _).mp h
  obtain ⟨before, hbefore, h⟩ := (Option.any_eq_true _ _).mp h
  obtain ⟨t, -, h⟩ := (Option.any_eq_true _ _).mp h
  obtain ⟨n, -, h⟩ := (Option.any_eq_true _ _).mp h
  obtain ⟨b, hb, h⟩ := (Option.any_eq_true _ _).mp h
  exact ⟨r, ⟨before, .empty⟩, b, Attempts.toOption_eq_some.mp hr, List.mem_of_getElem? hbefore, Or.inl ⟨n, hb⟩,
    of_decide_eq_true hp, Option.isNone_iff_eq_none.mp h⟩

end RuleDraft

end JavaRefactor

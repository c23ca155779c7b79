import JavaRefactor.Pass.Instance

/-!
# `Proofs.Template.Placeholders` — the placeholder nodes of a template

Reading a template from its roots down, the nodes that stand for metavariables are its *placeholders*;
what is below one of them is not read. Matching binds the placeholders of a before-template, and filling
in asks for the placeholders of an after-template, which `slotsOf` lists with their parents.

## Contents
- **`placeholdersOf`**, **`placeholdersOfAll`** and **`Template.placeholders`**.
- **`placeholdersOfAll_slots`**: the slots of a template are its placeholders.
- **`placeholdersOfAll_recorded`**: a placeholder is a metavariable recorded for the template's text.
-/

namespace JavaRefactor

open Syntax (Node)

namespace Template

variable (t : Template)

mutual

/-- The placeholders of a template node, in order. -/
def placeholdersOf : Node → List Metavariable
  | .leaf l tr x => (t.metavariableAt? (.leaf l tr x)).toList
  | .branch l cs =>
    match t.metavariableAt? (.branch l cs) with
    | some v => [v]
    | none => placeholdersOfAll cs

/-- The placeholders of several template nodes, in order. -/
def placeholdersOfAll : List Node → List Metavariable
  | [] => []
  | p :: ps => placeholdersOf p ++ placeholdersOfAll ps

end

/-- The placeholders of a template, in order. -/
def placeholders : List Metavariable := t.placeholdersOfAll t.roots

/-- The names of the placeholders of a template. -/
def placeholderNames : List String := t.placeholders.map (·.name)

variable {t}

/-- A node that stands for a metavariable is its own only placeholder. -/
theorem placeholdersOf_of_some {p : Node} {v : Metavariable} (h : t.metavariableAt? p = some v) :
    t.placeholdersOf p = [v] := by
  cases p with
  | leaf l tr x => simp [placeholdersOf, h]
  | branch l cs => simp [placeholdersOf, h]

/-- A leaf that stands for no metavariable has no placeholder. -/
theorem placeholdersOf_leaf {l : Syntax.Label} {tr x : String}
    (h : t.metavariableAt? (.leaf l tr x) = none) : t.placeholdersOf (.leaf l tr x) = [] := by
  simp [placeholdersOf, h]

/-- A branch that stands for no metavariable has the placeholders of its children. -/
theorem placeholdersOf_branch {l : Syntax.Label} {cs : List Node}
    (h : t.metavariableAt? (.branch l cs) = none) :
    t.placeholdersOf (.branch l cs) = t.placeholdersOfAll cs := by
  simp [placeholdersOf, h]

@[simp] theorem placeholdersOfAll_nil : t.placeholdersOfAll [] = [] := rfl

@[simp] theorem placeholdersOfAll_cons (p : Node) (ps : List Node) :
    t.placeholdersOfAll (p :: ps) = t.placeholdersOf p ++ t.placeholdersOfAll ps := rfl

theorem placeholdersOfAll_append (ps qs : List Node) :
    t.placeholdersOfAll (ps ++ qs) = t.placeholdersOfAll ps ++ t.placeholdersOfAll qs := by
  induction ps with
  | nil => rfl
  | cons p ps ih => rw [List.cons_append, placeholdersOfAll_cons, ih, placeholdersOfAll_cons, List.append_assoc]

/-! ## Slots -/

/-- A node that stands for a metavariable is its own only slot. -/
theorem slotsOf_of_some {parent : Option Node} {p : Node} {v : Metavariable}
    (h : t.metavariableAt? p = some v) : Pass.slotsOf t parent p = [⟨p, parent, v.name⟩] := by
  cases p with
  | leaf l tr x => rw [Pass.slotsOf, h]
  | branch l cs => rw [Pass.slotsOf, h]

mutual

/-- The slots below a template node have the names of its placeholders. -/
theorem placeholdersOf_slots (parent : Option Node) :
    ∀ p : Node, (Pass.slotsOf t parent p).map (·.name) = (t.placeholdersOf p).map (·.name)
  | .leaf l tr x => by
      cases h : t.metavariableAt? (.leaf l tr x) with
      | none => simp [Pass.slotsOf, placeholdersOf, h]
      | some v => simp [Pass.slotsOf, placeholdersOf, h]
  | .branch l cs => by
      cases h : t.metavariableAt? (.branch l cs) with
      | none =>
          simp only [Pass.slotsOf, placeholdersOf, h]
          exact placeholdersOfAll_slots (some (.branch l cs)) cs
      | some v => simp [Pass.slotsOf, placeholdersOf, h]

/-- The slots below template nodes have the names of their placeholders. -/
theorem placeholdersOfAll_slots (parent : Option Node) :
    ∀ ps : List Node,
      (Pass.slotsOfAll t parent ps).map (·.name) = (t.placeholdersOfAll ps).map (·.name)
  | [] => rfl
  | p :: ps => by
      simp only [Pass.slotsOfAll, placeholdersOfAll_cons, List.map_append]
      rw [placeholdersOf_slots parent p, placeholdersOfAll_slots parent ps]

end

/-! ## Recorded metavariables -/

/-- A template node stands for the first recorded metavariable of its name. -/
theorem metavariableAt?_recorded {p : Node} {v : Metavariable} (h : t.metavariableAt? p = some v) :
    t.metavariables.find? (·.name == v.name) = some v := by
  unfold metavariableAt? at h
  split at h
  · exact absurd h (by simp)
  · split at h
    · obtain ⟨name, _, hv⟩ := Option.bind_eq_some_iff.mp h
      have hn : v.name = name := by simpa using List.find?_some hv
      rw [hn]; exact hv
    · exact absurd h (by simp)

mutual

theorem placeholdersOf_recorded : ∀ (p : Node) {v : Metavariable}, v ∈ t.placeholdersOf p →
    t.metavariables.find? (·.name == v.name) = some v
  | .leaf l tr x, v, hv => by
      simp only [placeholdersOf, Option.mem_toList] at hv
      exact metavariableAt?_recorded hv
  | .branch l cs, v, hv => by
      cases h : t.metavariableAt? (.branch l cs) with
      | none =>
          rw [placeholdersOf_branch h] at hv
          exact placeholdersOfAll_recorded cs hv
      | some w =>
          rw [placeholdersOf_of_some h, List.mem_singleton] at hv
          exact hv ▸ metavariableAt?_recorded h

/-- A placeholder is the first recorded metavariable of its name. -/
theorem placeholdersOfAll_recorded : ∀ (ps : List Node) {v : Metavariable},
    v ∈ t.placeholdersOfAll ps → t.metavariables.find? (·.name == v.name) = some v
  | [], v, hv => absurd hv (by simp)
  | p :: ps, v, hv => by
      rcases List.mem_append.mp hv with h | h
      · exact placeholdersOf_recorded p h
      · exact placeholdersOfAll_recorded ps h

end

end Template

end JavaRefactor

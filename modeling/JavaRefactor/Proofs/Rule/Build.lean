import JavaRefactor.Proofs.Attempts
import JavaRefactor.Proofs.Template.Compile
import JavaRefactor.Rule.Basic

/-!
# `Proofs.Rule.Build` — what the checks of a rule establish

## Contents
- **Parts.** `TemplateSet.compile_inv` and `RuleDraft.build_inv`.
- **`TemplateSet.Checked`**: the templates of a set are compiled, and every before-template has the
  recorded metavariables of the after-template.
- **`RuleDraft.checked_of_build`**: so are the templates of a rule that is built.
-/

namespace JavaRefactor

/-- **Compiled sets of templates.** Every template is compiled with the declarations of the set; a
    metavariable recorded for the after-template is not the wildcard, and each before-template records
    one of its name and shape. -/
structure TemplateSet.Checked (s : TemplateSet) : Prop where
  befores : ∀ t ∈ s.befores, ∃ source, Template.compile source s.declarations = .ok t
  after : ∃ source, Template.compile source s.declarations = .ok s.after
  named : ∀ v ∈ s.after.metavariables, v.name ≠ Metavariable.wildcard
  recorded : ∀ v ∈ s.after.metavariables, ∀ t ∈ s.befores,
    ∃ w ∈ t.metavariables, w.name = v.name ∧ w.shape = v.shape

namespace TemplateSet

/-- Checking a metavariable of the after-template looks for one of its name and shape in every
    before-template. -/
theorem boundEverywhere_iff {befores : List Template} {v : Metavariable} :
    boundEverywhere befores v = true ↔ v.name ≠ Metavariable.wildcard ∧
      ∀ t ∈ befores, ∃ w ∈ t.metavariables, w.name = v.name ∧ w.shape = v.shape := by
  unfold boundEverywhere hasMetavariable
  simp

/-- **The parts of a set of templates that is compiled.** -/
theorem compile_inv {befores : List String} {after : String} {ds : List Declaration}
    {s : TemplateSet} (h : compile befores after ds = .ok s) :
    s.declarations = ds ∧ befores.mapM (Template.compile · ds) = .ok s.befores ∧
      Template.compile after ds = .ok s.after ∧
      s.after.metavariables.find? (!boundEverywhere s.befores ·) = none := by
  unfold compile at h
  split at h
  · exact absurd h (by simp)
  · split at h
    · exact absurd h (by simp)
    · obtain ⟨bs, hbs, h⟩ := Attempts.bind_eq_ok.mp h
      obtain ⟨a, ha, h⟩ := Attempts.bind_eq_ok.mp h
      split at h
      · exact absurd h (by simp)
      · split at h
        · exact absurd h (by simp)
        · rename_i hfind
          have hs : (⟨bs, a, ds⟩ : TemplateSet) = s := Except.ok.inj h
          subst hs
          exact ⟨rfl, hbs, ha, hfind⟩

/-- A set of templates that is compiled is checked. -/
theorem checked_of_compile {befores : List String} {after : String} {ds : List Declaration}
    {s : TemplateSet} (h : compile befores after ds = .ok s) : s.Checked := by
  obtain ⟨rfl, hbs, ha, hfind⟩ := compile_inv h
  -- no metavariable of the after-template was found wanting
  have hbound : ∀ v ∈ s.after.metavariables, boundEverywhere s.befores v = true := by
    intro v hv
    have := List.find?_eq_none.mp hfind v hv
    simpa using this
  refine ⟨?_, ⟨after, ha⟩, ?_, ?_⟩
  · intro t ht
    obtain ⟨source, _, hc⟩ := Attempts.mem_of_mapM_ok hbs ht
    exact ⟨source, hc⟩
  · intro v hv
    exact (boundEverywhere_iff.mp (hbound v hv)).1
  · intro v hv
    exact (boundEverywhere_iff.mp (hbound v hv)).2

end TemplateSet

/-- **The parts of a rule that is built.** -/
theorem RuleDraft.build_inv {d : RuleDraft} {r : Rule} (h : d.build = .ok r) :
    ∃ after, d.after = some after ∧
      TemplateSet.compile d.befores after r.templates.declarations = .ok r.templates ∧
      r.predicates.findSome? (unboundName? r.templates) = none ∧
      d.imports.mapM ImportSpec.parse = .ok r.imports := by
  unfold build at h
  split at h
  · exact absurd h (by simp)
  · rename_i after hafter
    obtain ⟨ds, _, h⟩ := Attempts.bind_eq_ok.mp h
    obtain ⟨s, hs, h⟩ := Attempts.bind_eq_ok.mp h
    obtain ⟨ps, _, h⟩ := Attempts.bind_eq_ok.mp h
    split at h
    · exact absurd h (by simp)
    · rename_i hbound
      obtain ⟨is, his, h⟩ := Attempts.bind_eq_ok.mp h
      have hr : (⟨d.name, d.description, s, ps, is⟩ : Rule) = r := Except.ok.inj h
      subst hr
      obtain ⟨rfl, -⟩ := TemplateSet.compile_inv hs
      exact ⟨after, hafter, hs, hbound, his⟩

/-- **The templates of a rule that is built are checked.** -/
theorem RuleDraft.checked_of_build {d : RuleDraft} {r : Rule} (h : d.build = .ok r) :
    r.templates.Checked := by
  obtain ⟨_, _, hs, _⟩ := build_inv h
  exact TemplateSet.checked_of_compile hs

end JavaRefactor

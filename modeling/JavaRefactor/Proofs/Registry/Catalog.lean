import JavaRefactor.Proofs.Recipe.Convergence
import JavaRefactor.Proofs.Registry.Loading
import JavaRefactor.Proofs.Rule.Weight
import JavaRefactor.Registry.Catalog

/-!
# `Proofs.Registry.Catalog` — the built-in recipes come to an end

Each before-template of the catalog has characters that its after-template has not: an `=`, a `?`, a `"`, or else more
full stops, or a `q`. Where these are weighed, and all else weighs nothing, the texts of every draft show that its rule
makes texts lighter, and so do all rules that are registered. So no built-in recipe rewrites a text for ever.

## Contents
- **`Catalog.charWeight`**, the weights, and `Catalog.sparesLayout`.
- **`Catalog.takesOff_of_mem`**: what is checked of the texts of each draft.
- **`Registry.shrinks_of_mem_recipe`**, for the rules of a built-in recipe, and **`Registry.run_builtIn_converges`**, for
  its runs.
-/

namespace JavaRefactor

namespace Catalog

/-- What a character weighs. Those that weigh something are what the built-in rules take out of a text. -/
def charWeight : Char → Nat
  | '=' | '?' | '"' => 100
  | '.' | 'q' => 1
  | _ => 0

theorem charWeight_le (c : Char) : charWeight c ≤ 100 := by
  unfold charWeight
  split <;> omega

/-- A character that weighs something is one of five. -/
theorem charWeight_eq_zero {c : Char} (h : c ∉ ['=', '?', '"', '.', 'q']) : charWeight c = 0 := by
  unfold charWeight
  split <;> first | rfl | exact absurd (by decide) h

/-- None of them is a blank, a semicolon, or part of a metavariable. -/
theorem sparesLayout : SparesLayout charWeight where
  dollar := rfl
  names := by
    intro c hc
    refine charWeight_eq_zero ?_
    intro hmem
    have hnone : ['=', '?', '"', '.', 'q'].all (fun d => !Metavariable.continuesName d) = true := by decide
    have hno := List.all_eq_true.mp hnone c hmem
    rw [hc] at hno
    exact absurd hno (by simp)
  blank := by
    intro c hc
    refine charWeight_eq_zero ?_
    intro hmem
    have hnone : ['=', '?', '"', '.', 'q'].all (fun d => !Text.isBlank d) = true := by decide
    have hno := List.all_eq_true.mp hnone c hmem
    rw [hc] at hno
    exact absurd hno (by simp)
  mark := rfl
  semicolon := rfl

/-- The rules that check arguments, each with the import that it needs. -/
def checks : List (RuleDraft × List ImportSpec) :=
  preconditions.zip
    [[⟨"java.util.Objects.checkIndex", true⟩], [⟨"java.util.Objects.requireNonNull", true⟩]]

/-- **Every draft of the catalog** has texts that show that its rule makes texts lighter. -/
theorem takesOff_of_mem {d : RuleDraft} (hd : d ∈ drafts) :
    ∃ imports, d.imports.mapM ImportSpec.parse = .ok imports ∧ d.takesOff charWeight imports = true := by
  have hplain : ∀ d ∈ assertions ++ strings ++ numbers,
      d.imports = [] ∧ d.takesOff charWeight [] = true := by decide +kernel
  have himports : ∀ p ∈ checks, (p.1.imports.mapM ImportSpec.parse).toOption = some p.2 := by
    decide +kernel
  have hchecks : ∀ p ∈ checks, p.1.takesOff charWeight p.2 = true := by decide +kernel
  have hmap : checks.map Prod.fst = preconditions := List.map_fst_zip (by decide)
  have hcases : d ∈ assertions ++ strings ++ numbers ∨ d ∈ checks.map Prod.fst := by
    rw [hmap]
    unfold drafts at hd
    simp only [List.mem_append] at hd ⊢
    rcases hd with ((hd | hd) | hd) | hd
    · exact Or.inl (Or.inl (Or.inl hd))
    · exact Or.inr hd
    · exact Or.inl (Or.inl (Or.inr hd))
    · exact Or.inl (Or.inr hd)
  rcases hcases with hd | hd
  · obtain ⟨hnone, hlighter⟩ := hplain d hd
    exact ⟨[], by rw [hnone]; rfl, hlighter⟩
  · obtain ⟨p, hp, rfl⟩ := List.mem_map.mp hd
    exact ⟨p.2, Attempts.toOption_eq_some.mp (himports p hp), hchecks p hp⟩

end Catalog

namespace Registry

/-- **The rules of a built-in recipe** make texts lighter. -/
theorem shrinks_of_mem_recipe {name : String} {rules : List Rule} (h : builtIn.recipe name = .ok rules) :
    ∀ rule ∈ rules, rule.Shrinks Catalog.charWeight := by
  intro rule hrule
  unfold builtIn at h
  obtain ⟨d, hd, hbuild⟩ := exists_draft_of_mem_recipe h hrule
  obtain ⟨imports, himports, hlighter⟩ := Catalog.takesOff_of_mem hd
  exact RuleDraft.shrinks_of_takesOff Catalog.sparesLayout rfl himports hlighter hbuild

/-- **A built-in recipe comes to an end** on every text: if it may change the text a hundred times for each character,
    it does not diverge, with or without mending the imports. -/
theorem run_builtIn_converges {name : String} {rules : List Rule} (h : builtIn.recipe name = .ok rules)
    (fixImports : Bool) (source : String) :
    ∃ bound, bound = 100 * source.length ∧ ∀ maxCycles, bound ≤ maxCycles →
      ∀ cycles change, Recipe.run fixImports rules source maxCycles ≠ .error (.divergence cycles change) := by
  refine ⟨_, rfl, ?_⟩
  intro maxCycles hmax
  have hweight := Text.weight_le_mul Catalog.charWeight_le source.toList
  rw [String.length_toList] at hweight
  exact Recipe.run_ne_divergence (shrinks_of_mem_recipe h) (Nat.le_trans hweight hmax)

/-- The first of the built-in rules, at a text in which it finds something to do. -/
theorem run_builtIn_converges_sizes : ∃ rule,
    builtIn.recipe "AssertJEnumerableRules.EnumerableAssertHasSameSizeAsRecipe" = .ok [rule] ∧
    ∀ maxCycles, 4100 ≤ maxCycles → ∀ cycles change,
      Recipe.run true [rule] "assertThat(a).hasSize(Iterables.size(b));" maxCycles ≠
        .error (.divergence cycles change) := by
  have hne : Catalog.drafts ≠ [] := by decide
  have hsplit : Catalog.drafts.head hne :: Catalog.drafts.tail = Catalog.drafts := List.cons_head_tail hne
  have hname : (Catalog.drafts.head hne).name =
      "AssertJEnumerableRules.EnumerableAssertHasSameSizeAsRecipe" := rfl
  have hbuild : (Catalog.drafts.head hne).build.toOption.isSome = true := by
    decide +kernel +revert
  obtain ⟨rule, hrule⟩ := Option.isSome_iff_exists.mp hbuild
  have hrecipe : builtIn.recipe "AssertJEnumerableRules.EnumerableAssertHasSameSizeAsRecipe" = .ok [rule] := by
    have hfirst : (ofDrafts (Catalog.drafts.head hne :: Catalog.drafts.tail)).recipe
        (Catalog.drafts.head hne).name = .ok [rule] :=
      recipe_ofDrafts_cons (Attempts.toOption_eq_some.mp hrule)
    rw [hsplit, hname] at hfirst
    exact hfirst
  refine ⟨rule, hrecipe, ?_⟩
  intro maxCycles hmax
  obtain ⟨bound, rfl, hconverges⟩ :=
    run_builtIn_converges hrecipe true "assertThat(a).hasSize(Iterables.size(b));"
  have hlength : "assertThat(a).hasSize(Iterables.size(b));".length = 41 := by decide
  exact hconverges maxCycles (by rw [hlength]; omega)

end Registry

end JavaRefactor

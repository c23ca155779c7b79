import JavaRefactor.Pass.Occurrence
import JavaRefactor.Proofs.Match.Sites
import JavaRefactor.Proofs.Sorting

/-!
# `Proofs.Pass.Occurrences` — the occurrences of a rule in a tree

## Contents
- **`mem_occurrences`**: an occurrence is a site of the before-template that it names.
- **`pairwise_occurrences`**, **`overlap?_occurrences`**: no two occurrences overlap.
-/

namespace JavaRefactor.Pass

open Syntax (Tree)
open JavaRefactor.Types (Oracle)

/-- What is kept apart comes from the list. -/
theorem mem_foldl_keepApart {os kept : List Occurrence} {o : Occurrence}
    (h : o ∈ os.foldl keepApart kept) : o ∈ kept ∨ o ∈ os := by
  induction os generalizing kept with
  | nil => exact Or.inl h
  | cons x xs ih =>
      rcases ih h with h | h
      · unfold keepApart at h
        split at h
        · exact Or.inl h
        · rcases List.mem_append.mp h with h | h
          · exact Or.inl h
          · exact Or.inr (by simp [List.mem_singleton.mp h])
      · exact Or.inr (by simp [h])

/-- An occurrence is a site of the before-template that it names. -/
theorem site_of_mem_occurrences {r : Rule} {t : Tree} {types : Oracle} {o : Occurrence}
    (h : o ∈ occurrences r t types) :
    o.before ∈ r.templates.befores ∧
    o.site ∈ (Matcher.mk o.before (.ofOracle types)).sitesWhere (r.accepts types) t.root := by
  unfold occurrences at h
  rcases mem_foldl_keepApart (mem_sortBy.mp h) with h | h
  · exact absurd h (by simp)
  · obtain ⟨before, hb, ho⟩ := List.mem_flatMap.mp h
    obtain ⟨s, hs, rfl⟩ := List.mem_map.mp ho
    exact ⟨hb, hs⟩

/-- **Occurrences are matches** of the before-template that they name, with accepted bindings. -/
theorem mem_occurrences {r : Rule} {t : Tree} {types : Oracle} {o : Occurrence}
    (h : o ∈ occurrences r t types) :
    o.before ∈ r.templates.befores ∧
    (Matcher.mk o.before (.ofOracle types)).Returns o.site.binding ∧
    r.accepts types o.site.binding = true := by
  obtain ⟨hb, hs⟩ := site_of_mem_occurrences h
  exact ⟨hb, Matcher.mem_sitesWhere hs⟩

/-- Two occurrences that share no byte. -/
def Apart (a b : Occurrence) : Prop := a.span.overlaps b.span = false

theorem Apart.symm {a b : Occurrence} (h : Apart a b) : Apart b a := by
  unfold Apart Text.Span.overlaps at h ⊢
  rw [Bool.and_comm]; exact h

theorem pairwise_foldl_keepApart {os kept : List Occurrence} (h : kept.Pairwise Apart) :
    (os.foldl keepApart kept).Pairwise Apart := by
  induction os generalizing kept with
  | nil => exact h
  | cons x xs ih =>
      -- one step is enough: what is added overlaps nothing that was kept before
      refine ih ?_
      unfold keepApart
      split
      · exact h
      · rename_i hx
        refine List.pairwise_append.mpr ⟨h, List.pairwise_singleton _ _, ?_⟩
        intro a ha b hb
        rw [List.mem_singleton] at hb
        subst hb
        have hn : ¬ (kept.any (·.span.overlaps b.span)) = true := hx
        rw [List.any_eq_true] at hn
        have ho : ¬ a.span.overlaps b.span = true := fun h => hn ⟨a, ha, h⟩
        simpa [Apart] using ho

/-- **No two occurrences overlap**, whatever the sites they come from. -/
theorem pairwise_occurrences (r : Rule) (t : Tree) (types : Oracle) :
    (occurrences r t types).Pairwise Apart :=
  pairwise_sortBy (fun _ _ => Apart.symm) (pairwise_foldl_keepApart .nil)

/-- Where no two occurrences overlap, no two neighbours do. -/
theorem overlap?_eq_none : ∀ {os : List Occurrence}, os.Pairwise Apart → overlap? os = none
  | [], _ => rfl
  | [_], _ => rfl
  | a :: b :: os, h => by
      obtain ⟨ha, hb⟩ := List.pairwise_cons.mp h
      have hab : a.span.overlaps b.span = false := ha b (by simp)
      unfold overlap?
      rw [hab]
      exact overlap?_eq_none hb

theorem overlap?_occurrences (r : Rule) (t : Tree) (types : Oracle) :
    overlap? (occurrences r t types) = none :=
  overlap?_eq_none (pairwise_occurrences r t types)

end JavaRefactor.Pass

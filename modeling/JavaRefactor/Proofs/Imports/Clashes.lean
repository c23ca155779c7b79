import JavaRefactor.Proofs.Imports.Edits

/-!
# `Proofs.Imports.Clashes` — imports that come with one name

An import that a file has provides its name, so that none of that name comes. Those that come are not held against
each other; they are put in order of their paths, and of equal neighbours one is left. Equal ones are neighbours in this
order, unless another one with their path stands between them.

## Contents
- **`PathFirst`**, and `added_eq_dedup`: where the path tells the import, no import comes twice.
- **`additions_distinct_iff`**: when the names of those that come are different.
-/

namespace JavaRefactor.Imports

open Syntax (Tree)

variable {after : Tree} {wanted : List ImportSpec}

/-- The one import comes before the other in order of paths, the last path first, and is the same if their paths are. -/
def PathFirst (i j : ImportSpec) : Prop := j.path ≤ i.path ∧ (i.path = j.path → i = j)

instance : Std.Antisymm PathFirst where
  antisymm _ _ h h' := h.2 (le_antisymm h'.1 h.1)

theorem simpleName_of_path {i j : ImportSpec} (h : i.path = j.path) : i.simpleName = j.simpleName := by
  unfold ImportSpec.simpleName
  rw [h]

/-- **No import comes twice** where the needed ones with one path are the same. -/
theorem added_eq_dedup
    (h : ∀ i ∈ wanted, ∀ j ∈ wanted, IsNeeded after i → IsNeeded after j → i.path = j.path → i = j) :
    added after wanted =
      (sortWith (fun i j => decide (j.path ≤ i.path)) (wanted.filter (IsNeeded after))).dedup := by
  have hmem : ∀ i ∈ sortWith (fun i j => decide (j.path ≤ i.path)) (wanted.filter (IsNeeded after)),
      i ∈ wanted ∧ IsNeeded after i := by
    intro i hi
    obtain ⟨hwanted, hneeded⟩ := List.mem_filter.mp ((perm_sortWith _).mem_iff.mp hi)
    exact ⟨hwanted, of_decide_eq_true hneeded⟩
  have hsorted : (sortWith (fun i j => decide (j.path ≤ i.path)) (wanted.filter (IsNeeded after))).Pairwise
      PathFirst := by
    refine (pairwise_path_sortWith _).imp_of_mem ?_
    intro i j hi hj hle
    exact ⟨hle, h i (hmem i hi).1 j (hmem j hj).1 (hmem i hi).2 (hmem j hj).2⟩
  exact hsorted.destutter_eq_dedup

/-- **When the imports that come clash.** Their names are different exactly if those of the imports needed that have one
    name are the same; and in any case none of them has the name of an import of the file that names one thing. -/
theorem additions_distinct_iff (after : Tree) (wanted : List ImportSpec) :
    ((additions (declared after) (usedNames after.root) (packageName? after) wanted).Pairwise
        (·.simpleName ≠ ·.simpleName) ↔
      ∀ i ∈ wanted, ∀ j ∈ wanted, IsNeeded after i → IsNeeded after j → i.simpleName = j.simpleName → i = j) ∧
    ∀ i ∈ additions (declared after) (usedNames after.root) (packageName? after) wanted,
      ∀ d ∈ declared after, d.onDemand = false → d.simpleName ≠ i.simpleName := by
  rw [additions_eq]
  refine ⟨⟨?_, ?_⟩, ?_⟩
  · intro hdistinct i hi j hj hneeded hneeded' hname
    have hsymm : Std.Symm fun i j : ImportSpec => i.simpleName ≠ j.simpleName := ⟨fun _ _ => Ne.symm⟩
    by_contra hne
    exact hdistinct.forall (mem_added.mpr ⟨hi, hneeded⟩) (mem_added.mpr ⟨hj, hneeded'⟩) hne hname
  · intro hsame
    have hpaths : ∀ i ∈ wanted, ∀ j ∈ wanted, IsNeeded after i → IsNeeded after j → i.path = j.path → i = j :=
      fun i hi j hj hneeded hneeded' hpath => hsame i hi j hj hneeded hneeded' (simpleName_of_path hpath)
    have hnodup : (added after wanted).Nodup := by
      rw [added_eq_dedup hpaths]
      exact List.nodup_dedup _
    refine hnodup.imp_of_mem ?_
    intro i j hi hj hne hname
    obtain ⟨hwanted, hneeded⟩ := mem_added.mp hi
    obtain ⟨hwanted', hneeded'⟩ := mem_added.mp hj
    exact hne (hsame i hwanted j hwanted' hneeded hneeded' hname)
  · intro i hi d hd hsingle hname
    obtain ⟨-, -, -, hmissing⟩ := mem_added.mp hi
    have hnot := hmissing d hd
    unfold Declared.provides at hnot
    rw [hsingle, if_neg Bool.false_ne_true, hname, beq_self_eq_true] at hnot
    exact absurd hnot (by simp)

/-- An import that comes twice, on both sides of another one of its name. -/
theorem fix?_adds_twice : ∃ before after : Tree,
    Java.parse? "class T { void t(int a) { f(a); } }" = some before ∧
    Java.parse? "class T { void t(int a) { X.g(a); } }" = some after ∧
    additions (declared after) (usedNames after.root) (packageName? after)
      [⟨"a.X", true⟩, ⟨"a.X", false⟩, ⟨"a.X", true⟩] = [⟨"a.X", true⟩, ⟨"a.X", false⟩, ⟨"a.X", true⟩] ∧
    ¬ (additions (declared after) (usedNames after.root) (packageName? after)
      [⟨"a.X", true⟩, ⟨"a.X", false⟩, ⟨"a.X", true⟩]).Pairwise (·.simpleName ≠ ·.simpleName) ∧
    fix? before after [⟨"a.X", true⟩, ⟨"a.X", false⟩, ⟨"a.X", true⟩] =
      some "import static a.X;\n\nimport a.X;\n\nimport static a.X;\n\nclass T { void t(int a) { X.g(a); } }" := by
  have h : ((Java.parse? "class T { void t(int a) { f(a); } }").any fun before =>
      (Java.parse? "class T { void t(int a) { X.g(a); } }").any fun after =>
        additions (declared after) (usedNames after.root) (packageName? after)
          [⟨"a.X", true⟩, ⟨"a.X", false⟩, ⟨"a.X", true⟩] == [⟨"a.X", true⟩, ⟨"a.X", false⟩, ⟨"a.X", true⟩] &&
        fix? before after [⟨"a.X", true⟩, ⟨"a.X", false⟩, ⟨"a.X", true⟩] ==
          some "import static a.X;\n\nimport a.X;\n\nimport static a.X;\n\nclass T { void t(int a) { X.g(a); } }") =
            true := by
    decide +kernel
  obtain ⟨before, hbefore, h⟩ := (Option.any_eq_true _ _).mp h
  obtain ⟨after, hafter, h⟩ := (Option.any_eq_true _ _).mp h
  obtain ⟨hadditions, hout⟩ := (Bool.and_eq_true _ _).mp h
  have hadditions := beq_iff_eq.mp hadditions
  refine ⟨before, after, hbefore, hafter, hadditions, ?_, beq_iff_eq.mp hout⟩
  rw [hadditions]
  intro hdistinct
  exact (List.pairwise_cons.mp hdistinct).1 ⟨"a.X", false⟩ (List.mem_cons_self ..) rfl

end JavaRefactor.Imports

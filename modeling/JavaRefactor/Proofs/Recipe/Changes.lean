import JavaRefactor.Proofs.Batch.File
import JavaRefactor.Proofs.Java.Parse
import Mathlib.Algebra.Order.BigOperators.Group.Finset

/-!
# `Proofs.Recipe.Changes` — the counts of a run tell whether it has changed the text

A run counts cycles, and a batch compares texts. Both say the same: a run whose first cycle changes the text
never comes back to it, for it would have to go on from there as it did before; and a cycle that changes the
text has replaced a site. Sites whose replacements undo each other within a cycle are not counted.

## Contents
- **Passes and cycles.** `output_of_applied_eq_zero`, `cycleFrom_counts`.
- **Runs.** `Ended`, how a run ends that ends well, and `ended_of_run`; from it `counts_of_run`.
- **Files.** `rewriteFile_unchanged_iff` and `exists_run_of_rewritten`.
- **`changes_counted`**, for runs and for the files of a batch.
-/

namespace JavaRefactor

/-! ## Passes and cycles -/

/-- A pass that replaces nothing leaves the text as it is. -/
theorem Pass.output_of_applied_eq_zero {fixImports : Bool} {r : Rule} {source : String} {out : Outcome}
    (h : apply fixImports r source = .ok out) (hnone : out.applied = 0) : out.output = source := by
  rw [apply_eq] at h
  obtain ⟨t, ht, ho⟩ := Attempts.bind_eq_ok.mp h
  have hsource : t.source = source := (spelled_of_readJava ht).1
  unfold outcomeOf at ho
  simp only at ho
  split at ho
  · obtain rfl := Except.ok.inj ho
    exact hsource
  · -- there is an occurrence, and it is counted
    rename_i hos
    obtain ⟨after, -, rfl⟩ := Attempts.map_eq_ok.mp ho
    exact absurd (List.isEmpty_iff_length_eq_zero.mpr hnone) hos

namespace Recipe

variable {fixImports : Bool} {rules : List Rule} {source : String}

/-- Rules in order add to the count, and where they add nothing they leave the text as it is. -/
theorem cycleFrom_counts {s next : String} {before behind : Nat}
    (h : cycleFrom fixImports rules s before = .ok (next, behind)) :
    before ≤ behind ∧ (behind = before → next = s) := by
  induction rules generalizing s before with
  | nil =>
      obtain ⟨rfl, rfl⟩ := Prod.mk.inj (Except.ok.inj h)
      exact ⟨Nat.le_refl _, fun _ => rfl⟩
  | cons r rules ih =>
      unfold cycleFrom at h
      cases hr : Pass.apply fixImports r s with
      | error p =>
          rw [hr] at h
          exact absurd h (by simp)
      | ok out =>
          rw [hr] at h
          obtain ⟨hle, hsame⟩ := ih h
          refine ⟨by omega, ?_⟩
          intro hnone
          have hout : out.output = s := Pass.output_of_applied_eq_zero hr (by omega)
          rw [hsame (by omega), hout]

/-- **A cycle that changes the text** has replaced a site. -/
theorem sitesIn_pos {k : Nat} {s next : String} (h : textAfter fixImports rules source k = .ok s)
    (h' : textAfter fixImports rules source (k + 1) = .ok next) (hne : next ≠ s) :
    0 < sitesIn fixImports rules source k := by
  have hcycle := cycle_eq_of_textAfter h h'
  obtain ⟨-, hsame⟩ := cycleFrom_counts hcycle
  by_contra hnone
  exact hne (hsame (by omega))

/-! ## Runs -/

/-- A run ends well behind `k` cycles, of which each has changed the text. -/
structure Ended (fixImports : Bool) (rules : List Rule) (source : String) (limit k : Nat) (r : Report) :
    Prop where
  within : k ≤ limit
  changed : ∀ j < k, ¬ Stable fixImports rules source j
  text : textAfter fixImports rules source k = .ok r.output
  fixed : textAfter fixImports rules source (k + 1) = .ok r.output
  cycles : r.cycles = min (k + 1) limit
  cyclesWithChanges : r.cyclesWithChanges = k
  applied : r.applied = ∑ j ∈ Finset.range k, sitesIn fixImports rules source j

variable {limit fuel maxCycles : Nat} {p : Progress} {r : Report}

/-- What is left of a run that has come through `k` cycles. -/
theorem ended_of_runFrom {k : Nat} (hp : Reached fixImports rules source k p) (hk : k ≤ limit)
    (hne : ∀ j < k, ¬ Stable fixImports rules source j)
    (h : runFrom fixImports rules limit fuel p = .ok r) :
    ∃ k', Ended fixImports rules source limit k' r := by
  induction fuel generalizing k p with
  | zero => exact absurd h (by simp [runFrom])
  | succ fuel ih =>
      cases hc : cycle fixImports rules p.source with
      | error e =>
          rw [runFrom_of_error hc] at h
          exact absurd h (by simp)
      | ok result =>
          obtain ⟨next, n⟩ := result
          have hnext : textAfter fixImports rules source (k + 1) = .ok next := by
            rw [textAfter_succ hp.text, hc]
            rfl
          by_cases hsame : next = p.source
          · subst hsame
            rw [runFrom_of_fixed hc] at h
            obtain rfl := Except.ok.inj h
            exact ⟨k, hk, hne, hp.text, hnext, by simp only [hp.cycles], hp.cycles, hp.applied⟩
          · have hn : n = sitesIn fixImports rules source k := by
              have hcycle := cycle_eq_of_textAfter hp.text hnext
              rw [hc] at hcycle
              exact (Prod.mk.inj (Except.ok.inj hcycle)).2
            rw [runFrom_of_changed hc hsame, hn] at h
            split at h
            · exact absurd h (by simp)
            · rename_i hlimit
              rw [hp.cycles] at hlimit
              refine ih (hp.next hnext) (by omega) ?_ h
              intro j hj hstable
              rcases Nat.lt_succ_iff_lt_or_eq.mp hj with hj | rfl
              · exact hne j hj hstable
              · obtain ⟨s, hs, hs'⟩ := hstable
                rw [hp.text] at hs
                rw [hnext] at hs'
                exact hsame (Except.ok.inj (hs'.trans hs.symm))

/-- **How a run ends that ends well.** -/
theorem ended_of_run (h : run fixImports rules source maxCycles = .ok r) :
    ∃ k, Ended fixImports rules source (max 1 maxCycles) k r :=
  ended_of_runFrom reached_start (Nat.zero_le _) (fun j hj => absurd hj (Nat.not_lt_zero j)) h

namespace Ended

variable {k : Nat} (h : Ended fixImports rules source limit k r)
include h

/-- Each of the cycles has replaced a site. -/
theorem sitesIn_pos {j : Nat} (hj : j < k) : 0 < sitesIn fixImports rules source j := by
  obtain ⟨next, hnext⟩ := exists_textAfter_of_le (by omega : j + 1 ≤ k) h.text
  obtain ⟨s, hs⟩ := exists_textAfter_of_le (Nat.le_succ j) hnext
  refine Recipe.sitesIn_pos hs hnext ?_
  rintro rfl
  exact h.changed j hj ⟨next, hs, hnext⟩

/-- As many sites are counted as cycles, at least. -/
theorem le_applied : k ≤ r.applied := by
  rw [h.applied]
  calc k = ∑ _j ∈ Finset.range k, 1 := by simp
    _ ≤ ∑ j ∈ Finset.range k, sitesIn fixImports rules source j :=
        Finset.sum_le_sum fun j hj => h.sitesIn_pos (Finset.mem_range.mp hj)

/-- **A run never comes back** to the text that it has started with. -/
theorem output_ne (hk : 0 < k) : r.output ≠ source := by
  intro hback
  have hfixed := cycle_eq_of_textAfter h.text h.fixed
  have hstable : Stable fixImports rules source 0 := by
    refine ⟨source, rfl, ?_⟩
    have hstart : textAfter fixImports rules source 0 = .ok source := rfl
    rw [textAfter_succ hstart, ← hback, hfixed]
    rfl
  exact h.changed 0 hk hstable

/-- A run without cycles that change the text keeps it. -/
theorem output_eq (hk : k = 0) : r.output = source := by
  subst hk
  exact (Except.ok.inj h.text).symm

/-- A run without cycles that change the text counts no site. -/
theorem applied_eq (hk : k = 0) : r.applied = 0 := by
  subst hk
  rw [h.applied, Finset.sum_range_zero]

end Ended

/-- **What a run that ends well says of changes**: its texts, its sites and its cycles say the same. -/
theorem counts_of_run (h : run fixImports rules source maxCycles = .ok r) :
    (r.hasChanges = true ↔ r.output ≠ source) ∧ (r.output ≠ source ↔ 0 < r.applied) ∧
      r.cyclesWithChanges ≤ min r.applied r.cycles := by
  obtain ⟨k, hended⟩ := ended_of_run h
  have hcounted : r.hasChanges = true ↔ 0 < k := by
    rw [← hended.cyclesWithChanges]
    exact decide_eq_true_iff
  have hchanged : r.output ≠ source ↔ 0 < k := by
    refine ⟨fun hne => ?_, hended.output_ne⟩
    by_contra hnone
    exact hne (hended.output_eq (by omega))
  have hle := hended.le_applied
  have hwithin := hended.within
  refine ⟨hcounted.trans hchanged.symm, hchanged.trans ⟨fun hk => by omega, fun hpos => ?_⟩, ?_⟩
  · by_contra hnone
    rw [hended.applied_eq (by omega)] at hpos
    omega
  · rw [hended.cyclesWithChanges, hended.cycles]
    omega

/-- A text that a cycle leaves as it is stays through any number of them. -/
theorem textAfter_of_fixed {n : Nat} (h : cycle fixImports rules source = .ok (source, n)) (k : Nat) :
    textAfter fixImports rules source k = .ok source := by
  induction k with
  | zero => rfl
  | succ k ih =>
      rw [textAfter_succ ih, h]
      rfl

end Recipe

namespace Batch

open Recipe (textAfter)

variable {read : String → Except Disk.Fault String} {rules : List Rule} {options : Options}
  {path : String}

/-- **A file is reported as unchanged** exactly if no number of cycles changes it. -/
theorem rewriteFile_unchanged_iff :
    rewriteFile read rules options path = .ok (.of path .unchanged) ↔
      ∃ source, read path = .ok source ∧ ∀ k, textAfter true rules source k = .ok source := by
  constructor
  · intro h
    rcases rewriteFile_ok_cases h with ⟨fault, -, hf⟩ | ⟨source, hs, hcases⟩
    · exact absurd hf (by simp [FileReport.of])
    · rcases hcases with ⟨r, hr, hsame, -⟩ | ⟨r, -, -, hf⟩ | ⟨p, -, hf⟩
      · obtain ⟨k, hended⟩ := Recipe.ended_of_run hr
        have hk : k = 0 := by
          by_contra hpos
          exact hended.output_ne (by omega) hsame
        subst hk
        have hcycle := Recipe.cycle_eq_of_textAfter hended.text hended.fixed
        rw [hsame] at hcycle
        exact ⟨source, hs, Recipe.textAfter_of_fixed hcycle⟩
      · exact absurd hf (by simp [FileReport.of])
      · exact absurd hf (by simp [FileReport.of])
  · rintro ⟨source, hs, hkept⟩
    exact rewriteFile_of_fixed hs (Recipe.cycle_eq_of_textAfter (hkept 0) (hkept 1))

/-- A file that is rewritten has been so by a run that ends well with another text. -/
theorem exists_run_of_rewritten {f : FileReport} {applied cycles : Nat}
    (h : rewriteFile read rules options path = .ok f) (hf : f.outcome = .rewritten applied cycles) :
    ∃ source r, Recipe.run true rules source options.maxCycles = .ok r ∧ r.output ≠ source ∧
      r.applied = applied ∧ r.cyclesWithChanges = cycles := by
  rcases rewriteFile_ok_cases h with ⟨fault, -, rfl⟩ | ⟨source, -, hcases⟩
  · exact absurd hf (by simp [FileReport.of])
  · rcases hcases with ⟨_, -, -, rfl⟩ | ⟨r, hr, hne, rfl⟩ | ⟨p, -, rfl⟩
    · exact absurd hf (by simp [FileReport.of])
    · obtain ⟨happlied, hcycles⟩ := FileOutcome.rewritten.inj hf
      exact ⟨source, r, hr, hne, happlied, hcycles⟩
    · exact absurd hf (by simp [FileReport.of])

end Batch

namespace Recipe

open Batch (rewriteFile FileReport)

/-- **Changes are counted.** A run that ends well tells of changes exactly if its text is another one than at
    the start, and exactly if it counts a site; it counts no more cycles with changes than sites or cycles.
    So a file of a batch is reported as unchanged exactly if no number of cycles changes it, and a file that is
    reported as rewritten has a site and a cycle counted. -/
theorem changes_counted (rules : List Rule) :
    (∀ fixImports source maxCycles r, run fixImports rules source maxCycles = .ok r →
      (r.hasChanges = true ↔ r.output ≠ source) ∧ (r.output ≠ source ↔ 0 < r.applied) ∧
        r.cyclesWithChanges ≤ min r.applied r.cycles) ∧
    ∀ read options path,
      (rewriteFile read rules options path = .ok (.of path .unchanged) ↔
        ∃ source, read path = .ok source ∧ ∀ k, textAfter true rules source k = .ok source) ∧
      ∀ f applied cycles, rewriteFile read rules options path = .ok f →
        f.outcome = .rewritten applied cycles → 1 ≤ applied ∧ 1 ≤ cycles := by
  constructor
  · intro fixImports source maxCycles r hr
    exact counts_of_run hr
  · intro read options path
    refine ⟨Batch.rewriteFile_unchanged_iff, ?_⟩
    intro f applied cycles hf houtcome
    obtain ⟨source, r, hr, hne, rfl, rfl⟩ := Batch.exists_run_of_rewritten hf houtcome
    obtain ⟨hchanges, happlied, -⟩ := counts_of_run hr
    have hcycles : r.hasChanges = true := hchanges.mpr hne
    exact ⟨happlied.mp hne, of_decide_eq_true hcycles⟩

/-- A rule that undoes some of what another one does: only what is left of a cycle counts. -/
theorem changes_counted_undone : ∃ there back r,
    (RuleDraft.simple "There" "a($X)" "b($X)").build = .ok there ∧
    (RuleDraft.simple "Back" "b(1)" "a(1)").build = .ok back ∧
    run true [there, back] "a(1); a(2);" 9 = .ok r ∧ r.output = "a(1); b(2);" ∧ r.applied = 3 ∧
    r.hasChanges = true ∧ r.cyclesWithChanges ≤ min r.applied r.cycles ∧
    rewriteFile (fun _ => .ok "a(1); a(2);") [there, back] ⟨9, false⟩ "A.java" =
      .ok ⟨"A.java", .rewritten 3 r.cyclesWithChanges, some r.output⟩ ∧ 1 ≤ r.cyclesWithChanges ∧
    (∀ k, textAfter true [there, back] "a(1);" k = .ok "a(1);") ∧
    rewriteFile (fun _ => .ok "a(1);") [there, back] ⟨9, false⟩ "A.java" =
      .ok (.of "A.java" .unchanged) := by
  have h : ((RuleDraft.simple "There" "a($X)" "b($X)").build.toOption.any fun there =>
      (RuleDraft.simple "Back" "b(1)" "a(1)").build.toOption.any fun back =>
        (run true [there, back] "a(1); a(2);" 9).toOption.any (fun r =>
          r.output == "a(1); b(2);" && r.applied == 3) &&
        (rewriteFile (fun _ => .ok "a(1);") [there, back] ⟨9, false⟩ "A.java").toOption ==
          some (.of "A.java" .unchanged)) = true := by
    decide +kernel
  obtain ⟨there, hthere, h⟩ := (Option.any_eq_true _ _).mp h
  obtain ⟨back, hback, h⟩ := (Option.any_eq_true _ _).mp h
  obtain ⟨hrun, hfile⟩ := (Bool.and_eq_true _ _).mp h
  obtain ⟨r, hr, hrun⟩ := (Option.any_eq_true _ _).mp hrun
  obtain ⟨hout, hsites⟩ := (Bool.and_eq_true _ _).mp hrun
  have hr := Attempts.toOption_eq_some.mp hr
  have hout : r.output = "a(1); b(2);" := by simpa using hout
  have hfile := Attempts.toOption_eq_some.mp (by simpa using hfile)
  have hcounted := changes_counted [there, back]
  obtain ⟨hchanges, -, hcount⟩ := hcounted.1 true _ 9 r hr
  obtain ⟨source, hsource, hkept⟩ :=
    (hcounted.2 (fun _ => .ok "a(1);") ⟨9, false⟩ "A.java").1.mp hfile
  obtain rfl : "a(1);" = source := Except.ok.inj hsource
  have hsites : r.applied = 3 := by simpa using hsites
  have hrewritten : rewriteFile (fun _ => .ok "a(1); a(2);") [there, back] ⟨9, false⟩ "A.java" =
      .ok ⟨"A.java", .rewritten 3 r.cyclesWithChanges, some r.output⟩ := by
    simp [rewriteFile, Batch.rewriteText, hr, hout, hsites, FileReport.of]
  obtain ⟨-, hcycles⟩ :=
    (hcounted.2 (fun _ => .ok "a(1); a(2);") ⟨9, false⟩ "A.java").2 _ _ _ hrewritten rfl
  exact ⟨there, back, r, Attempts.toOption_eq_some.mp hthere, Attempts.toOption_eq_some.mp hback,
    hr, hout, hsites, hchanges.mpr (by rw [hout]; decide), hcount, hrewritten, hcycles, hkept, hfile⟩

end Recipe

end JavaRefactor

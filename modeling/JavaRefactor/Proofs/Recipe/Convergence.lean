import JavaRefactor.Proofs.Pass.Weight
import JavaRefactor.Proofs.Recipe.FixedPoint

/-!
# `Proofs.Recipe.Convergence` — recipes that make texts lighter come to an end

A cycle of rules that each make texts lighter makes a text lighter, or leaves it as it is. So each cycle that changes the
text takes something of its weight, and there are no more of them than the text weighs.

## Contents
- **`weight_cycle`**, one cycle.
- **`runFrom_ne_divergence`**, by induction on the cycles that are left, and **`run_ne_divergence`**.
-/

namespace JavaRefactor.Recipe

open Text (weight)

variable {w : Char → Nat} {fixImports : Bool} {rules : List Rule}

/-! ## Single cycles -/

theorem weight_cycleFrom (hr : ∀ r ∈ rules, r.Shrinks w) {source next : String} {before applied : Nat}
    (h : cycleFrom fixImports rules source before = .ok (next, applied)) :
    next = source ∨ weight w next.toList < weight w source.toList := by
  induction rules generalizing source before with
  | nil =>
      obtain ⟨rfl, -⟩ := Prod.mk.inj (Except.ok.inj h)
      exact Or.inl rfl
  | cons r rules ih =>
      unfold cycleFrom at h
      cases hpass : Pass.apply fixImports r source with
      | error p =>
          rw [hpass] at h
          exact absurd h (by simp)
      | ok out =>
          rw [hpass] at h
          have hfirst := Pass.weight_apply (hr r (List.mem_cons_self ..)) hpass
          have hrest := ih (fun r' hr' => hr r' (List.mem_cons_of_mem r hr')) h
          rcases hfirst with hsame | hlighter
          · rwa [hsame] at hrest
          · rcases hrest with rfl | hrest
            · exact Or.inr hlighter
            · exact Or.inr (Nat.lt_trans hrest hlighter)

/-- **A cycle of rules that make texts lighter** makes a text lighter, or leaves it as it is. -/
theorem weight_cycle (hr : ∀ r ∈ rules, r.Shrinks w) {source next : String} {applied : Nat}
    (h : cycle fixImports rules source = .ok (next, applied)) :
    next = source ∨ weight w next.toList < weight w source.toList :=
  weight_cycleFrom hr h

/-! ## Runs -/

/-- The cycles that have been made and the weight that is left stay within the limit together, so the limit is not met
    by a text that still changes. -/
theorem runFrom_ne_divergence (hr : ∀ r ∈ rules, r.Shrinks w) {limit fuel : Nat} {p : Progress}
    (hp : p.cycles + weight w p.source.toList ≤ limit) (cycles : Nat) (change : String) :
    runFrom fixImports rules limit fuel p ≠ .error (.divergence cycles change) := by
  induction fuel generalizing p with
  | zero => simp [runFrom]
  | succ fuel ih =>
      cases hc : cycle fixImports rules p.source with
      | error e =>
          rw [runFrom_of_error hc]
          rcases cycle_error_cases hc with ⟨s, rfl⟩ | ⟨fault, rfl, -⟩ <;> simp
      | ok result =>
          obtain ⟨next, n⟩ := result
          by_cases hne : next = p.source
          · rw [runFrom_of_fixed (hne ▸ hc)]
            simp
          · have hlighter := (weight_cycle hr hc).resolve_left hne
            have hlimit : ¬ limit ≤ p.cycles := by omega
            rw [runFrom_of_changed hc hne, if_neg hlimit]
            exact ih (by simp only; omega)

/-- **A recipe whose rules make texts lighter** does not diverge if as many cycles are allowed as the text weighs. -/
theorem run_ne_divergence (hr : ∀ r ∈ rules, r.Shrinks w) {source : String} {maxCycles : Nat}
    (h : weight w source.toList ≤ maxCycles) (cycles : Nat) (change : String) :
    run fixImports rules source maxCycles ≠ .error (.divergence cycles change) := by
  unfold run
  refine runFrom_ne_divergence hr ?_ cycles change
  simp only
  omega

end JavaRefactor.Recipe

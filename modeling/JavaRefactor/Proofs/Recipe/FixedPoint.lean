import JavaRefactor.Proofs.Pass.Faults
import JavaRefactor.Recipe.Run
import Mathlib.Algebra.BigOperators.Group.Finset.Basic
import Mathlib.Order.Bounds.Basic

/-!
# `Proofs.Recipe.FixedPoint` — where the run of a recipe ends

A run makes cycles until one leaves the text as it is. It is told here by the texts between the cycles: the
first of them that a cycle leaves as it is, is the result.

## Contents
- **Texts between cycles.** `textAfter`, `sitesIn`, and `Stable`, a text that the next cycle keeps.
- **`Reached`**: what is counted between two cycles. One cycle keeps it (`Reached.next`), hence a run does
  (`exists_reached`).
- **`run_fixedPoint`**: the result of a run, whether it ends at a stable text, at a problem or not at all.
-/

namespace JavaRefactor.Recipe

section

variable (fixImports : Bool) (rules : List Rule) (source : String)

/-! ## Texts between cycles -/

/-- The text after a number of cycles. -/
def textAfter : Nat → Except Problem String
  | 0 => .ok source
  | k + 1 => textAfter k >>= fun s => (cycle fixImports rules s).map (·.1)

/-- The number of sites that are replaced in the cycle behind the first `k`; none if it fails. -/
def sitesIn (k : Nat) : Nat :=
  match textAfter fixImports rules source k >>= cycle fixImports rules with
  | .ok (_, applied) => applied
  | .error _ => 0

/-- The cycle behind the first `k` leaves the text as it is. -/
def Stable (k : Nat) : Prop :=
  ∃ s, textAfter fixImports rules source k = .ok s ∧ textAfter fixImports rules source (k + 1) = .ok s

end

variable {fixImports : Bool} {rules : List Rule} {source : String}

theorem textAfter_succ {k : Nat} {s : String} (h : textAfter fixImports rules source k = .ok s) :
    textAfter fixImports rules source (k + 1) = (cycle fixImports rules s).map (·.1) := by
  rw [textAfter, h]; rfl

/-- A text after some cycles stands behind texts after fewer. -/
theorem exists_textAfter_of_le {j k : Nat} (hjk : j ≤ k) {s : String}
    (h : textAfter fixImports rules source k = .ok s) :
    ∃ s', textAfter fixImports rules source j = .ok s' := by
  induction k generalizing s with
  | zero => exact ⟨s, by rwa [Nat.le_zero.mp hjk]⟩
  | succ k ih =>
      rcases Nat.lt_or_eq_of_le hjk with hlt | rfl
      · rw [textAfter] at h
        obtain ⟨s', hs', _⟩ := Attempts.bind_eq_ok.mp h
        exact ih (by omega) hs'
      · exact ⟨s, h⟩

/-- What a cycle makes of a text, told by the texts between cycles. -/
theorem cycle_eq_of_textAfter {k : Nat} {s next : String}
    (h : textAfter fixImports rules source k = .ok s)
    (h' : textAfter fixImports rules source (k + 1) = .ok next) :
    cycle fixImports rules s = .ok (next, sitesIn fixImports rules source k) := by
  rw [textAfter_succ h] at h'
  obtain ⟨⟨text, applied⟩, hc, rfl⟩ := Attempts.map_eq_ok.mp h'
  unfold sitesIn
  rw [h, hc]
  simp only [bind, Except.bind, hc]

/-- A cycle that fails, told by the texts between cycles. -/
theorem cycle_error_of_textAfter {k : Nat} {s : String} {p : Problem}
    (h : textAfter fixImports rules source k = .ok s)
    (h' : textAfter fixImports rules source (k + 1) = .error p) :
    cycle fixImports rules s = .error p := by
  rw [textAfter_succ h] at h'
  exact Attempts.map_eq_error.mp h'

/-! ## Single cycles of a run -/

variable {limit fuel : Nat} {p : Progress}

/-- A cycle that fails ends the run. -/
theorem runFrom_of_error {e : Problem} (h : cycle fixImports rules p.source = .error e) :
    runFrom fixImports rules limit (fuel + 1) p = .error e := by
  rw [runFrom, h]

/-- A cycle that changes nothing ends the run. -/
theorem runFrom_of_fixed {n : Nat} (h : cycle fixImports rules p.source = .ok (p.source, n)) :
    runFrom fixImports rules limit (fuel + 1) p =
      .ok ⟨p.source, min (p.cycles + 1) limit, p.cycles, p.applied⟩ := by
  rw [runFrom, h]
  simp

/-- A cycle that changes the text is counted, unless as many as allowed have done so before. -/
theorem runFrom_of_changed {next : String} {n : Nat}
    (h : cycle fixImports rules p.source = .ok (next, n)) (hne : next ≠ p.source) :
    runFrom fixImports rules limit (fuel + 1) p =
      if limit ≤ p.cycles then .error (.divergence limit p.lastChange)
      else runFrom fixImports rules limit fuel
        ⟨next, p.cycles + 1, p.applied + n, Text.lineDiff p.source next⟩ := by
  rw [runFrom, h]
  simp [hne]

/-! ## Runs -/

/-- A run has come to where `k` cycles have been made. -/
structure Reached (fixImports : Bool) (rules : List Rule) (source : String) (k : Nat) (p : Progress) :
    Prop where
  text : textAfter fixImports rules source k = .ok p.source
  cycles : p.cycles = k
  applied : p.applied = ∑ j ∈ Finset.range k, sitesIn fixImports rules source j
  /-- The change that is told is the one of the last cycle. -/
  lastChange : ∀ j s, j + 1 = k → textAfter fixImports rules source j = .ok s →
    p.lastChange = Text.lineDiff s p.source

theorem reached_start : Reached fixImports rules source 0 ⟨source, 0, 0, ""⟩ where
  text := rfl
  cycles := rfl
  applied := rfl
  lastChange := fun j _ hj => absurd hj (by omega)

/-- **One more cycle.** -/
theorem Reached.next {k : Nat} (h : Reached fixImports rules source k p) {next : String}
    (hn : textAfter fixImports rules source (k + 1) = .ok next) :
    Reached fixImports rules source (k + 1) ⟨next, p.cycles + 1,
      p.applied + sitesIn fixImports rules source k, Text.lineDiff p.source next⟩ where
  text := hn
  cycles := by rw [h.cycles]
  applied := by rw [h.applied, Finset.sum_range_succ]
  lastChange := by
    intro j s hj hs
    obtain rfl : j = k := Nat.succ.inj hj
    rw [h.text] at hs
    rw [Except.ok.inj hs]

/-- **A run gets to every cycle that it is allowed**, as long as no text is stable. -/
theorem exists_reached {k : Nat} (hk : k ≤ limit) {s : String}
    (hs : textAfter fixImports rules source k = .ok s)
    (hne : ∀ j < k, ¬ Stable fixImports rules source j) :
    ∃ p, Reached fixImports rules source k p ∧
      runFrom fixImports rules limit (limit + 1) ⟨source, 0, 0, ""⟩ =
        runFrom fixImports rules limit (limit - k + 1) p := by
  induction k generalizing s with
  | zero => exact ⟨_, reached_start, rfl⟩
  | succ k ih =>
      obtain ⟨s', hs'⟩ := exists_textAfter_of_le (Nat.le_succ k) hs
      obtain ⟨p, hp, hrun⟩ := ih (by omega) hs' (fun j hj => hne j (by omega))
      have hc := cycle_eq_of_textAfter hp.text hs
      have hchanged : s ≠ p.source := by
        rintro rfl
        exact hne k (by omega) ⟨_, hp.text, hs⟩
      refine ⟨_, hp.next hs, ?_⟩
      have hlimit : ¬ limit ≤ p.cycles := by rw [hp.cycles]; omega
      rw [hrun, runFrom_of_changed hc hchanged, if_neg hlimit]
      congr 1
      omega

/-- **A cycle fails as one of its passes does.** -/
theorem cycleFrom_error {s : String} {n : Nat} {e : Problem}
    (h : cycleFrom fixImports rules s n = .error e) :
    ∃ r ∈ rules, ∃ s', Pass.apply fixImports r s' = .error e := by
  induction rules generalizing s n with
  | nil => exact absurd h (by simp [cycleFrom])
  | cons r rules ih =>
      unfold cycleFrom at h
      cases hr : Pass.apply fixImports r s with
      | error p =>
          rw [hr] at h
          obtain rfl : p = e := Except.error.inj h
          exact ⟨r, List.mem_cons_self .., s, hr⟩
      | ok out =>
          rw [hr] at h
          obtain ⟨r', hr', hs'⟩ := ih h
          exact ⟨r', List.mem_cons_of_mem r hr', hs'⟩

/-- The problems of a cycle are those of passes. -/
theorem cycle_error_cases {s : String} {e : Problem} (h : cycle fixImports rules s = .error e) :
    (∃ s', e = .notJava s') ∨ ∃ fault, e = .invariant fault ∧ fault ≠ .earlyExit := by
  obtain ⟨r, -, s', hr⟩ := cycleFrom_error h
  rcases Pass.apply_error_cases hr with rfl | hfault
  · exact Or.inl ⟨s', rfl⟩
  · exact Or.inr hfault

theorem cycle_ne_earlyExit (s : String) :
    cycle fixImports rules s ≠ .error (.invariant .earlyExit) := by
  intro h
  rcases cycle_error_cases h with ⟨s', h⟩ | ⟨fault, h, hne⟩
  · exact absurd h (by simp)
  · exact hne (Problem.invariant.inj h).symm

/-- **A run ends in the last cycle at the latest**: there is fuel for it. -/
theorem runFrom_ne_earlyExit (hp : p.cycles ≤ limit) (hf : limit < p.cycles + fuel) :
    runFrom fixImports rules limit fuel p ≠ .error (.invariant .earlyExit) := by
  induction fuel generalizing p with
  | zero => omega
  | succ fuel ih =>
      cases hc : cycle fixImports rules p.source with
      | error e =>
          rw [runFrom_of_error hc]
          intro he
          obtain rfl : e = .invariant .earlyExit := Except.error.inj he
          exact cycle_ne_earlyExit p.source hc
      | ok result =>
          obtain ⟨next, n⟩ := result
          by_cases hne : next = p.source
          · rw [runFrom_of_fixed (hne ▸ hc)]
            simp
          · rw [runFrom_of_changed hc hne]
            split
            · simp
            · exact ih (by simp only; omega) (by simp only; omega)

theorem run_eq_runFrom {maxCycles : Nat} (h : maxCycles < 2 ^ 64 - 1) :
    run fixImports rules source maxCycles =
      runFrom fixImports rules (max 1 maxCycles) (max 1 maxCycles + 1) ⟨source, 0, 0, ""⟩ := by
  have hbound : max 1 maxCycles + 1 ≤ cycleBound := by
    have : cycleBound = 2 ^ 64 - 1 := rfl
    omega
  unfold run
  simp only
  rw [Nat.min_eq_left hbound]

/-- A text that a cycle leaves as it is, is the result of any run that starts with it. -/
theorem run_of_fixed {n : Nat} (h : cycle fixImports rules source = .ok (source, n)) (maxCycles : Nat) :
    run fixImports rules source maxCycles = .ok ⟨source, 1, 0, 0⟩ := by
  obtain ⟨fuel, hfuel⟩ : ∃ fuel, min (max 1 maxCycles + 1) cycleBound = fuel + 1 :=
    Nat.exists_eq_succ_of_ne_zero (by have : cycleBound = 2 ^ 64 - 1 := rfl; omega)
  unfold run
  simp only
  rw [hfuel, runFrom_of_fixed h]
  simp

/-- **Where a run ends**, told by the texts between its cycles, of which `limit` may change the text.
    - If the first stable text stands behind `k` cycles, within the limit, it is the result; `k` cycles and
      their sites are counted, and a run that starts with the result keeps it in a single cycle.
    - If no text within the limit is stable, the run diverges, and the change of the last cycle within the
      limit is told.
    - If a cycle that the run gets to fails, the run ends in its problem.

    A run never ends for lack of fuel. -/
theorem run_fixedPoint (fixImports : Bool) (rules : List Rule) (source : String) {maxCycles limit : Nat}
    (hmax : maxCycles < 2 ^ 64 - 1) (hlimit : limit = max 1 maxCycles) :
    (∀ k, IsLeast {j | Stable fixImports rules source j} k → k ≤ limit →
      ∃ s, textAfter fixImports rules source k = .ok s ∧
        run fixImports rules source maxCycles = .ok ⟨s, min (k + 1) limit, k,
          ∑ j ∈ Finset.range k, sitesIn fixImports rules source j⟩ ∧
        ∀ m, run fixImports rules s m = .ok ⟨s, 1, 0, 0⟩) ∧
    ((∀ k ≤ limit + 1, ∃ s, textAfter fixImports rules source k = .ok s) →
      (∀ k ≤ limit, ¬ Stable fixImports rules source k) →
      ∃ s s', textAfter fixImports rules source (limit - 1) = .ok s ∧
        textAfter fixImports rules source limit = .ok s' ∧
        run fixImports rules source maxCycles = .error (.divergence limit (Text.lineDiff s s'))) ∧
    (∀ k ≤ limit, ∀ s p, (∀ j < k, ¬ Stable fixImports rules source j) →
      textAfter fixImports rules source k = .ok s →
      textAfter fixImports rules source (k + 1) = .error p →
      run fixImports rules source maxCycles = .error p) ∧
    run fixImports rules source maxCycles ≠ .error (.invariant .earlyExit) := by
  rw [run_eq_runFrom hmax, ← hlimit]
  refine ⟨?fixed, ?diverges, ?fails, ?ends⟩
  case fixed =>
    rintro k ⟨⟨s, hs, hs'⟩, hleast⟩ hk
    have hne : ∀ j < k, ¬ Stable fixImports rules source j := by
      intro j hj hstable
      have hkj : k ≤ j := hleast hstable
      omega
    obtain ⟨p, hp, hrun⟩ := exists_reached hk hs hne
    obtain rfl : p.source = s := by rw [hp.text] at hs; exact Except.ok.inj hs
    have hc := cycle_eq_of_textAfter hs hs'
    refine ⟨p.source, hs, ?_, run_of_fixed hc⟩
    rw [hrun, runFrom_of_fixed hc, hp.applied, hp.cycles]
  case diverges =>
    intro hok hne
    obtain ⟨s', hs'⟩ := hok limit (by omega)
    obtain ⟨next, hnext⟩ := hok (limit + 1) (by omega)
    obtain ⟨s, hs⟩ := hok (limit - 1) (by omega)
    obtain ⟨p, hp, hrun⟩ := exists_reached (Nat.le_refl limit) hs' (fun j hj => hne j (by omega))
    obtain rfl : p.source = s' := by rw [hp.text] at hs'; exact Except.ok.inj hs'
    have hchanged : next ≠ p.source := by
      rintro rfl
      exact hne limit (by omega) ⟨_, hs', hnext⟩
    refine ⟨s, p.source, hs, hs', ?_⟩
    -- the limit is never zero, so there is a last cycle whose change can be told
    have hlast := hp.lastChange (limit - 1) s (by omega) hs
    rw [hrun, runFrom_of_changed (cycle_eq_of_textAfter hs' hnext) hchanged,
      if_pos (Nat.le_of_eq hp.cycles.symm), hlast]
  case fails =>
    intro k hk s p hne hs hp
    obtain ⟨q, hq, hrun⟩ := exists_reached hk hs hne
    rw [hrun, runFrom_of_error (cycle_error_of_textAfter hq.text hp)]
  case ends =>
    exact runFrom_ne_earlyExit (by simp) (by simp)

/-- A recipe that needs two cycles: it ends where two are allowed and diverges where one is. -/
theorem run_fixedPoint_two_cycles : ∃ r s,
    (RuleDraft.simple "Swap" "f(g($X))" "g(f($X))").build = .ok r ∧
    (2 : Nat) < 2 ^ 64 - 1 ∧ 2 = max 1 2 ∧ 1 = max 1 1 ∧
    IsLeast {j | Stable true [r] "f(g(g(1)));" j} 2 ∧ textAfter true [r] "f(g(g(1)));" 2 = .ok s ∧
    run true [r] "f(g(g(1)));" 2 =
      .ok ⟨s, 2, 2, ∑ j ∈ Finset.range 2, sitesIn true [r] "f(g(g(1)));" j⟩ ∧
    (∀ m, run true [r] s m = .ok ⟨s, 1, 0, 0⟩) ∧
    run true [r] "f(g(g(1)));" 1 =
      .error (.divergence 1 (Text.lineDiff "f(g(g(1)));" "g(f(g(1)));")) := by
  have h : ((RuleDraft.simple "Swap" "f(g($X))" "g(f($X))").build.toOption.any fun r =>
      let text := fun k => (textAfter true [r] "f(g(g(1)));" k).toOption
      text 2 == some "g(g(f(1)));" && text 3 == text 2 && text 1 == some "g(f(g(1)));") = true := by
    decide +kernel
  obtain ⟨r, hr, h⟩ := (Option.any_eq_true _ _).mp h
  simp only [Bool.and_eq_true, beq_iff_eq] at h
  obtain ⟨⟨h₂, h₃⟩, h₁⟩ := h
  rw [h₂] at h₃
  have h₀ : textAfter true [r] "f(g(g(1)));" 0 = .ok "f(g(g(1)));" := rfl
  have h₁ := Attempts.toOption_eq_some.mp h₁
  have h₂ := Attempts.toOption_eq_some.mp h₂
  have h₃ := Attempts.toOption_eq_some.mp h₃
  have hne : ∀ j ≤ 1, ¬ Stable true [r] "f(g(g(1)));" j := by
    rintro j hj ⟨s, hs, hs'⟩
    obtain rfl | rfl : j = 0 ∨ j = 1 := by omega
    · rw [h₁, ← hs, h₀] at hs'
      exact absurd (Except.ok.inj hs') (by decide)
    · rw [h₂, ← hs, h₁] at hs'
      exact absurd (Except.ok.inj hs') (by decide)
  have hleast : IsLeast {j | Stable true [r] "f(g(g(1)));" j} 2 := by
    refine ⟨⟨_, h₂, h₃⟩, ?_⟩
    intro j hj
    by_contra hlt
    exact hne j (by omega) hj
  have hok : ∀ k ≤ 1 + 1, ∃ s, textAfter true [r] "f(g(g(1)));" k = .ok s :=
    fun k hk => exists_textAfter_of_le hk h₂
  obtain ⟨hfixed, -⟩ := run_fixedPoint true [r] "f(g(g(1)));" (by decide : 2 < 2 ^ 64 - 1) rfl
  obtain ⟨s, hs, hrun, hagain⟩ := hfixed 2 hleast (by decide)
  obtain ⟨-, hdiverges, -⟩ := run_fixedPoint true [r] "f(g(g(1)));" (by decide : 1 < 2 ^ 64 - 1) rfl
  obtain ⟨s₀, s₁, hs₀, hs₁, hfail⟩ := hdiverges hok hne
  obtain rfl : "f(g(g(1)));" = s₀ := Except.ok.inj hs₀
  obtain rfl : "g(f(g(1)));" = s₁ := Except.ok.inj (h₁.symm.trans hs₁)
  exact ⟨r, s, Attempts.toOption_eq_some.mp hr, by decide, rfl, rfl, hleast, hs, hrun, hagain, hfail⟩

end JavaRefactor.Recipe

import JavaRefactor.Problem
import Mathlib.Data.List.Forall2

/-!
# `Proofs.Attempts` — computations that can fail

How a computation built from others can end, told from how those end: one after the other, and one for
each element of a list, where the first that fails ends the whole.
-/

namespace JavaRefactor.Attempts

variable {ε α β : Type}

/-- The result that is left when failures are forgotten. -/
theorem toOption_eq_some {x : Except ε α} {a : α} : x.toOption = some a ↔ x = .ok a := by
  cases x with
  | error e => simp [Except.toOption]
  | ok a' => simp [Except.toOption]

/-! ## One after the other -/

/-- Two computations succeed as one exactly if both do. -/
theorem bind_eq_ok {x : Except ε α} {f : α → Except ε β} {r : β} :
    (x >>= f) = .ok r ↔ ∃ a, x = .ok a ∧ f a = .ok r := by
  cases x with
  | error e => simp [bind, Except.bind]
  | ok a => simp [bind, Except.bind]

/-- Two computations fail as one exactly if one of them does. -/
theorem bind_eq_error {x : Except ε α} {f : α → Except ε β} {e : ε} :
    (x >>= f) = .error e ↔ x = .error e ∨ ∃ a, x = .ok a ∧ f a = .error e := by
  cases x with
  | error e' => simp [bind, Except.bind]
  | ok a => simp [bind, Except.bind]

/-- A changed result comes from a result. -/
theorem map_eq_ok {x : Except ε α} {f : α → β} {r : β} :
    x.map f = .ok r ↔ ∃ a, x = .ok a ∧ f a = r := by
  cases x with
  | error e => simp [Except.map]
  | ok a => simp [Except.map]

/-- Changing a result leaves failures as they are. -/
theorem map_eq_error {x : Except ε α} {f : α → β} {e : ε} :
    x.map f = .error e ↔ x = .error e := by
  cases x with
  | error e' => simp [Except.map]
  | ok a => simp [Except.map]

/-! ## One for each element -/

/-- The whole succeeds exactly if every element gives its result. -/
theorem mapM_eq_ok {f : α → Except ε β} {xs : List α} {ys : List β} :
    xs.mapM f = .ok ys ↔ List.Forall₂ (fun x y => f x = .ok y) xs ys := by
  induction xs generalizing ys with
  | nil => simp [pure, Except.pure, eq_comm]
  | cons x xs ih =>
      rw [List.mapM_cons, bind_eq_ok, List.forall₂_cons_left_iff]
      constructor
      · rintro ⟨y, hy, h⟩
        obtain ⟨ys', hys', h⟩ := bind_eq_ok.mp h
        have he : y :: ys' = ys := by simpa [pure, Except.pure] using h
        exact ⟨y, ys', hy, ih.mp hys', he.symm⟩
      · rintro ⟨y, ys', hy, hys', rfl⟩
        exact ⟨y, hy, bind_eq_ok.mpr ⟨ys', ih.mpr hys', rfl⟩⟩

/-- There is a result for the whole exactly if there is one for every element. -/
theorem mapM_eq_some {f : α → Option β} {xs : List α} {ys : List β} :
    xs.mapM f = some ys ↔ List.Forall₂ (fun x y => f x = some y) xs ys := by
  induction xs generalizing ys with
  | nil => simp [eq_comm]
  | cons x xs ih =>
      rw [List.mapM_cons, List.forall₂_cons_left_iff]
      constructor
      · intro h
        obtain ⟨y, hy, h⟩ := Option.bind_eq_some_iff.mp h
        obtain ⟨ys', hys', h⟩ := Option.bind_eq_some_iff.mp h
        exact ⟨y, ys', hy, ih.mp hys', (Option.some.inj h).symm⟩
      · rintro ⟨y, ys', hy, hys', rfl⟩
        exact Option.bind_eq_some_iff.mpr ⟨y, hy, Option.bind_eq_some_iff.mpr ⟨ys', ih.mpr hys', rfl⟩⟩

/-- The order in which the elements are tried changes no success. -/
theorem mapM_reverse_eq_ok {f : α → Except ε β} {xs : List α} {ys : List β} :
    xs.reverse.mapM f = .ok ys ↔ xs.mapM f = .ok ys.reverse := by
  rw [mapM_eq_ok, mapM_eq_ok, ← List.forall₂_reverse_iff, List.reverse_reverse]

/-- What is on the right of a list of pairs has a partner on the left. -/
theorem exists_of_forall₂ {R : α → β → Prop} {xs : List α} {ys : List β}
    (h : List.Forall₂ R xs ys) {y : β} (hy : y ∈ ys) : ∃ x ∈ xs, R x y := by
  induction h with
  | nil => exact absurd hy (by simp)
  | @cons x z xs ys hz _ ih =>
      rcases List.mem_cons.mp hy with rfl | hy
      · exact ⟨x, by simp, hz⟩
      · obtain ⟨x', hx', hf⟩ := ih hy
        exact ⟨x', by simp [hx'], hf⟩

/-- Every result comes from an element. -/
theorem mem_of_mapM_ok {f : α → Except ε β} {xs : List α} {ys : List β}
    (h : xs.mapM f = .ok ys) {y : β} (hy : y ∈ ys) : ∃ x ∈ xs, f x = .ok y :=
  exists_of_forall₂ (mapM_eq_ok.mp h) hy

/-- The whole fails as one of its elements does. -/
theorem mem_of_mapM_error {f : α → Except ε β} {xs : List α} {e : ε}
    (h : xs.mapM f = .error e) : ∃ x ∈ xs, f x = .error e := by
  induction xs with
  | nil => simp [pure, Except.pure] at h
  | cons x xs ih =>
      rw [List.mapM_cons] at h
      rcases bind_eq_error.mp h with hx | ⟨z, _, h⟩
      · exact ⟨x, by simp, hx⟩
      · rcases bind_eq_error.mp h with hxs | ⟨zs, _, h⟩
        · obtain ⟨x', hx', hf⟩ := ih hxs
          exact ⟨x', by simp [hx'], hf⟩
        · simp [pure, Except.pure] at h

/-- If an element fails, the whole does. -/
theorem mapM_error_of_mem {f : α → Except ε β} {xs : List α} {x : α} {e : ε} (hx : x ∈ xs)
    (hf : f x = .error e) : ∃ e', xs.mapM f = .error e' := by
  cases h : xs.mapM f with
  | error e' => exact ⟨e', rfl⟩
  | ok ys =>
      exfalso
      induction xs generalizing ys with
      | nil => exact absurd hx (by simp)
      | cons x' xs ih =>
          rw [List.mapM_cons] at h
          obtain ⟨z, hz, h⟩ := bind_eq_ok.mp h
          obtain ⟨zs, hzs, h⟩ := bind_eq_ok.mp h
          rcases List.mem_cons.mp hx with rfl | hx
          · rw [hf] at hz; exact absurd hz (by simp)
          · exact ih hx zs hzs

end JavaRefactor.Attempts

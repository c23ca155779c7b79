import JavaRefactor.Sorting

/-!
# `Proofs.Sorting` — what sorting keeps, and the order it makes

Sorting neither loses nor invents an element, and what holds of any two elements of a list holds of any
two behind sorting. The elements are in order then, and those that are not told apart keep the order they had.
So sorting may be done before or after some of the elements are taken, or something is read off them.
-/

namespace JavaRefactor

theorem perm_insertWith {α : Type} {le : α → α → Bool} (x : α) (xs : List α) :
    (insertWith le x xs).Perm (x :: xs) := by
  induction xs with
  | nil => exact List.Perm.refl _
  | cons z zs ih =>
      unfold insertWith
      split
      · exact List.Perm.refl _
      · exact (ih.cons z).trans (List.Perm.swap x z zs)

/-- **Sorting** puts the elements in another order. -/
theorem perm_sortWith {α : Type} {le : α → α → Bool} (xs : List α) : (sortWith le xs).Perm xs := by
  unfold sortWith
  induction xs with
  | nil => exact List.Perm.refl _
  | cons x xs ih => exact (perm_insertWith x _).trans (ih.cons x)

theorem mem_sortBy {α : Type} {key : α → Nat} {y : α} {xs : List α} :
    y ∈ sortBy key xs ↔ y ∈ xs :=
  (perm_sortWith xs).mem_iff

/-- What holds of any two elements, in whatever order, holds of them behind sorting. -/
theorem pairwise_sortBy {α : Type} {key : α → Nat} {R : α → α → Prop}
    (symm : ∀ a b, R a b → R b a) {xs : List α} (h : xs.Pairwise R) :
    (sortBy key xs).Pairwise R :=
  ((perm_sortWith xs).pairwise_iff (symm _ _)).mpr h

theorem map_insertWith {α β : Type} {le : α → α → Bool} {le' : β → β → Bool} {f : α → β}
    (hle : ∀ x y, le' (f x) (f y) = le x y) (x : α) (xs : List α) :
    (insertWith le x xs).map f = insertWith le' (f x) (xs.map f) := by
  induction xs with
  | nil => rfl
  | cons z zs ih =>
      rw [List.map_cons, insertWith, insertWith, hle]
      split
      · rfl
      · rw [List.map_cons, ih]

/-- What is sorted by what is read off it is sorted before or after that is read off. -/
theorem map_sortWith {α β : Type} {le : α → α → Bool} {le' : β → β → Bool} {f : α → β}
    (hle : ∀ x y, le' (f x) (f y) = le x y) (xs : List α) :
    (sortWith le xs).map f = sortWith le' (xs.map f) := by
  unfold sortWith
  induction xs with
  | nil => rfl
  | cons x xs ih => rw [List.foldr_cons, map_insertWith hle, ih, List.map_cons, List.foldr_cons]

/-! ## Order -/

section Order

variable {α : Type} {le : α → α → Bool} {P : α → α → Prop} (total : ∀ a b, le a b = true ∨ le b a = true)
  (trans : ∀ a b c, le a b = true → le b c = true → le a c = true)

include total trans

/-- An element that is put in its place stands in order, and in front of those that it is not told apart from. -/
theorem pairwise_insertWith {x : α} {xs : List α}
    (h : xs.Pairwise fun a b => le a b = true ∧ (le b a = true → P a b)) (hx : ∀ y ∈ xs, le y x = true → P x y) :
    (insertWith le x xs).Pairwise fun a b => le a b = true ∧ (le b a = true → P a b) := by
  induction xs with
  | nil => simp [insertWith]
  | cons z zs ih =>
      obtain ⟨hz, hzs⟩ := List.pairwise_cons.mp h
      unfold insertWith
      split
      · rename_i hle
        refine List.pairwise_cons.mpr ⟨?_, h⟩
        intro y hy
        refine ⟨?_, hx y hy⟩
        rcases List.mem_cons.mp hy with rfl | hy
        · exact hle
        · exact trans x z y hle (hz y hy).1
      · rename_i hle
        refine List.pairwise_cons.mpr ⟨?_, ih hzs fun y hy => hx y (List.mem_cons_of_mem z hy)⟩
        intro y hy
        rcases List.mem_cons.mp ((perm_insertWith x zs).mem_iff.mp hy) with rfl | hy
        · exact ⟨(total z y).resolve_right hle, fun hback => absurd hback hle⟩
        · exact hz y hy

/-- **Sorting is stable.** What holds of any two elements that are not told apart, in the order they had, holds of
    any two such elements in the order they are put in. -/
theorem pairwise_sortWith {xs : List α} (h : xs.Pairwise fun a b => le b a = true → P a b) :
    (sortWith le xs).Pairwise fun a b => le a b = true ∧ (le b a = true → P a b) := by
  unfold sortWith
  induction xs with
  | nil => simp
  | cons x xs ih =>
      obtain ⟨hx, hxs⟩ := List.pairwise_cons.mp h
      refine pairwise_insertWith total trans (ih hxs) ?_
      intro y hy
      exact hx y ((perm_sortWith xs).mem_iff.mp hy)

/-- Sorting puts the elements in order. -/
theorem pairwise_le_sortWith (xs : List α) : (sortWith le xs).Pairwise fun a b => le a b = true := by
  have hany : xs.Pairwise fun a b => le b a = true → True := List.pairwise_of_forall fun _ _ _ => trivial
  exact (pairwise_sortWith total trans hany).imp fun h => h.1

omit total in
/-- An element that is put in its place stands in its place among some of the elements. -/
theorem filter_insertWith (p : α → Bool) {x : α} {xs : List α} (h : xs.Pairwise fun a b => le a b = true) :
    (insertWith le x xs).filter p = if p x then insertWith le x (xs.filter p) else xs.filter p := by
  induction xs with
  | nil => by_cases hx : p x = true <;> simp [insertWith, hx]
  | cons z zs ih =>
      obtain ⟨hz, hzs⟩ := List.pairwise_cons.mp h
      by_cases hle : le x z = true
      · rw [insertWith, if_pos hle]
        by_cases hx : p x = true
        · rw [List.filter_cons_of_pos hx, if_pos hx]
          -- what is left of the elements behind stands behind `x` as well
          cases hrest : (z :: zs).filter p with
          | nil => rfl
          | cons y ys =>
              have hy : y ∈ z :: zs := (List.mem_filter.mp (hrest ▸ List.mem_cons_self ..)).1
              have hfront : le x y = true := by
                rcases List.mem_cons.mp hy with rfl | hy
                · exact hle
                · exact trans x z y hle (hz y hy)
              rw [insertWith, if_pos hfront]
        · rw [List.filter_cons_of_neg hx, if_neg hx]
      · rw [insertWith, if_neg hle]
        by_cases hpz : p z = true
        · rw [List.filter_cons_of_pos hpz, List.filter_cons_of_pos hpz, ih hzs, insertWith, if_neg hle]
          split <;> rfl
        · rw [List.filter_cons_of_neg hpz, List.filter_cons_of_neg hpz, ih hzs]

omit total trans in
/-- A list that is in order is not changed by sorting. -/
theorem sortWith_of_pairwise {xs : List α} (h : xs.Pairwise fun a b => le a b = true) : sortWith le xs = xs := by
  induction xs with
  | nil => rfl
  | cons x xs ih =>
      obtain ⟨hx, hxs⟩ := List.pairwise_cons.mp h
      have hstep : sortWith le (x :: xs) = insertWith le x (sortWith le xs) := rfl
      rw [hstep, ih hxs]
      cases xs with
      | nil => rfl
      | cons y ys => rw [insertWith, if_pos (hx y (List.mem_cons_self ..))]

/-- **Some elements of a sorted list** are those elements, sorted. -/
theorem filter_sortWith (p : α → Bool) (xs : List α) : (sortWith le xs).filter p = sortWith le (xs.filter p) := by
  induction xs with
  | nil => rfl
  | cons x xs ih =>
      have hstep : sortWith le (x :: xs) = insertWith le x (sortWith le xs) := rfl
      rw [hstep, filter_insertWith trans p (pairwise_le_sortWith total trans xs), ih]
      by_cases hx : p x = true
      · rw [if_pos hx, List.filter_cons_of_pos hx]
        rfl
      · rw [if_neg hx, List.filter_cons_of_neg hx]

end Order

/-! ## Keys -/

section Keys

variable {α : Type} (key : α → Nat)

theorem ble_key_total (a b : α) : Nat.ble (key a) (key b) = true ∨ Nat.ble (key b) (key a) = true := by
  simp only [Nat.ble_eq]
  omega

theorem ble_key_trans (a b c : α) (hab : Nat.ble (key a) (key b) = true) (hbc : Nat.ble (key b) (key c) = true) :
    Nat.ble (key a) (key c) = true := by
  simp only [Nat.ble_eq] at hab hbc ⊢
  omega

/-- Sorting by a key puts the keys in order. -/
theorem pairwise_le_sortBy (xs : List α) : (sortBy key xs).Pairwise fun a b => key a ≤ key b :=
  (pairwise_le_sortWith (ble_key_total key) (ble_key_trans key) xs).imp Nat.le_of_ble_eq_true

end Keys

end JavaRefactor

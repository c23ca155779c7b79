import JavaRefactor.Text.Chars
import Mathlib.Data.List.DropRight

/-!
# `Proofs.Text.Trimming` — texts without blanks at their ends, and their parts

What is read from a rule is trimmed, cut at separators and freed of what it starts or ends with. Each of these steps
can be told from its result.

## Contents
- **`Trimmed`**, texts with no blank at either end; `trimmed_trim` and `Trimmed.trim_eq`.
- **Blanks.** `filter_trim`: trimming takes blanks only.
- **Ends.** `stripFront_eq_some` and `stripBack_eq_some`.
- **Separators.** `splitOn_eq`, by which the theory of `List.splitOn` applies; `not_mem_of_mem_splitOn` and
  `forall_of_splitOn`.
-/

namespace JavaRefactor.Text

/-! ## Blanks -/

/-- No blank at either end. -/
structure Trimmed (cs : List Char) : Prop where
  front : ∀ c ∈ cs.head?, isBlank c = false
  back : ∀ c ∈ cs.getLast?, isBlank c = false

variable {cs : List Char}

theorem trimEnd_eq (cs : List Char) : trimEnd cs = cs.rdropWhile isBlank := rfl

theorem isPrefix_trimEnd (cs : List Char) : trimEnd cs <+: cs := List.rdropWhile_prefix isBlank cs

/-- **A trimmed text** has no blank at either end. -/
theorem trimmed_trim (cs : List Char) : Trimmed (trimEnd (trimStart cs)) where
  front := by
    intro c hc
    obtain ⟨taken, htaken⟩ := isPrefix_trimEnd (trimStart cs)
    have hfront : (cs.dropWhile isBlank).head? = some c := by
      obtain ⟨rest, hrest⟩ := List.head?_eq_some_iff.mp hc
      have hstart : c :: (rest ++ taken) = cs.dropWhile isBlank := by rw [← List.cons_append, ← hrest, htaken]; rfl
      rw [← hstart]
      rfl
    have hnot := List.head?_dropWhile_not isBlank cs
    rw [hfront] at hnot
    exact hnot
  back := by
    intro c hc
    obtain ⟨hne, rfl⟩ := List.mem_getLast?_eq_getLast hc
    exact Bool.eq_false_iff.mpr (List.rdropWhile_last_not isBlank (trimStart cs) hne)

/-- A text with no blank at either end stays as it is. -/
theorem Trimmed.trim_eq (h : Trimmed cs) : trimEnd (trimStart cs) = cs := by
  have hfront : trimStart cs = cs := by
    unfold trimStart
    rw [List.dropWhile_eq_self_iff]
    intro hpos
    simpa using h.front cs[0] (by simp [List.head?_eq_getElem?, List.getElem?_eq_getElem hpos])
  have hback : trimEnd cs = cs := by
    rw [trimEnd_eq, List.rdropWhile_eq_self_iff]
    intro hne
    simpa using h.back _ (List.getLast?_eq_some_getLast hne)
  rw [hfront, hback]

/-- A text without blanks has none at its ends. -/
theorem trimmed_of_forall (h : ∀ c ∈ cs, isBlank c = false) : Trimmed cs where
  front _ hc := h _ (List.mem_of_mem_head? hc)
  back _ hc := h _ (List.mem_of_mem_getLast? hc)

theorem filter_dropWhile_blank (cs : List Char) :
    (cs.dropWhile isBlank).filter (!isBlank ·) = cs.filter (!isBlank ·) := by
  induction cs with
  | nil => rfl
  | cons c cs ih =>
      by_cases hc : isBlank c = true
      · rw [List.dropWhile_cons_of_pos hc, List.filter_cons_of_neg (by simp [hc]), ih]
      · rw [List.dropWhile_cons_of_neg hc]

/-- **Trimming takes blanks only.** -/
theorem filter_trim (cs : List Char) :
    (trimEnd (trimStart cs)).filter (!isBlank ·) = cs.filter (!isBlank ·) := by
  unfold trimEnd trimStart
  rw [List.filter_reverse, filter_dropWhile_blank, List.filter_reverse, List.reverse_reverse,
    filter_dropWhile_blank]

theorem trimStart_suffix (cs : List Char) : trimStart cs <:+ cs := List.dropWhile_suffix isBlank

theorem mem_of_mem_trim {c : Char} (h : c ∈ trimEnd (trimStart cs)) : c ∈ cs :=
  (trimStart_suffix cs).subset ((isPrefix_trimEnd (trimStart cs)).subset h)

/-! ## Ends -/

theorem stripFront_eq_some {front rest : List Char} : stripFront front cs = some rest ↔ cs = front ++ rest := by
  unfold stripFront
  simp only [Option.ite_none_right_eq_some, Option.some.injEq, List.isPrefixOf_iff_prefix]
  constructor
  · rintro ⟨⟨more, rfl⟩, rfl⟩
    rw [List.drop_left]
  · rintro rfl
    exact ⟨List.prefix_append front rest, List.drop_left⟩

theorem stripBack_eq_some {back rest : List Char} : stripBack back cs = some rest ↔ cs = rest ++ back := by
  unfold stripBack
  simp only [Option.ite_none_right_eq_some, Option.some.injEq, List.isSuffixOf_iff_suffix]
  constructor
  · rintro ⟨⟨more, rfl⟩, rfl⟩
    simp
  · rintro rfl
    exact ⟨List.suffix_append rest back, by simp⟩

/-- A text without a character of `front` does not start with it. -/
theorem stripFront_eq_none {front : List Char} {c : Char} (hc : c ∈ front) (h : c ∉ cs) :
    stripFront front cs = none := by
  rw [Option.eq_none_iff_forall_ne_some]
  intro rest hrest
  exact h (by rw [stripFront_eq_some.mp hrest]; exact List.mem_append_left _ hc)

/-! ## Separators -/

theorem splitOn_eq (sep : Char) (cs : List Char) : splitOn sep cs = cs.splitOn sep := by
  induction cs with
  | nil => rfl
  | cons c cs ih =>
      rw [List.splitOn_cons_eq_if_modifyHead, splitOn, ih]
      obtain ⟨piece, pieces, hpieces⟩ := List.exists_cons_of_ne_nil (List.splitOn_ne_nil sep cs)
      rw [hpieces]
      rfl

/-- The separator stands in no piece. -/
theorem not_mem_of_mem_splitOn {sep : Char} {piece : List Char} (h : piece ∈ cs.splitOn sep) : sep ∉ piece := by
  induction cs generalizing piece with
  | nil =>
      obtain rfl : piece = [] := by simpa using h
      exact List.not_mem_nil
  | cons c cs ih =>
      obtain ⟨first, pieces, hpieces⟩ := List.exists_cons_of_ne_nil (List.splitOn_ne_nil sep cs)
      rw [List.splitOn_cons_eq_if_modifyHead, hpieces] at h
      rw [hpieces] at ih
      split at h
      · rcases List.mem_cons.mp h with rfl | h
        · exact List.not_mem_nil
        · exact ih h
      · rename_i hc
        rcases List.mem_cons.mp h with rfl | h
        · have hfirst := ih (List.mem_cons_self ..)
          have hne : sep ≠ c := fun he => hc (by rw [he, beq_self_eq_true])
          exact List.not_mem_cons_of_ne_of_not_mem hne hfirst
        · exact ih (List.mem_cons_of_mem _ h)

theorem mem_intercalate {sep c : Char} {pieces : List (List Char)} (h : c ∈ [sep].intercalate pieces) :
    c = sep ∨ ∃ piece ∈ pieces, c ∈ piece := by
  induction pieces with
  | nil => exact absurd h (by simp)
  | cons piece pieces ih =>
      cases pieces with
      | nil =>
          rw [List.intercalate_singleton] at h
          exact Or.inr ⟨piece, List.mem_cons_self .., h⟩
      | cons next pieces =>
          rw [List.intercalate_cons_cons, List.append_assoc, List.mem_append, List.mem_append,
            List.mem_singleton] at h
          rcases h with h | rfl | h
          · exact Or.inr ⟨piece, List.mem_cons_self .., h⟩
          · exact Or.inl rfl
          · exact (ih h).imp_right fun ⟨p, hp, hc⟩ => ⟨p, List.mem_cons_of_mem _ hp, hc⟩

/-- **The characters of a text** are those of its pieces, and the separator. -/
theorem forall_of_splitOn {sep : Char} {P : Char → Prop} (hsep : P sep)
    (h : ∀ piece ∈ cs.splitOn sep, ∀ c ∈ piece, P c) : ∀ c ∈ cs, P c := by
  intro c hc
  have hcs : [sep].intercalate (cs.splitOn sep) = cs := List.intercalate_splitOn sep
  rw [← hcs] at hc
  rcases mem_intercalate hc with rfl | ⟨piece, hpiece, hc⟩
  · exact hsep
  · exact h piece hpiece c hc

end JavaRefactor.Text

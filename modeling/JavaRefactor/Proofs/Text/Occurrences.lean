import JavaRefactor.Text.Chars

/-!
# `Proofs.Text.Occurrences` — how often a text stands in another one

## Contents
- **`occurrences`**, at any place, also where two of them overlap.
- **`occurrences_append_le`**: those in the parts of a text are in the text.
- **`occurrences_pos`**: a text that is a piece of another one stands in it.
-/

namespace JavaRefactor.Text

variable {piece : List Char}

/-- At how many places of a text a piece stands. -/
def occurrences (piece : List Char) : List Char → Nat
  | [] => 0
  | c :: cs => (if piece.isPrefixOf (c :: cs) then 1 else 0) + occurrences piece cs

/-- **What stands in a part of a text** stands in the text. -/
theorem occurrences_append_le (piece xs ys : List Char) :
    occurrences piece xs + occurrences piece ys ≤ occurrences piece (xs ++ ys) := by
  induction xs with
  | nil => exact Nat.le_of_eq (Nat.zero_add _)
  | cons c cs ih =>
      -- a piece at the first place of a part is there in the whole
      have hfront : piece.isPrefixOf (c :: cs) = true → piece.isPrefixOf (c :: (cs ++ ys)) = true := by
        intro h
        rw [List.isPrefixOf_iff_prefix] at h ⊢
        exact h.trans (List.prefix_append (c :: cs) ys)
      rw [List.cons_append, occurrences, occurrences]
      by_cases h : piece.isPrefixOf (c :: cs) = true
      · rw [if_pos h, if_pos (hfront h)]
        omega
      · rw [if_neg h]
        omega

/-- **A piece of a text** stands in it. -/
theorem occurrences_pos {cs : List Char} (hne : piece ≠ []) (h : piece <:+: cs) :
    0 < occurrences piece cs := by
  obtain ⟨front, rest, rfl⟩ := h
  have hpiece : 0 < occurrences piece (piece ++ rest) := by
    obtain ⟨c, cs, rfl⟩ := List.exists_cons_of_ne_nil hne
    have hfront : (c :: cs).isPrefixOf (c :: (cs ++ rest)) = true :=
      List.isPrefixOf_iff_prefix.mpr (List.prefix_append (c :: cs) rest)
    rw [List.cons_append, occurrences, if_pos hfront]
    omega
  have hle := occurrences_append_le piece front (piece ++ rest)
  rw [List.append_assoc]
  omega

end JavaRefactor.Text

import JavaRefactor.Proofs.Pass.Apply
import JavaRefactor.Proofs.Pass.Instance
import JavaRefactor.Proofs.Pass.Occurrences

/-!
# `Proofs.Pass.Faults` — the problems that a pass can end in

A pass fails because its text is not Java, because the occurrences cannot be replaced, or because what was
made of the text is not Java.

## Contents
- **`substitute_error`**: why occurrences cannot be replaced.
- **`apply_error`**: why a pass fails; **`apply_error_cases`**, which problems these are.
-/

namespace JavaRefactor.Pass

open Syntax (Tree)

variable {r : Rule} {t : Tree} {os : List Occurrence} {p : Problem}

/-- An occurrence has no new text if the after-template has no root or a value is lacking. -/
theorem replacement_error {o : Occurrence} (h : replacement r t o = .error p) :
    p = .invariant .noRoot ∨ ∃ name, p = .invariant (.unbound name) := by
  rcases instantiate_error (Attempts.map_eq_error.mp h) with ⟨-, hp⟩ | hp
  · exact Or.inl hp
  · exact Or.inr hp

/-- **Why occurrences cannot be replaced**: two of them overlap, one has no new text, or an edit does not
    fit into the text. -/
theorem substitute_error (h : substitute r t os = .error p) :
    (∃ a b, overlap? os = some (a, b) ∧ p = .invariant (.overlap a.span b.span)) ∨
    (∃ o ∈ os, replacement r t o = .error p) ∨
    (p = .invariant .insideCharacter ∧ ∃ edits, os.reverse.mapM (replacement r t) = .ok edits ∧
      Text.applyFromEnd edits.reverse t.source.toList = none) := by
  unfold substitute at h
  split at h
  · rename_i a b ho
    exact Or.inl ⟨a, b, ho, (Except.error.inj h).symm⟩
  · right
    rcases Attempts.bind_eq_error.mp h with h | ⟨edits, he, h⟩
    · obtain ⟨o, ho, hf⟩ := Attempts.mem_of_mapM_error h
      exact Or.inl ⟨o, List.mem_reverse.mp ho, hf⟩
    · split at h
      · exact absurd h (by simp)
      · rename_i hn
        exact Or.inr ⟨(Except.error.inj h).symm, edits, he, hn⟩

/-- What a rule has made is Java, or it is told that it is not. -/
theorem reread_error {source : String} {fault : InvariantFault} (h : reread source fault = .error p) :
    p = .invariant fault := by
  unfold reread at h
  split at h
  · exact absurd h (by simp)
  · exact (Except.error.inj h).symm

/-- Why no new tree is made. -/
theorem rewritten_error {fixImports : Bool} (h : rewritten fixImports r t os = .error p) :
    substitute r t os = .error p ∨ p = .invariant (.invalidOutput r.name) ∨
      p = .invariant (.invalidImports r.name) := by
  unfold rewritten at h
  rcases Attempts.bind_eq_error.mp h with h | ⟨source, _, h⟩
  · exact Or.inl h
  · right
    rcases Attempts.bind_eq_error.mp h with h | ⟨after, _, h⟩
    · exact Or.inl (reread_error h)
    · split at h
      · unfold withImports at h
        split at h
        · exact Or.inr (reread_error h)
        · exact absurd h (by simp)
      · exact absurd h (by simp)

/-- **Why a pass fails.** -/
theorem apply_error {fixImports : Bool} {source : String} (h : apply fixImports r source = .error p) :
    (Java.parse? source = none ∧ p = .notJava source) ∨
    (∃ t, Java.parse? source = some t ∧ substitute r t (occurrences r t (.ofTree t)) = .error p) ∨
    p = .invariant (.invalidOutput r.name) ∨ p = .invariant (.invalidImports r.name) := by
  rw [apply_eq] at h
  unfold readJava at h
  cases ht : Java.parse? source with
  | none =>
      rw [ht] at h
      exact Or.inl ⟨rfl, (Except.error.inj h).symm⟩
  | some t =>
      rw [ht] at h
      right
      have ho : outcomeOf fixImports r t = .error p := h
      unfold outcomeOf at ho
      simp only at ho
      split at ho
      · exact absurd ho (by simp)
      · rcases rewritten_error (Attempts.map_eq_error.mp ho) with ho | ho
        · exact Or.inl ⟨t, rfl, ho⟩
        · exact Or.inr ho

/-- **The problems of a pass**: a text that is not Java, or an invariant that does not hold; a pass has no cycles to
    end early. -/
theorem apply_error_cases {fixImports : Bool} {source : String} (h : apply fixImports r source = .error p) :
    p = .notJava source ∨ ∃ fault, p = .invariant fault ∧ fault ≠ .earlyExit := by
  rcases apply_error h with ⟨-, rfl⟩ | ⟨t, -, h⟩ | rfl | rfl
  · exact Or.inl rfl
  · right
    rcases substitute_error h with ⟨a, b, -, rfl⟩ | ⟨o, -, h⟩ | ⟨rfl, -⟩
    · exact ⟨_, rfl, by simp⟩
    · rcases replacement_error h with rfl | ⟨name, rfl⟩
      · exact ⟨_, rfl, by simp⟩
      · exact ⟨_, rfl, by simp⟩
    · exact ⟨_, rfl, by simp⟩
  · exact Or.inr ⟨_, rfl, by simp⟩
  · exact Or.inr ⟨_, rfl, by simp⟩

end JavaRefactor.Pass

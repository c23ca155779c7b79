import JavaRefactor.Proofs.Java.Production
import JavaRefactor.Proofs.Java.Symbols

/-!
# `Proofs.Java.Grammar` — the productions of Java lose no lexeme

Every production of the table can be checked by computation, but for expressions: their operators depend on
a level, of which there is no greatest one.

## Contents
- **`isFull`**, the symbols that read a lexeme at least.
- **`grows`**: what may be added, again and again, to an operand; `grows_operatorSteps`.
- **`lossless_table`** and **`yields_table`**.
-/

namespace JavaRefactor.Java.Grammar

open Production

/-- Only a file may be without a lexeme. -/
def isFull : Symbol → Bool
  | .program => false
  | _ => true

/-- Whether a production puts an operand in front of what it adds to it. -/
def grows (p : Phrase) : Bool := lossless isFull (.front true) p && yields isFull (.front true) p

/-- **An operand grows by operators** without loss, whatever their level. -/
theorem grows_operatorSteps {place : Place} {arrow : Bool} {level : Nat} :
    grows (operatorSteps place arrow level) = true := by
  refine operatorSteps_of_all (P := fun p => grows p = true) rfl ?_ ?_
  · intro a b ha hb
    obtain ⟨hlossless, hyields⟩ := (Bool.and_eq_true _ _).mp ha
    obtain ⟨hlossless', hyields'⟩ := (Bool.and_eq_true _ _).mp hb
    refine (Bool.and_eq_true _ _).mpr ⟨?_, ?_⟩
    · exact (Bool.and_eq_true _ _).mpr ⟨hlossless, hlossless'⟩
    · exact (Bool.and_eq_true _ _).mpr ⟨hyields, hyields'⟩
  · cases place <;> cases arrow <;> decide +kernel

/-! ## The table -/

/-- **Every production of Java is lossless.** -/
theorem lossless_table : ∀ s, lossless isFull .nothing (table s) = true := by
  refine forall_symbols ?_ (by decide +kernel)
  intro place arrow level
  obtain ⟨hlossless, hyields⟩ :=
    (Bool.and_eq_true _ _).mp (@grows_operatorSteps place.inner arrow level)
  show (true && (true && lossless isFull (.front true) _ && (!true || yields isFull (.front true) _))) = true
  rw [hlossless, hyields]
  rfl

/-- **Every production of Java but that of a file reads a lexeme.** -/
theorem yields_table : ∀ s, isFull s = true → yields isFull .nothing (table s) = true :=
  forall_symbols (fun _ _ _ _ => rfl) (by decide +kernel)

end JavaRefactor.Java.Grammar

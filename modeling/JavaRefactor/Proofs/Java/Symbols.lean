import JavaRefactor.Java.Grammar

/-!
# `Proofs.Java.Symbols` — what is to be checked of the grammar

The symbols for expressions carry the level of the operators, of which there is no greatest one. All other
symbols can be listed. What an operand of an expression may grow by is a choice of finitely many steps, the
same for all levels, of which a level only leaves some out.

## Contents
- **`symbols`**, all symbols but those for expressions, and **`forall_symbols`**.
- **`stepsAt`**, by what an operand may grow.
- **`choice_of_all`** and **`operatorSteps_of_all`**: what holds of the steps, and of a choice between two
  productions of which it holds, holds of all that an operand may grow by.
-/

namespace JavaRefactor.Java.Grammar

open Production

/-! ## Symbols -/

/-- All places. -/
def places : List Place :=
  [.statement, .member, .parameter, .operand, .summand, .parens, .castType, .typeUse, .test]

/-- All symbols but those for expressions. -/
def symbols : List Symbol :=
  (places.flatMap fun p =>
    [.operand p true, .operand p false, .unary p true, .unary p false, .primary p, .simpleType p,
      .plainType p, .anyType p]) ++
  [.castSign, .parenthesized, .creation, .arguments, .stringLiteral, .arrayInitializer,
    .switchExpression, .switchLabel, .recordPattern, .typeArguments, .dimensions, .annotationUse,
    .elementValue, .modifiers, .block, .statement true, .statement false, .localVariable, .declarator,
    .formalParameters, .typeParameters, .typeDeclaration, .method, .classBody, .classMember,
    .interfaceBody, .annotationBody, .enumBody, .qualifiedName, .topLevel true, .topLevel false,
    .program]

/-- A symbol is one for expressions, or it is listed. -/
theorem forall_symbols {P : Symbol → Prop}
    (hexpression : ∀ place arrow level, P (.expression place arrow level))
    (h : ∀ s ∈ symbols, P s) (s : Symbol) : P s := by
  cases s with
  | expression place arrow level => exact hexpression place arrow level
  | operand place arrow | unary place arrow => exact h _ (by cases place <;> cases arrow <;> decide)
  | primary place | simpleType place | plainType place | anyType place =>
      exact h _ (by cases place <;> decide)
  | statement first | topLevel first => exact h _ (by cases first <;> decide)
  | _ => exact h _ (by decide)

/-! ## Operators -/

/-- All steps by which an operand at a place may grow. -/
def stepsAt (place : Place) (arrow : Bool) : List Phrase :=
  [updateStep, instanceofStep, ternaryStep arrow] ++
    (binaryOperators.map (fun (s, l) => binaryStep place arrow (tok s) l) ++
      angleOperators.map (fun (parts, l) => binaryStep place arrow (angleOperator parts) l))

section

variable {P : Phrase → Prop} (hnone : P (.only [] .held)) (heither : ∀ a b, P a → P b → P (.either a b))

include hnone heither

theorem choice_of_all {ps : List Phrase} (h : ∀ p ∈ ps, P p) : P (choice ps) := by
  induction ps with
  | nil => exact hnone
  | cons p ps ih =>
      have hp : P p := h p (by simp)
      cases ps with
      | nil => exact hp
      | cons q qs => exact heither p _ hp (ih fun p' hp' => h p' (by simp [hp']))

/-- **What holds of every step** holds of all that an operand may grow by, whatever the level. -/
theorem operatorSteps_of_all {place : Place} {arrow : Bool} {level : Nat}
    (h : ∀ p ∈ stepsAt place arrow, P p) : P (operatorSteps place arrow level) := by
  have hbinary : P (binarySteps place arrow level) := by
    refine choice_of_all hnone heither ?_
    intro p hp
    -- a level leaves out the operators that bind less strongly
    refine h p (List.mem_append_right _ ?_)
    rcases List.mem_append.mp hp with hp | hp
    · exact List.mem_append_left _ (List.map_subset _ List.filter_sublist.subset hp)
    · exact List.mem_append_right _ (List.map_subset _ List.filter_sublist.subset hp)
  refine choice_of_all hnone heither ?_
  intro p hp
  simp only [List.mem_append, List.mem_ite_nil_right, List.mem_singleton] at hp
  rcases hp with ((⟨-, rfl⟩ | ⟨-, rfl⟩) | ⟨-, rfl⟩) | ⟨-, rfl⟩
  · exact h updateStep (by simp [stepsAt])
  · exact hbinary
  · exact h instanceofStep (by simp [stepsAt])
  · exact h (ternaryStep arrow) (by simp [stepsAt])

end

end JavaRefactor.Java.Grammar

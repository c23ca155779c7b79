import JavaRefactor.Pass.Basic
import JavaRefactor.Proofs.Attempts
import JavaRefactor.Proofs.Template.Placeholders
import JavaRefactor.Proofs.Text.Pieces

/-!
# `Proofs.Pass.Parentheses` — what stands bare in a replacement

Below the root of an after-template every text that is written without parentheses is strong enough for
its place. That is a matter of strength alone: two signs of equal strength next to each other are one
token. At the root itself it is the template's strength that counts, and a metavariable is as strong as
a name, whatever it is bound to.

## Contents
- **`needsParentheses_of_le`**: what strength has to do with parentheses.
- **`textForNode_cases`**: what is written for a node in a slot.
- **`replacement_of_placeholder`**: what a template that is a metavariable replaces a site by.
-/

namespace JavaRefactor.Pass

open Syntax (Node Tree)
open Text (slice slice?)

/-! ## Slots -/

/-- **Weaker texts need no fewer parentheses.** Where a strength is not enough, no smaller one is. -/
theorem needsParentheses_of_le {parent slot : Node} {weak strong : Nat} (hle : weak ≤ strong)
    (h : Java.needsParentheses parent slot strong = true) :
    Java.needsParentheses parent slot weak = true := by
  unfold Java.needsParentheses at h ⊢
  by_cases hp : Java.primaryStrength ≤ strong
  · rw [if_pos hp] at h
    exact absurd h (by simp)
  · rw [if_neg hp] at h
    rw [if_neg (by omega)]
    -- every bound on the strength is one from above
    cases hc : parent.category <;> simp only [hc] at h ⊢ <;> grind

/-- **What is written for a node in a slot.** The text of the node, or of the expression in its parentheses,
    stands bare only where its strength is enough; otherwise the text of the node stands in parentheses. -/
theorem textForNode_cases (source : String) (parent slot n : Node) :
    (∃ e, (e = n ∨ insideParentheses? n = some e) ∧
      Java.needsParentheses parent slot (Java.strength e) = false ∧
      textForNode source parent slot n = slice source e.span) ∨
    (Java.needsParentheses parent slot (Java.strength n) = true ∧
      textForNode source parent slot n = parenthesized (slice source n.span)) := by
  unfold textForNode
  cases hb : (insideParentheses? n).bind fun inner =>
      if Java.needsParentheses parent slot (Java.strength inner) then none
      else slice? source inner.span with
  | some text =>
      obtain ⟨inner, hi, hs⟩ := Option.bind_eq_some_iff.mp hb
      by_cases hn : Java.needsParentheses parent slot (Java.strength inner) = true
      · rw [if_pos hn] at hs; exact absurd hs (by simp)
      · rw [if_neg hn] at hs
        exact Or.inl ⟨inner, Or.inr hi, by simpa using hn, by simp [slice, hs]⟩
  | none =>
      by_cases hn : Java.needsParentheses parent slot (Java.strength n) = true
      · exact Or.inr ⟨hn, by simp [hn]⟩
      · exact Or.inl ⟨n, Or.inl rfl, by simpa using hn, by simp [hn]⟩

/-- A sign that is written in front of a text with the same sign makes one token with it. -/
theorem apply_joins_signs : ∃ r out tree,
    (RuleDraft.simple "Negate" "neg($X)" "-$X").build = .ok r ∧
    apply false r "return neg(-a);" = .ok out ∧
    Java.parse? out.output = some tree ∧
    ∀ n ∈ tree.root.preorder, n.isKind "unary_expression" = false := by
  have h : ((RuleDraft.simple "Negate" "neg($X)" "-$X").build.toOption.any fun r =>
      (apply false r "return neg(-a);").toOption.any fun out =>
        (Java.parse? out.output).any fun tree =>
          tree.root.preorder.all fun n => !n.isKind "unary_expression") = true := by
    decide +kernel
  obtain ⟨r, hr, h⟩ := (Option.any_eq_true _ _).mp h
  obtain ⟨out, hout, h⟩ := (Option.any_eq_true _ _).mp h
  obtain ⟨tree, htree, h⟩ := (Option.any_eq_true _ _).mp h
  refine ⟨r, out, tree, Attempts.toOption_eq_some.mp hr, Attempts.toOption_eq_some.mp hout, htree, ?_⟩
  intro n hn
  simpa using List.all_eq_true.mp h n hn

/-! ## Roots -/

/-- The kind of a construct decides its category, but for its text. -/
theorem category_of_isKind {n : Node} {name : String} (h : n.isKind name = true) :
    n.category = Syntax.Category.ofConstruct name n.leafText := by
  unfold Node.category
  rw [eq_of_beq h]
  rfl

/-- A placeholder is as strong as a name. -/
theorem strength_of_placeholder {t : Template} {p : Node} {v : Metavariable}
    (h : t.metavariableAt? p = some v) : Java.strength p = Java.primaryStrength := by
  unfold Template.metavariableAt? Template.placeholderLeaf? at h
  by_cases hs : p.isKind "expression_statement" = true
  · have hc : p.category = .expressionStatement := category_of_isKind hs
    simp [Java.strength, hc]
  · rw [if_neg hs] at h
    by_cases hi : (p.isKind "identifier" || p.isKind "type_identifier") = true
    · rcases Bool.or_eq_true_iff.mp hi with hk | hk
      · have hc : p.category = .identifier := category_of_isKind hk
        simp [Java.strength, hc]
      · have hc : p.category = .typeIdentifier := category_of_isKind hk
        simp [Java.strength, hc]
    · simp [hi] at h

/-- A template with a root as strong as a name is put nowhere in parentheses. -/
theorem needsWrapping_eq_false {r : Rule} {t : Tree} {o : Occurrence}
    (h : ∀ root, r.templates.after.root? = some root → Java.strength root = Java.primaryStrength) :
    needsWrapping r t o = false := by
  unfold needsWrapping
  cases o.before.root? with
  | none => rfl
  | some before =>
      cases hafter : r.templates.after.root? with
      | none => rfl
      | some root =>
          dsimp only
          cases withParent? o.span before.kindName t.root with
          | none => rfl
          | some place => simp [Java.needsParentheses, h root hafter]

/-- **A template that is a metavariable** replaces a site by the text of the value as it is, in whatever
    place the site is and however weak the value. -/
theorem replacement_of_placeholder {r : Rule} {t : Tree} {o : Occurrence} {root n : Node}
    {v : Metavariable} (hr : r.templates.after.roots = [root])
    (hv : r.templates.after.metavariableAt? root = some v)
    (hb : o.site.binding.get? v.name = some (.node n)) :
    replacement r t o = .ok ⟨o.span, (slice t.source n.span).toList⟩ := by
  have hw : needsWrapping r t o = false := by
    refine needsWrapping_eq_false fun after hafter => ?_
    unfold Template.root? at hafter
    by_cases hrun : r.templates.after.isRun = true
    · simp [hrun] at hafter
    · have hroot : root = after := by simpa [hrun, hr] using hafter
      rw [← hroot]
      exact strength_of_placeholder hv
  -- the slot is the root itself, so no text of the template is left around it
  have hslots : slotsOfAll r.templates.after none [root] = [⟨root, none, v.name⟩] := by
    simp [slotsOfAll, Template.slotsOf_of_some hv]
  have hi : instantiate r.templates.after o.site.binding t.source = .ok (slice t.source n.span) := by
    unfold instantiate
    rw [hr]
    simp [hslots, fillSlots, hb, Slot.fill, Syntax.spanOf, Text.slice_self, Except.map]
  unfold replacement
  rw [hi, hw]
  rfl

/-- A value that is weaker than the place of its site comes apart. -/
theorem apply_regroups : ∃ r out tree,
    (RuleDraft.simple "Identity" "id($X)" "$X").build = .ok r ∧
    apply false r "return id(a + b) * 2;" = .ok out ∧
    Java.parse? out.output = some tree ∧ ∀ n ∈ tree.root.preorder, n.print ≠ "a + b" := by
  have h : ((RuleDraft.simple "Identity" "id($X)" "$X").build.toOption.any fun r =>
      (apply false r "return id(a + b) * 2;").toOption.any
        fun out => (Java.parse? out.output).any fun tree =>
          tree.root.preorder.all fun n => n.print != "a + b") = true := by
    decide +kernel
  obtain ⟨r, hr, h⟩ := (Option.any_eq_true _ _).mp h
  obtain ⟨out, hout, h⟩ := (Option.any_eq_true _ _).mp h
  obtain ⟨tree, htree, h⟩ := (Option.any_eq_true _ _).mp h
  refine ⟨r, out, tree, Attempts.toOption_eq_some.mp hr, Attempts.toOption_eq_some.mp hout, htree, ?_⟩
  intro n hn
  simpa using List.all_eq_true.mp h n hn

end JavaRefactor.Pass

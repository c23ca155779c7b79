import JavaRefactor.Pass.Basic
import JavaRefactor.Proofs.Attempts
import JavaRefactor.Proofs.Java.Parse

/-!
# `Proofs.Pass.Apply` — the result of a pass, without its stages

A pass is written as a computation that also tells the stages it enters. Its result alone is what reading
the text, looking for occurrences and replacing them make of one another.

## Contents
- **Results.** `readJava`, `reread`, `withImports` and `rewritten`; **`outcomeOf`**.
- **`ComesTo`**, what a computation comes to; `ComesTo.bind`.
- **Passes.** `applyTree_eq` and `apply_eq`.
- **Trees.** `spelled_of_readJava`, what a pass reads, and `print_of_rewritten`, what it writes.
-/

namespace JavaRefactor.Pass

open Syntax (Tree)

/-! ## Results -/

/-- Reads a text that a rule has made. -/
def reread (source : String) (fault : InvariantFault) : Except Problem Tree :=
  match Java.parse? source with
  | some t => .ok t
  | none => .error (.invariant fault)

/-- Mends the imports of a tree that a rule has made from another one. -/
def withImports (r : Rule) (before after : Tree) : Except Problem Tree :=
  match Imports.fix? before after r.imports with
  | some source => reread source (.invalidImports r.name)
  | none => .ok after

/-- The tree that the rule makes by replacing the occurrences. -/
def rewritten (fixImports : Bool) (r : Rule) (t : Tree) (os : List Occurrence) :
    Except Problem Tree := do
  let source ← substitute r t os
  let after ← reread source (.invalidOutput r.name)
  if fixImports then withImports r t after else .ok after

/-- Reads a text. -/
def readJava (source : String) : Except Problem Tree :=
  match Java.parse? source with
  | some t => .ok t
  | none => .error (.notJava source)

/-- The result of replacing the occurrences of a rule in a tree. -/
def outcomeOf (fixImports : Bool) (r : Rule) (t : Tree) : Except Problem Outcome :=
  let os := occurrences r t (.ofTree t)
  if os.isEmpty then .ok ⟨t.source, 0⟩
  else (rewritten fixImports r t os).map fun after => ⟨after.print, os.length⟩

/-! ## What computations come to -/

/-- Whatever the stages before it, a computation comes to a result. -/
def ComesTo {α : Type} (c : Staged α) (x : Except Problem α) : Prop := ∀ stages, (c.run.run stages).1 = x

section

variable {α β : Type} {c : Staged α} {k : α → Staged β} {x : Except Problem α} {y : α → Except Problem β}

theorem comesTo_pure (a : α) : ComesTo (pure a) (.ok a) := fun _ => rfl

theorem comesTo_attempt (x : Except Problem α) : ComesTo (attempt x) x := by
  intro stages
  cases x <;> rfl

/-- Entering a stage has no part in the result. -/
theorem ComesTo.behind (hc : ComesTo c x) (s : Stage) : ComesTo (enter s >>= fun _ => c) x := fun _ => hc _

/-- **Results are put together** as the computations are. -/
theorem ComesTo.bind (hc : ComesTo c x) (hk : ∀ a, ComesTo (k a) (y a)) : ComesTo (c >>= k) (x >>= y) := by
  intro stages
  have hx := hc stages
  rw [ExceptT.run_bind, StateT.run_bind]
  cases hrun : c.run.run stages with
  | mk result stages' =>
      rw [hrun] at hx
      subst hx
      cases result with
      | error p => rfl
      | ok a => exact hk a stages'

end

/-! ## Passes -/

theorem comesTo_again (source : String) (fault : InvariantFault) :
    ComesTo (Reader.java.again source fault) (reread source fault) := by
  intro stages
  unfold Reader.again reread
  show ((attempt (.ok (Java.parse? source)) >>= _ : Staged Tree).run.run stages).1 = _
  cases Java.parse? source <;> rfl

theorem comesTo_mendImports (r : Rule) (before after : Tree) :
    ComesTo (mendImports .java r before after) (withImports r before after) := by
  unfold mendImports withImports
  cases Imports.fix? before after r.imports with
  | none => exact comesTo_pure after
  | some source => exact comesTo_again source _

theorem comesTo_replaceAll (fixImports : Bool) (r : Rule) (t : Tree) (os : List Occurrence) :
    ComesTo (replaceAll .java fixImports r t os) (rewritten fixImports r t os) := by
  refine (comesTo_attempt _).bind fun source => ?_
  refine (comesTo_again source _).bind fun after => ?_
  cases fixImports with
  | false => exact comesTo_pure after
  | true => exact comesTo_mendImports r t after

/-- The result of a pass behind the stage `scanning`. -/
theorem comesTo_matchAndReplace (fixImports : Bool) (r : Rule) (t : Tree) :
    ComesTo (matchAndReplace .java fixImports r t) (outcomeOf fixImports r t) := by
  unfold matchAndReplace outcomeOf
  by_cases hnone : (occurrences r t (.ofTree t)).isEmpty = true
  · simp only [hnone, if_true]
    exact ((comesTo_pure _).behind .idle).behind .matching
  · simp only [hnone, Bool.false_eq_true, if_false]
    show ComesTo _ ((fun after : Tree => (⟨after.print, _⟩ : Outcome)) <$> rewritten fixImports r t _)
    rw [← bind_pure_comp]
    refine ComesTo.behind (ComesTo.behind ?_ .substituting) .matching
    exact (comesTo_replaceAll fixImports r t _).bind fun after =>
      ((comesTo_pure _).behind .idle).behind .reemitting

/-- **The result of a pass over a tree.** -/
theorem applyTree_eq (fixImports : Bool) (r : Rule) (t : Tree) :
    applyTree fixImports r t = outcomeOf fixImports r t := by
  have hpass : ComesTo (rewriteTreeWith .java fixImports r t) (outcomeOf fixImports r t) :=
    (comesTo_matchAndReplace fixImports r t).behind .scanning
  exact hpass _

/-- **The result of a pass over a text.** -/
theorem apply_eq (fixImports : Bool) (r : Rule) (source : String) :
    apply fixImports r source = readJava source >>= outcomeOf fixImports r := by
  have hparse : Reader.java.parse source = readJava source := by
    unfold Reader.parse readJava
    have hread : Reader.java.read source = .ok (Java.parse? source) := rfl
    rw [hread]
    cases Java.parse? source <;> rfl
  have hpass : ComesTo (rewriteWith .java fixImports r source) (readJava source >>= outcomeOf fixImports r) := by
    rw [← hparse]
    exact ((comesTo_attempt _).bind fun t => comesTo_matchAndReplace fixImports r t).behind .scanning
  exact hpass _

/-! ## Trees -/

/-- What is read is a tree of the text. -/
theorem spelled_of_readJava {source : String} {t : Tree} (h : readJava source = .ok t) :
    t.source = source ∧ ∃ ls nodes, Java.Spelled t ls nodes := by
  unfold readJava at h
  split at h
  · rename_i t' ht'
    obtain rfl : t' = t := Except.ok.inj h
    exact Java.spelled_of_parse? ht'
  · exact absurd h (by simp)

/-- A text that is read again is what its tree prints. -/
theorem print_of_reread {source : String} {fault : InvariantFault} {t : Tree}
    (h : reread source fault = .ok t) : t.source = source ∧ t.print = source := by
  unfold reread at h
  split at h
  · rename_i t' ht'
    obtain rfl : t' = t := Except.ok.inj h
    obtain ⟨hsource, ls, nodes, hspelled⟩ := Java.spelled_of_parse? ht'
    exact ⟨hsource, hspelled.print_eq.trans hsource⟩
  · exact absurd h (by simp)

/-- **The new tree of a pass** prints the text with the occurrences replaced, or that with its imports mended. -/
theorem print_of_rewritten {fixImports : Bool} {r : Rule} {t : Tree} {os : List Occurrence} {after : Tree}
    (h : rewritten fixImports r t os = .ok after) :
    ∃ s, substitute r t os = .ok s ∧ (after.print = s ∨ fixImports = true ∧
      ∃ middle, middle.source = s ∧ Imports.fix? t middle r.imports = some after.print) := by
  obtain ⟨s, hs, h⟩ := Attempts.bind_eq_ok.mp h
  obtain ⟨middle, hmiddle, h⟩ := Attempts.bind_eq_ok.mp h
  obtain ⟨hsource, hprint⟩ := print_of_reread hmiddle
  refine ⟨s, hs, ?_⟩
  split at h
  · rename_i hfix
    unfold withImports at h
    split at h
    · rename_i s' hs'
      obtain ⟨-, hprint'⟩ := print_of_reread h
      exact Or.inr ⟨hfix, middle, hsource, by rw [hprint', hs']⟩
    · obtain rfl : middle = after := Except.ok.inj h
      exact Or.inl hprint
  · obtain rfl : middle = after := Except.ok.inj h
    exact Or.inl hprint

end JavaRefactor.Pass

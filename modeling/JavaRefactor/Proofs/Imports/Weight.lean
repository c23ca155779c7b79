import JavaRefactor.Proofs.Imports.Edits
import JavaRefactor.Proofs.Text.Weight
import Mathlib.Algebra.Order.BigOperators.Group.List
import Mathlib.Algebra.Order.Group.Nat

/-!
# `Proofs.Imports.Weight` — what mending the imports adds to a text

Removing an import only takes something away. Adding one puts in its declaration and at most two line breaks, wherever it
goes, and each import that is wanted is added once at most.

## Contents
- **`declarationWeight`**, what an import may add.
- **`weight_of_inserts`**, one edit, and **`declarationsWeight_added`**, which imports come.
- **`insertedWeight`**, of several edits.
- **`weight_of_fix?`**.
-/

namespace JavaRefactor.Imports

open Syntax (Tree)
open Text (Edit weight)

variable {w : Char → Nat}

/-- What an import may add to a text: its declaration and two line breaks. -/
def declarationWeight (w : Char → Nat) (i : ImportSpec) : Nat :=
  weight w i.declaration.toList + 2 * w '\n'

/-- What the imports of a rule may add together. -/
def declarationsWeight (w : Char → Nat) (is : List ImportSpec) : Nat :=
  (is.map (declarationWeight w)).sum

/-! ## Edits -/

/-- **An import that comes** puts in its declaration and at most two line breaks, wherever it goes. -/
theorem weight_of_inserts {i : ImportSpec} {e : Edit} (h : Inserts i e) :
    weight w e.text ≤ declarationWeight w i := by
  obtain ⟨-, breaks, hbreaks, htext⟩ := h
  have hle : weight w breaks.toList ≤ 2 * w '\n' := by
    rcases List.mem_cons.mp hbreaks with rfl | hbreaks
    · show w '\n' + 0 ≤ 2 * w '\n'
      omega
    · rw [List.mem_singleton.mp hbreaks]
      show w '\n' + (w '\n' + 0) ≤ 2 * w '\n'
      omega
  unfold declarationWeight
  rcases htext with htext | htext <;> rw [htext, String.toList_append, Text.weight_append] <;> omega

/-! ## Additions -/

/-- Some of the imports add no more than all of them. -/
theorem declarationsWeight_le {is js : List ImportSpec} (h : is.Sublist js) :
    declarationsWeight w is ≤ declarationsWeight w js :=
  (h.map (declarationWeight w)).sum_le_sum (fun _ _ => Nat.zero_le _)

/-- **The imports that come** are some of those that are wanted. -/
theorem declarationsWeight_added (after : Tree) (wanted : List ImportSpec) :
    declarationsWeight w (added after wanted) ≤ declarationsWeight w wanted := by
  unfold added
  generalize hmissing : wanted.filter _ = missing
  have hsublist : missing.Sublist wanted := hmissing ▸ List.filter_sublist
  have hsorted : declarationsWeight w (sortWith (fun i j => decide (j.path ≤ i.path)) missing) =
      declarationsWeight w missing :=
    ((perm_sortWith missing).map (declarationWeight w)).sum_eq
  calc declarationsWeight w ((sortWith (fun i j => decide (j.path ≤ i.path)) missing).destutter (· ≠ ·))
      ≤ declarationsWeight w (sortWith (fun i j => decide (j.path ≤ i.path)) missing) :=
        declarationsWeight_le (List.destutter_sublist _ _)
    _ = declarationsWeight w missing := hsorted
    _ ≤ declarationsWeight w wanted := declarationsWeight_le hsublist

/-! ## Both -/

/-- What edits put in. -/
def insertedWeight (w : Char → Nat) (es : List Edit) : Nat := (es.map fun e => weight w e.text).sum

/-- Removals put nothing in. -/
theorem insertedWeight_removals (source : List Char) (gone : List Declared) :
    insertedWeight w (gone.map (removal source)) = 0 := by
  unfold insertedWeight
  induction gone with
  | nil => rfl
  | cons d ds ih =>
      rw [List.map_cons, List.map_cons, List.sum_cons, ih]
      rfl

theorem insertedWeight_insertions (t : Tree) (remaining : List Declared) (vacated : Option Nat)
    (is : List ImportSpec) :
    insertedWeight w (is.map (insertion t remaining vacated)) ≤ declarationsWeight w is := by
  unfold insertedWeight declarationsWeight
  rw [List.map_map]
  exact List.sum_le_sum fun i _ => weight_of_inserts (insertion_spec t remaining vacated i).1

theorem insertedWeight_edits (before after : Tree) (wanted : List ImportSpec) :
    insertedWeight w (edits before after wanted) ≤ declarationsWeight w wanted := by
  have happend : ∀ es es', insertedWeight w (es ++ es') = insertedWeight w es + insertedWeight w es' := by
    intro es es'
    unfold insertedWeight
    rw [List.map_append, List.sum_append]
  rw [edits_eq, happend, insertedWeight_removals, Nat.zero_add]
  exact Nat.le_trans (insertedWeight_insertions ..) (declarationsWeight_added ..)

/-- **Mending the imports** makes a text heavier by what the wanted imports may add, at most. -/
theorem weight_of_fix? {before after : Tree} {wanted : List ImportSpec} {source : String}
    (h : fix? before after wanted = some source) :
    weight w source.toList ≤ weight w after.source.toList + declarationsWeight w wanted := by
  have hadded := insertedWeight_edits (w := w) before after wanted
  unfold fix? at h
  split at h
  · exact absurd h (by simp)
  · obtain rfl := Option.some.inj h
    -- the order in which the edits are made does not change what they put in
    have hperm : (sortWith (fun d e => Nat.ble e.span.start d.span.start)
        (edits before after wanted)).Perm (edits before after wanted) := perm_sortWith _
    have hsorted := (hperm.map fun e : Edit => weight w e.text).sum_eq
    rw [String.toList_ofList]
    refine Nat.le_trans (Text.weight_applyWhereFits _ _) (Nat.add_le_add_left ?_ _)
    rw [hsorted]
    exact hadded

end JavaRefactor.Imports

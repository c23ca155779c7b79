import JavaRefactor.Proofs.Imports.Changes

/-!
# `Proofs.Imports.Frame` — mending the imports changes nothing else

## Contents
- **`exists_edits_of_fix?`**: the edits are made at once, in some order; and `fix?_eq_none_iff`.
- **`fix?_frame`**: the changes are those of the imports that go and that come.
-/

namespace JavaRefactor.Imports

open Java (Lexeme Spelled)
open Syntax (Node Tree)
open Text (Edit Span byteLength)

/-- The edits are made at once, in some order. -/
theorem exists_edits_of_fix? {before after : Tree} {wanted : List ImportSpec} {ls : List Lexeme} {nodes : List Node}
    {out : String} (h : Spelled after ls nodes) (hout : fix? before after wanted = some out) :
    ∃ es : List Edit, es.Perm (edits before after wanted) ∧
      Text.applyAtOnce 0 es after.source.toList = some out.toList :=
  ⟨_, perm_arrangedEdits before after wanted, applyAtOnce_edits h hout⟩

theorem fix?_eq_none_iff {before after : Tree} {wanted : List ImportSpec} :
    fix? before after wanted = none ↔ edits before after wanted = [] := by
  unfold fix?
  split
  · rename_i hnil
    exact iff_of_true rfl hnil
  · rename_i hsome
    exact iff_of_false (by simp) hsome

/-- **Mending the imports changes nothing else.** There is nothing to change exactly if no import goes and none
    comes. Otherwise the text is changed at once by edits that take out the imports that go, each with one line
    break behind it, and put in those that come, none of them inside what is taken out. -/
theorem fix?_frame {source : String} {before after : Tree} (hafter : Java.parse? source = some after)
    (wanted : List ImportSpec) :
    (fix? before after wanted = none ↔ gone before after = [] ∧ added after wanted = []) ∧
    ∀ out, fix? before after wanted = some out → ∃ removals insertions es : List Edit,
      List.Forall₂ (Removes source.toList) (gone before after) removals ∧
      List.Forall₂ Inserts (added after wanted) insertions ∧
      (∀ r ∈ removals, ∀ i ∈ insertions, i.span.start ≤ r.span.start ∨ r.span.stop ≤ i.span.start) ∧
      es.Perm (removals ++ insertions) ∧ Text.applyAtOnce 0 es source.toList = some out.toList := by
  obtain ⟨rfl, ls, nodes, h⟩ := Java.spelled_of_parse? hafter
  have hsplit := edits_eq before after wanted
  constructor
  · rw [fix?_eq_none_iff, hsplit, List.append_eq_nil_iff, List.map_eq_nil_iff, List.map_eq_nil_iff]
  · intro out hout
    obtain ⟨es, hperm, honce⟩ := exists_edits_of_fix? h hout
    rw [hsplit] at hperm
    refine ⟨_, _, es, ?_, ?_, ?_, hperm, honce⟩
    · refine List.forall₂_map_right_iff.mpr (List.forall₂_same.mpr ?_)
      intro d hd
      exact removes_of_mem_declared h (List.mem_of_mem_filter hd)
    · refine List.forall₂_map_right_iff.mpr (List.forall₂_same.mpr ?_)
      intro i _
      exact (insertion_spec ..).1
    · intro r hr e he
      obtain ⟨g, hg, rfl⟩ := List.mem_map.mp hr
      obtain ⟨i, -, rfl⟩ := List.mem_map.mp he
      rw [(bounds_of_removal h (List.mem_of_mem_filter hg)).1]
      exact isPlace_apart h hg (insertion_spec ..).2

/-- An import that comes in the place of one that goes. -/
theorem fix?_frame_in_place : ∃ (before after : Tree) (es removals insertions : List Edit),
    Java.parse? "import a.A;\nclass T { B x; }" = some after ∧
    fix? before after [⟨"b.B", false⟩] = some "import b.B;\nclass T { B x; }" ∧
    removals.length = 1 ∧ insertions.length = 1 ∧ es.Perm (removals ++ insertions) ∧
    Text.applyAtOnce 0 es "import a.A;\nclass T { B x; }".toList = some "import b.B;\nclass T { B x; }".toList := by
  have h : ((Java.parse? "import a.A;\nclass T { A x; }").any fun before =>
      (Java.parse? "import a.A;\nclass T { B x; }").any fun after =>
        (gone before after).length == 1 && (added after [⟨"b.B", false⟩]).length == 1 &&
          fix? before after [⟨"b.B", false⟩] == some "import b.B;\nclass T { B x; }") = true := by
    decide +kernel
  obtain ⟨before, -, h⟩ := (Option.any_eq_true _ _).mp h
  obtain ⟨after, hafter, h⟩ := (Option.any_eq_true _ _).mp h
  obtain ⟨h, hout⟩ := (Bool.and_eq_true _ _).mp h
  obtain ⟨hgone, hadded⟩ := (Bool.and_eq_true _ _).mp h
  have hout := beq_iff_eq.mp hout
  obtain ⟨-, hframe⟩ := fix?_frame hafter [⟨"b.B", false⟩]
  obtain ⟨removals, insertions, es, hremovals, hinsertions, -, hperm, honce⟩ := hframe _ hout
  exact ⟨before, after, es, removals, insertions, hafter, hout,
    hremovals.length_eq.symm.trans (beq_iff_eq.mp hgone), hinsertions.length_eq.symm.trans (beq_iff_eq.mp hadded),
    hperm, honce⟩

end JavaRefactor.Imports

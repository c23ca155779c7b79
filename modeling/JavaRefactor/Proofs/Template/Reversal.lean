import JavaRefactor.Proofs.Template.Scanning

/-!
# `Proofs.Template.Reversal` — normalisation can be undone

The text that a template is normalised to is the template with placeholders for the metavariables that are recorded,
and with nothing else changed. So the template comes back when each metavariable is put back where it was.

## Contents
- **`nameOfPlaceholder?_placeholder`**: a placeholder tells its name.
- **Edits.** `replacement` and `restoration`, and what a scan has to do with them: `Scans.applyAtOnce`, `Scans.restored`.
- **`normalise_reversible`**.
-/

namespace JavaRefactor.Metavariable

open Text (byteLength Edit)

/-- A placeholder tells the name that it was made from. -/
theorem nameOfPlaceholder?_placeholder (name : String) : nameOfPlaceholder? (placeholder name) = some name := by
  have hfront : Text.stripFront placeholderFront.toList (placeholder name).toList =
      some (name.toList ++ placeholderBack.toList) := by
    unfold Text.stripFront
    rw [toList_placeholder, List.append_assoc, if_pos (List.isPrefixOf_iff_prefix.mpr (List.prefix_append _ _)),
      List.drop_left]
  have hback : Text.stripBack placeholderBack.toList (name.toList ++ placeholderBack.toList) = some name.toList := by
    unfold Text.stripBack
    rw [if_pos (List.isSuffixOf_iff_suffix.mpr (List.suffix_append _ _)), List.length_append, Nat.add_sub_cancel,
      List.take_left]
  rw [nameOfPlaceholder?, hfront, Option.bind_some, hback, Option.map_some, String.ofList_toList]

/-- Puts the placeholder in the place of a metavariable. -/
def replacement (m : Metavariable) : Edit :=
  ⟨⟨m.offset, m.offset + byteLength m.written⟩, (placeholder m.name).toList⟩

/-- Puts a metavariable in the place of its placeholder, which starts where the metavariable did. -/
def restoration (m : Metavariable) : Edit :=
  ⟨⟨m.offset, m.offset + byteLength (placeholder m.name).toList⟩, m.written⟩

variable {rest : List Char} {final state : ScanState} {offset : Nat} {cs out : List Char} {ms : List Metavariable}

/-- **A scan replaces what it finds** and copies the rest, in a text of which `before` is still to be copied. -/
theorem Scans.applyAtOnce (h : Scans rest final state offset cs ms out) :
    ∀ (place : Nat) (before : List Char), offset = place + byteLength before →
      Text.applyAtOnce place (ms.map replacement) (before ++ cs ++ rest) = some (before ++ out ++ rest) := by
  induction h with
  | done offset =>
      intro place before _
      rfl
  | @copied state offset c cs out ms _ _ _ ih =>
      intro place before hoffset
      have hnext := ih place (before ++ [c])
        (by rw [hoffset, Text.byteLength_append, Nat.add_assoc]; rfl)
      rwa [List.append_assoc before [c], List.append_assoc before [c]] at hnext
  | @found m cs out ms _ _ ih =>
      intro place before hoffset
      have hspan : (replacement m).span = ⟨place + byteLength before, place + byteLength (before ++ m.written)⟩ := by
        rw [replacement, hoffset, Text.byteLength_append, Nat.add_assoc]
      have hlater := ih (replacement m).span.stop [] rfl
      rw [List.nil_append, List.nil_append] at hlater
      rw [List.map_cons, ← List.append_assoc, List.append_assoc _ cs, Text.applyAtOnce_append hspan, hlater,
        Option.map_some]
      simp only [replacement, List.append_assoc]

/-- **Putting back what a scan found**, in the order of the text, makes the text what it was. -/
theorem Scans.restored (h : Scans rest final state offset cs ms out) :
    ∀ (front : List Char), offset = byteLength front →
      ms.foldlM (fun text m => (restoration m).applied? text) (front ++ out ++ rest) = some (front ++ cs ++ rest) := by
  induction h with
  | done offset =>
      intro front _
      rfl
  | @copied state offset c cs out ms _ _ _ ih =>
      intro front hoffset
      have hnext := ih (front ++ [c]) (by rw [Text.byteLength_append, hoffset]; rfl)
      rwa [List.append_assoc front [c], List.append_assoc front [c]] at hnext
  | @found m cs out ms _ _ ih =>
      intro front hoffset
      have hlater := ih (front ++ m.written) (by rw [Text.byteLength_append, hoffset])
      have hspan : (restoration m).span = ⟨byteLength front, byteLength (front ++ (placeholder m.name).toList)⟩ := by
        rw [restoration, hoffset, Text.byteLength_append]
      have hfirst : (restoration m).applied? (front ++ ((placeholder m.name).toList ++ out) ++ rest) =
          some (front ++ m.written ++ out ++ rest) := by
        rw [← List.append_assoc front, List.append_assoc _ out, Text.applied?_append hspan, ← List.append_assoc]
        rfl
      rw [List.foldlM_cons, hfirst, ← List.append_assoc front]
      exact hlater

/-- **Normalisation is reversible.** Of a text that is accepted the metavariables are recorded in order, each as it
    stands there; the text is normalised by replacing these by their placeholders, comes back when they are put back,
    and each placeholder tells its name. A text that is rejected has dollars, no more of them on either side, of which
    there are neither one nor three, or which have no name behind them; what is wrong is told with their place. -/
theorem normalise_reversible (text : String) :
    (∀ ms out, normalise text = .ok (ms, out) →
      (ms.map (·.offset)).Pairwise (· < ·) ∧
      (∀ m ∈ ms, m.StandsIn text.toList) ∧
      Text.applyAtOnce 0 (ms.map replacement) text.toList = some out.toList ∧
      ms.foldlM (fun cs m => (restoration m).applied? cs) out.toList = some text.toList ∧
      ∀ m ∈ ms, nameOfPlaceholder? (placeholder m.name) = some m.name) ∧
    ∀ fault, normalise text = .error fault →
      ∃ front count behind, text.toList = front ++ List.replicate count '$' ++ behind ∧ 0 < count ∧
        front.getLast? ≠ some '$' ∧ behind.head? ≠ some '$' ∧
        (count ≠ 1 ∧ count ≠ 3 ∧ fault = .dollars (byteLength front) count ∨
          (∀ name, name <+: behind → isMetavariableName name = false) ∧ fault = .nameless (byteLength front)) := by
  refine ⟨fun ms normal h => ?_, fun fault h => ?_⟩
  · obtain ⟨out, final, hscan, rfl⟩ := scans_of_normalise h
    have hstands := (hscan.standsBehind [] rfl ScanState.behind_nil).1
    have honce := hscan.applyAtOnce 0 [] rfl
    have hback := hscan.restored [] rfl
    simp only [List.nil_append, List.append_nil] at hstands honce hback
    rw [String.toList_ofList]
    refine ⟨List.pairwise_map.mpr (hscan.offsets.2.imp fun {a b} hbehind => ?_), fun m hm => ?_, honce, hback,
      fun m _ => nameOfPlaceholder?_placeholder m.name⟩
    · exact Nat.lt_of_lt_of_le (Nat.lt_add_of_pos_right (Text.byteLength_pos a.written_ne_nil)) hbehind
    · obtain ⟨front, hfront, -⟩ := hstands m hm
      exact ⟨front, hfront⟩
  · obtain ⟨front, rest, ms, out, htext, hscan, hfault⟩ := scans_of_normalise_error h
    have hfront := (hscan.standsBehind [] rfl ScanState.behind_nil).2
    rw [List.nil_append] at hfront
    obtain ⟨count, behind, rfl, hpos, hend, hcase⟩ := hfault
    refine ⟨front, count, behind, by rw [htext, List.append_assoc], hpos, hfront.apart rfl, hend, ?_⟩
    rcases hcase with ⟨hone, hthree, htold⟩ | ⟨-, hname, htold⟩
    · exact Or.inl ⟨hone, hthree, htold⟩
    · exact Or.inr ⟨fun name => isMetavariableName_eq_false hname, htold⟩

/-- A text that is accepted, with a dollar in a literal, and one that is rejected. -/
theorem normalise_reversible_call :
    (let found := [⟨"A", .single, 2⟩, ⟨"B_1", .run, 11⟩]
     let text := "f($A, '$', $$$B_1)"
     let normal := "f(__RECAST_MV_A__, '$', __RECAST_MV_B_1__)"
     normalise text = .ok (found, normal) ∧
       found.foldlM (fun cs m => (restoration m).applied? cs) normal.toList = some text.toList) ∧
    normalise "f($$X)" = .error (.dollars 2 2) ∧
    ∃ front count behind, "f($$X)".toList = front ++ List.replicate count '$' ++ behind ∧ 0 < count ∧
      front.getLast? ≠ some '$' ∧ behind.head? ≠ some '$' ∧
      (count ≠ 1 ∧ count ≠ 3 ∧ MetavariableFault.dollars 2 2 = .dollars (byteLength front) count ∨
        (∀ name, name <+: behind → isMetavariableName name = false) ∧
          MetavariableFault.dollars 2 2 = .nameless (byteLength front)) := by
  have haccepted : normalise "f($A, '$', $$$B_1)" =
      .ok ([⟨"A", .single, 2⟩, ⟨"B_1", .run, 11⟩], "f(__RECAST_MV_A__, '$', __RECAST_MV_B_1__)") := by decide +kernel
  have hrejected : normalise "f($$X)" = .error (.dollars 2 2) := by decide +kernel
  obtain ⟨-, -, -, hback, -⟩ := (normalise_reversible "f($A, '$', $$$B_1)").1 _ _ haccepted
  exact ⟨⟨haccepted, hback⟩, hrejected, (normalise_reversible "f($$X)").2 _ hrejected⟩

end JavaRefactor.Metavariable

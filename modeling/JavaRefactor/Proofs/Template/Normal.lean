import JavaRefactor.Proofs.Template.Scanning
import JavaRefactor.Proofs.Text.Weight

/-!
# `Proofs.Template.Normal` — what normalisation makes of the text of a template

The names that are found are spelled with capitals, digits and underscores, and so are the placeholders that take the place
of metavariables. So where these characters and the dollar weigh nothing, a text weighs as much as what it is
normalised to.

## Contents
- **`SparesNames`**, weights of this kind.
- **`weight_written`** and **`weight_placeholder`**, a metavariable and its placeholder.
- **`Scans.weight_eq`**, by the scan, and **`normalise_spec`**.
-/

namespace JavaRefactor.Metavariable

open Text (weight)

variable {w : Char → Nat}

/-- The characters of metavariables weigh nothing. -/
structure SparesNames (w : Char → Nat) : Prop where
  dollar : w '$' = 0
  names : ∀ c, continuesName c = true → w c = 0

/-- A placeholder weighs nothing. -/
theorem weight_placeholder (hw : SparesNames w) {name : List Char}
    (hname : ∀ c ∈ name, continuesName c = true) :
    weight w (placeholder (String.ofList name)).toList = 0 := by
  rw [Text.weight_eq_zero_iff]
  intro c hc
  refine hw.names c (continuesName_of_mem_placeholder ?_ hc)
  rwa [String.toList_ofList]

/-- A metavariable weighs nothing. -/
theorem weight_written (hw : SparesNames w) {m : Metavariable} (hname : isMetavariableName m.name.toList = true) :
    weight w m.written = 0 := by
  rw [Text.weight_eq_zero_iff]
  intro c hc
  rcases List.mem_append.mp hc with hc | hc
  · rw [List.eq_of_mem_replicate hc]
    exact hw.dollar
  · exact hw.names c (continuesName_of_mem hname hc)

/-- **What a scan finds** are names, and the text weighs as much as what it is normalised to. -/
theorem Scans.weight_eq (hw : SparesNames w) {rest : List Char} {final state : ScanState} {offset : Nat}
    {cs out : List Char} {ms : List Metavariable} (h : Scans rest final state offset cs ms out) :
    (∀ v ∈ ms, ∀ c ∈ v.name.toList, continuesName c = true) ∧ weight w out = weight w cs := by
  induction h with
  | done offset => exact ⟨by simp, rfl⟩
  | copied _ _ _ ih => exact ⟨ih.1, by rw [Text.weight_cons, Text.weight_cons, ih.2]⟩
  | @found m cs out ms hname _ ih =>
      have hm : ∀ c ∈ m.name.toList, continuesName c = true := fun c hc => continuesName_of_mem hname.valid hc
      have hplaceholder := weight_placeholder hw hm
      rw [String.ofList_toList] at hplaceholder
      refine ⟨fun v hv => ?_, ?_⟩
      · rcases List.mem_cons.mp hv with rfl | hv
        · exact hm
        · exact ih.1 v hv
      · rw [Text.weight_append, Text.weight_append, hplaceholder, weight_written hw hname.valid, ih.2]

/-- **A text weighs as much as what it is normalised to**, and what is found in it are names. -/
theorem normalise_spec (hw : SparesNames w) {source text : String} {ms : List Metavariable}
    (h : normalise source = .ok (ms, text)) :
    (∀ v ∈ ms, ∀ c ∈ v.name.toList, continuesName c = true) ∧
      weight w text.toList = weight w source.toList := by
  obtain ⟨out, final, hscan, rfl⟩ := scans_of_normalise h
  rw [String.toList_ofList]
  exact hscan.weight_eq hw

end JavaRefactor.Metavariable

import JavaRefactor.Proofs.Template.Placeholders

/-!
# `Proofs.Template.Compile` — what a compiled template is

## Contents
- **`compile_inv`**: the parts of a compiled template, and the checks they have passed.
- **`shape_eq_of_name_eq`**: in a compiled template one name has one shape.
- **`roots_eq_singleton`**: a template that is no run of siblings has one root only.
-/

namespace JavaRefactor

open Syntax (Node)
open Text (Span)

namespace Metavariable

/-- Where no name is mixed, metavariables of one name have one shape. -/
theorem shape_eq_of_mixed?_eq_none : ∀ {ms : List Metavariable}, mixed? ms = none →
    ∀ v ∈ ms, ∀ w ∈ ms, v.name = w.name → v.shape = w.shape
  | [], _, v, hv, _, _, _ => absurd hv (by simp)
  | m :: ms, h, v, hv, w, hw, hn => by
      unfold mixed? at h
      cases hf : ms.find? (fun m' => m'.name == m.name && m'.shape != m.shape) with
      | some a =>
          rw [hf] at h
          cases hr : mixed? ms with
          | none => rw [hr] at h; exact absurd h (by simp)
          | some b =>
              rw [hr] at h
              by_cases hab : a.offset ≤ b.offset
              · simp [hab] at h
              · simp [hab] at h
      | none =>
          rw [hf] at h
          have hr : mixed? ms = none := by simpa using h
          -- the head agrees with every later metavariable of its name
          have hd : ∀ u ∈ ms, u.name = m.name → u.shape = m.shape := by
            intro u hu hun
            have := List.find?_eq_none.mp hf u hu
            simpa [hun] using this
          rcases List.mem_cons.mp hv with rfl | hv'
          · rcases List.mem_cons.mp hw with rfl | hw'
            · rfl
            · exact (hd w hw' hn.symm).symm
          · rcases List.mem_cons.mp hw with rfl | hw'
            · exact hd v hv' hn
            · exact shape_eq_of_mixed?_eq_none hr v hv' w hw' hn

end Metavariable

namespace Template

/-! ## Places -/

mutual

/-- What is found as a run is told as one. -/
theorem isRun_of_runPlace {span : Span} : ∀ {n : Node} {p : Place},
    runPlace span n = some p → p.isRun = true
  | .leaf .., p, h => absurd h (by simp [runPlace])
  | .branch l cs, p, h => by
      unfold runPlace at h
      cases ha : runPlaceAmong span 0 cs with
      | some found =>
          rw [ha] at h
          exact isRun_of_runPlaceAmong (ha.trans (congrArg some h))
      | none =>
          rw [ha] at h
          simp only [coveringRun] at h
          split at h
          · split at h
            · exact (Option.some.inj h) ▸ rfl
            · exact absurd h (by simp)
          · exact absurd h (by simp)

theorem isRun_of_runPlaceAmong {span : Span} : ∀ {cs : List Node} {index : Nat} {p : Place},
    runPlaceAmong span index cs = some (some p) → p.isRun = true
  | [], _, p, h => absurd h (by simp [runPlaceAmong])
  | c :: cs, index, p, h => by
      unfold runPlaceAmong at h
      by_cases hc : c.span.contains span = true
      · simp only [hc, if_true, Option.some.injEq] at h
        obtain ⟨q, hq, rfl⟩ := Option.map_eq_some_iff.mp h
        show q.isRun = true
        exact isRun_of_runPlace hq
      · simp only [hc] at h
        exact isRun_of_runPlaceAmong h

end

/-- A place that is no run is that of one node. -/
theorem count_of_placeOf? {root : Node} {span : Span} {p : Place} (h : placeOf? root span = some p)
    (hr : p.isRun = false) : p.count = 1 := by
  unfold placeOf? at h
  cases hi : innermostPath span root with
  | some path =>
      rw [hi] at h
      obtain ⟨last, _, rfl⟩ := Option.map_eq_some_iff.mp h
      rfl
  | none =>
      rw [hi] at h
      rw [isRun_of_runPlace h] at hr
      exact absurd hr (by simp)

/-! ## Compiled templates -/

/-- **The parts of a compiled template.** Its metavariables are those of the trimmed text, none of them
    mixed, and its tree and place are those of the normalised text in one of the wrappings. -/
theorem compile_inv {source : String} {ds : List Declaration} {t : Template}
    (h : compile source ds = .ok t) :
    t.source = Text.trim source ∧ t.declarations = ds ∧
    Metavariable.mixed? t.metavariables = none ∧
    ∃ text, Metavariable.normalise (Text.trim source) = .ok (t.metavariables, text) ∧
      ∃ w ∈ wrappings, readWrapped text w = some (t.tree, t.place) := by
  unfold compile at h
  by_cases he : (Text.trim source).isEmpty = true
  · simp [he] at h
  · simp only [he] at h
    cases hn : Metavariable.normalise (Text.trim source) with
    | error fault => rw [hn] at h; exact absurd h (by simp)
    | ok r =>
        obtain ⟨ms, text⟩ := r
        rw [hn] at h
        cases hm : Metavariable.mixed? ms with
        | some m => simp [hm] at h
        | none =>
            cases hw : wrappings.findSome? (readWrapped text) with
            | none => simp [hm, hw] at h
            | some found =>
                obtain ⟨tree, place⟩ := found
                have ht : (⟨Text.trim source, ms, ds, tree, place⟩ : Template) = t := by
                  simpa [hm, hw] using h
                subst ht
                obtain ⟨w, hmem, hr⟩ := List.exists_of_findSome?_eq_some hw
                exact ⟨rfl, rfl, hm, text, rfl, w, hmem, hr⟩

/-- In a compiled template one name has one shape. -/
theorem shape_eq_of_name_eq {source : String} {ds : List Declaration} {t : Template}
    (h : compile source ds = .ok t) {v w : Metavariable} (hv : v ∈ t.metavariables)
    (hw : w ∈ t.metavariables) (hn : v.name = w.name) : v.shape = w.shape :=
  Metavariable.shape_eq_of_mixed?_eq_none (compile_inv h).2.2.1 v hv w hw hn

/-- The tree of a compiled template is that of a Java text, and its roots stand at the place of a range. -/
theorem exists_placeOf? {source : String} {ds : List Declaration} {t : Template}
    (h : compile source ds = .ok t) :
    ∃ text span, Java.parse? text = some t.tree ∧ placeOf? t.tree.root span = some t.place := by
  obtain ⟨-, -, -, text, -, w, -, hw⟩ := compile_inv h
  unfold readWrapped at hw
  split at hw
  · exact absurd hw (by simp)
  · rename_i tree htree
    obtain ⟨place, hplace, he⟩ := Option.map_eq_some_iff.mp hw
    obtain ⟨rfl, rfl⟩ := Prod.mk.inj he
    exact ⟨_, _, htree, hplace⟩

/-- A compiled template that is no run of siblings has one root only. -/
theorem roots_eq_singleton {source : String} {ds : List Declaration} {t : Template}
    (h : compile source ds = .ok t) {root : Node} (hr : t.root? = some root) :
    t.roots = [root] := by
  obtain ⟨-, span, -, hspan⟩ := exists_placeOf? h
  unfold root? at hr
  by_cases hrun : t.isRun = true
  · simp [hrun] at hr
  · simp only [hrun] at hr
    have hplace : t.place.count = 1 := count_of_placeOf? hspan (by simpa [isRun] using hrun)
    -- one node is taken from the list of children, or the root itself
    have hlen : t.roots.length ≤ 1 := by
      unfold roots Place.nodes
      split
      · rw [hplace]; exact List.length_take_le 1 _
      · simp
    cases hc : t.roots with
    | nil => simp [hc] at hr
    | cons a as =>
        rw [hc] at hlen
        have has : as = [] := List.eq_nil_of_length_eq_zero (by simpa using hlen)
        have ha : a = root := by simpa [hc] using hr
        rw [has, ha]

end Template

end JavaRefactor

import JavaRefactor.Proofs.Match.Soundness
import JavaRefactor.Proofs.Pass.Apply
import JavaRefactor.Proofs.Pass.Instance
import JavaRefactor.Proofs.Pass.Occurrences
import JavaRefactor.Proofs.Rule.Build

/-!
# `Proofs.Rule.Unbound` — when a checked rule meets a metavariable without a value

A rule is checked by the metavariables *recorded* for its templates' texts, a match binds the
*placeholders* of a before-template, and filling in asks for the placeholders of the after-template. A
metavariable in a comment, in a text block or as a part of a longer name is recorded and no placeholder.
So a recorded metavariable is bound exactly if it is a placeholder too, and a pass lacks a value exactly
if it comes upon an occurrence whose before-template has not all the placeholders of the after-template.

## Contents
- **Matches of compiled templates.** `get?_isSome_iff_of_returns`, `shape_eq_of_returns`.
- **Passes.** `substitute_unbound_iff`, `outcomeOf_unbound_iff`.
- **`unbound_iff_of_build`**, and a rule whose before-template has a metavariable in a comment.
-/

namespace JavaRefactor

open Syntax (Node Tree)

/-! ## Matches of compiled templates -/

namespace Matcher

variable {m : Matcher} {source : String} {ds : List Declaration} {b : Binding}

/-- A match of a compiled template is explained by its roots, and placeholders face values of their
    shapes. -/
theorem explained_of_returns (hc : Template.compile source ds = .ok m.template)
    (h : m.Returns b) : ∃ fs, Explained m m.template.roots fs b ∧
      fs.map (·.placeholder) = m.template.placeholders ∧
      ∀ f ∈ fs, f.value.shape = f.placeholder.shape := by
  rcases h with ⟨n, hn⟩ | ⟨ns, hns⟩
  · obtain ⟨root, fs, hr, ho, he⟩ := overlay_of_node? hn
    have hroots := Template.roots_eq_singleton hc hr
    refine ⟨fs, hroots ▸ he, ?_, ho.shape_eq⟩
    unfold Template.placeholders
    rw [ho.placeholders, hroots]; simp
  · unfold run? at hns
    by_cases hr : m.template.isRun = true
    · simp only [hr, if_true] at hns
      obtain ⟨fs, ho, he⟩ := overlay_of_siblings? hns
      exact ⟨fs, he, ho.placeholders, ho.shape_eq⟩
    · simp [hr] at hns

/-- **A match binds the placeholders**, but for the wildcard. -/
theorem get?_isSome_iff_of_returns (hc : Template.compile source ds = .ok m.template)
    (h : m.Returns b) (name : String) : (b.get? name).isSome = true ↔
      name ≠ Metavariable.wildcard ∧ name ∈ m.template.placeholderNames := by
  obtain ⟨fs, he, -, -⟩ := explained_of_returns hc h
  exact he.names name

/-- **A bound value has the shape** of every metavariable that is recorded under its name. -/
theorem shape_eq_of_returns (hc : Template.compile source ds = .ok m.template) (h : m.Returns b)
    {x : Bound} {v : Metavariable} (hx : b.get? v.name = some x)
    (hv : v ∈ m.template.metavariables) : x.shape = v.shape := by
  obtain ⟨fs, he, hp, hs⟩ := explained_of_returns hc h
  obtain ⟨f, hf, hn, rfl⟩ := he.faced v.name x hx
  have hm : f.placeholder ∈ m.template.placeholders := hp ▸ List.mem_map_of_mem hf
  have hr := Template.placeholdersOfAll_recorded _ hm
  rw [hs f hf]
  exact Template.shape_eq_of_name_eq hc (List.mem_of_find?_eq_some hr) hv hn

end Matcher

/-! ## Passes -/

namespace Pass

variable {r : Rule} {t : Tree}

/-- **Replacing lacks a value** exactly if a binding lacks one for a placeholder of the after-template. -/
theorem substitute_unbound_iff {os : List Occurrence} (ho : overlap? os = none) :
    (∃ name, substitute r t os = .error (.invariant (.unbound name))) ↔
      ∃ o ∈ os, ∃ name ∈ r.templates.after.placeholderNames, o.site.binding.get? name = none := by
  unfold substitute
  rw [ho]
  constructor
  · rintro ⟨name, h⟩
    rcases Attempts.bind_eq_error.mp h with h | ⟨edits, _, h⟩
    · obtain ⟨o, hmem, hf⟩ := Attempts.mem_of_mapM_error h
      refine ⟨o, List.mem_reverse.mp hmem, ?_⟩
      exact instantiate_unbound_iff.mp ⟨name, Attempts.map_eq_error.mp hf⟩
    · split at h
      · exact absurd h (by simp)
      · exact absurd h (by simp)
  · rintro ⟨o, hmem, name, hn, hb⟩
    -- some occurrence fails first; all that any of them can lack is a value, since there is a root
    obtain ⟨missing, hi⟩ := instantiate_unbound_iff.mpr ⟨name, hn, hb⟩
    have hf : replacement r t o = .error (.invariant (.unbound missing)) :=
      Attempts.map_eq_error.mpr hi
    obtain ⟨p, hp⟩ := Attempts.mapM_error_of_mem (List.mem_reverse.mpr hmem) hf
    obtain ⟨o', _, hf'⟩ := Attempts.mem_of_mapM_error hp
    rcases instantiate_error (Attempts.map_eq_error.mp hf') with ⟨hr, -⟩ | ⟨first, rfl⟩
    · unfold Template.placeholderNames Template.placeholders at hn
      rw [hr] at hn
      exact absurd hn (by simp)
    · exact ⟨first, Attempts.bind_eq_error.mpr (Or.inl hp)⟩

/-- Reading again what a rule has made lacks no value. -/
theorem reread_ne_unbound {source name : String} {fault : InvariantFault}
    (hf : fault ≠ .unbound name) : reread source fault ≠ .error (.invariant (.unbound name)) := by
  unfold reread
  split
  · simp
  · simpa using hf

/-- Replacing lacks a value as a whole exactly if making the new text does. -/
theorem rewritten_unbound_iff {fixImports : Bool} {os : List Occurrence} {name : String} :
    rewritten fixImports r t os = .error (.invariant (.unbound name)) ↔
      substitute r t os = .error (.invariant (.unbound name)) := by
  unfold rewritten
  constructor
  · intro h
    rcases Attempts.bind_eq_error.mp h with h | ⟨source, _, h⟩
    · exact h
    · exfalso
      rcases Attempts.bind_eq_error.mp h with h | ⟨after, _, h⟩
      · exact reread_ne_unbound (by simp) h
      · cases fixImports with
        | false => exact absurd h (by simp)
        | true =>
            simp only [if_true] at h
            unfold withImports at h
            split at h
            · exact reread_ne_unbound (by simp) h
            · exact absurd h (by simp)
  · intro h
    exact Attempts.bind_eq_error.mpr (Or.inl h)

/-- **A pass over a tree lacks a value** exactly if it comes upon an occurrence whose binding lacks one. -/
theorem outcomeOf_unbound_iff {fixImports : Bool} :
    (∃ name, outcomeOf fixImports r t = .error (.invariant (.unbound name))) ↔
      ∃ o ∈ occurrences r t (.ofTree t), ∃ name ∈ r.templates.after.placeholderNames,
        o.site.binding.get? name = none := by
  rw [← substitute_unbound_iff (overlap?_occurrences r t (.ofTree t))]
  unfold outcomeOf
  by_cases he : (occurrences r t (.ofTree t)).isEmpty = true
  · rw [List.isEmpty_iff.mp he]
    simp [substitute, overlap?, Text.applyFromEnd, bind, Except.bind, pure, Except.pure]
  · simp only [he]
    constructor
    · rintro ⟨name, h⟩
      exact ⟨name, rewritten_unbound_iff.mp (Attempts.map_eq_error.mp h)⟩
    · rintro ⟨name, h⟩
      exact ⟨name, Attempts.map_eq_error.mpr (rewritten_unbound_iff.mpr h)⟩

end Pass

/-! ## Checked rules -/

namespace TemplateSet.Checked

variable {s : TemplateSet}

/-- A placeholder of the after-template is not the wildcard. -/
theorem ne_wildcard (hs : s.Checked) {name : String} (hn : name ∈ s.after.placeholderNames) :
    name ≠ Metavariable.wildcard := by
  obtain ⟨v, hv, rfl⟩ := List.mem_map.mp hn
  have hr := Template.placeholdersOfAll_recorded _ hv
  exact hs.named v (List.mem_of_find?_eq_some hr)

/-- **A match binds a metavariable of the after-template**, and in its shape, exactly if the
    before-template has a placeholder of that name. -/
theorem binds_iff (hs : s.Checked) {m : Matcher} (hm : m.template ∈ s.befores) {b : Binding}
    (hb : m.Returns b) {v : Metavariable} (hv : v ∈ s.after.metavariables) :
    (∃ x, b.get? v.name = some x ∧ x.shape = v.shape) ↔ v.name ∈ m.template.placeholderNames := by
  obtain ⟨source, hc⟩ := hs.befores m.template hm
  have hnames := Matcher.get?_isSome_iff_of_returns hc hb v.name
  constructor
  · rintro ⟨x, hx, -⟩
    exact (hnames.mp (by rw [hx]; rfl)).2
  · intro hn
    obtain ⟨x, hx⟩ := Option.isSome_iff_exists.mp (hnames.mpr ⟨hs.named v hv, hn⟩)
    obtain ⟨w, hw, hwn, hws⟩ := hs.recorded v hv m.template hm
    have hshape : x.shape = w.shape := Matcher.shape_eq_of_returns hc hb (hwn ▸ hx) hw
    exact ⟨x, hx, hshape.trans hws⟩

/-- A match lacks a value for a placeholder of the after-template exactly if the before-template has no
    placeholder of that name. -/
theorem lacks_iff (hs : s.Checked) {m : Matcher} (hm : m.template ∈ s.befores) {b : Binding}
    (hb : m.Returns b) {name : String} (hn : name ∈ s.after.placeholderNames) :
    b.get? name = none ↔ name ∉ m.template.placeholderNames := by
  obtain ⟨source, hc⟩ := hs.befores m.template hm
  rw [← Option.not_isSome_iff_eq_none, Matcher.get?_isSome_iff_of_returns hc hb name]
  simp [hs.ne_wildcard hn]

end TemplateSet.Checked

/-- **When a checked rule lacks a value.** A match of a before-template binds a metavariable of the
    after-template, in its shape, exactly if the before-template has a placeholder of that name; and a
    pass fails for the lack of a value exactly if it comes upon an occurrence whose before-template has
    no placeholder for a placeholder of the after-template. -/
theorem RuleDraft.unbound_iff_of_build {d : RuleDraft} {r : Rule} (h : d.build = .ok r) :
    (∀ m : Matcher, m.template ∈ r.templates.befores → ∀ b, m.Returns b →
      ∀ v ∈ r.templates.after.metavariables,
        ((∃ x, b.get? v.name = some x ∧ x.shape = v.shape) ↔
          v.name ∈ m.template.placeholderNames)) ∧
    (∀ fixImports source,
      (∃ name, Pass.apply fixImports r source = .error (.invariant (.unbound name))) ↔
        ∃ t, Java.parse? source = some t ∧ ∃ o ∈ Pass.occurrences r t (.ofTree t),
          ∃ name ∈ r.templates.after.placeholderNames, name ∉ o.before.placeholderNames) := by
  -- the checks compare recorded metavariables; matching and filling in know placeholders only
  have hs := RuleDraft.checked_of_build h
  refine ⟨fun m hm b hb v hv => hs.binds_iff hm hb hv, fun fixImports source => ?_⟩
  rw [Pass.apply_eq]
  unfold Pass.readJava
  cases Java.parse? source with
  | none => simp [bind, Except.bind]
  | some t =>
      simp only [bind, Except.bind]
      rw [Pass.outcomeOf_unbound_iff]
      constructor
      · rintro ⟨o, ho, name, hn, hb⟩
        obtain ⟨hm, hreturns, -⟩ := Pass.mem_occurrences ho
        exact ⟨t, rfl, o, ho, name, hn, (hs.lacks_iff hm hreturns hn).mp hb⟩
      · rintro ⟨t', ht, o, ho, name, hn, hp⟩
        obtain rfl : t = t' := Option.some.inj ht
        obtain ⟨hm, hreturns, -⟩ := Pass.mem_occurrences ho
        exact ⟨o, ho, name, hn, (hs.lacks_iff hm hreturns hn).mpr hp⟩

/-- A rule of a node and a run, on a text in which it has an occurrence. -/
theorem RuleDraft.unbound_iff_of_build_swap : ∃ (r : Rule) (m : Matcher) (b : Binding) (v : Metavariable),
    (RuleDraft.simple "Swap" "f($A, $$$R)" "g($$$R, $A)").build = .ok r ∧
    m.template ∈ r.templates.befores ∧ m.Returns b ∧ v ∈ r.templates.after.metavariables ∧
    ((∃ x, b.get? v.name = some x ∧ x.shape = v.shape) ↔ v.name ∈ m.template.placeholderNames) ∧
    ((∃ name, Pass.apply true r "f(a, b);" = .error (.invariant (.unbound name))) ↔
      ∃ t, Java.parse? "f(a, b);" = some t ∧ ∃ o ∈ Pass.occurrences r t (.ofTree t),
        ∃ name ∈ r.templates.after.placeholderNames, name ∉ o.before.placeholderNames) := by
  have h : ((RuleDraft.simple "Swap" "f($A, $$$R)" "g($$$R, $A)").build.toOption.any fun r =>
      (r.templates.befores.head?).any fun before => (r.templates.after.metavariables.head?).any fun _ =>
        (Java.parse? "f(a, b);").any fun t => (t.root.preorder[2]?).any fun n =>
          ((Matcher.mk before .empty).node? n).isSome) = true := by
    decide +kernel
  obtain ⟨r, hr, h⟩ := (Option.any_eq_true _ _).mp h
  obtain ⟨before, hbefore, h⟩ := (Option.any_eq_true _ _).mp h
  obtain ⟨v, hv, h⟩ := (Option.any_eq_true _ _).mp h
  obtain ⟨t, -, h⟩ := (Option.any_eq_true _ _).mp h
  obtain ⟨n, -, h⟩ := (Option.any_eq_true _ _).mp h
  obtain ⟨b, hb⟩ := Option.isSome_iff_exists.mp h
  have hbuild := Attempts.toOption_eq_some.mp hr
  have hmem := List.mem_of_head? hbefore
  have hvmem := List.mem_of_head? hv
  obtain ⟨hbinds, hpass⟩ := RuleDraft.unbound_iff_of_build hbuild
  exact ⟨r, ⟨before, .empty⟩, b, v, hbuild, hmem, Or.inl ⟨n, hb⟩, hvmem,
    hbinds ⟨before, .empty⟩ hmem b (Or.inl ⟨n, hb⟩) v hvmem, hpass true "f(a, b);"⟩

/-- A rule that is accepted although a metavariable stands in a comment of its before-template: a pass
    fails for the lack of its value. -/
theorem RuleDraft.unbound_of_metavariable_in_comment : ∃ r,
    (RuleDraft.simple "Gap" "f($A /* $B */)" "g($A, $B)").build = .ok r ∧
      Pass.apply true r "class T { void t(int a) { f(a); } }"
        = .error (.invariant (.unbound "B")) := by
  have h : ((RuleDraft.simple "Gap" "f($A /* $B */)" "g($A, $B)").build.toOption.any fun r =>
      match Pass.apply true r "class T { void t(int a) { f(a); } }" with
      | .error p => p = .invariant (.unbound "B")
      | .ok _ => false) = true := by
    decide +kernel
  obtain ⟨r, hr, h⟩ := (Option.any_eq_true _ _).mp h
  refine ⟨r, Attempts.toOption_eq_some.mp hr, ?_⟩
  cases ha : Pass.apply true r "class T { void t(int a) { f(a); } }" with
  | error p => rw [ha] at h; rw [of_decide_eq_true h]
  | ok o => rw [ha] at h; exact absurd h (by simp)

end JavaRefactor

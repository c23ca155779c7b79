import JavaRefactor.Pass.Basic
import JavaRefactor.Proofs.Attempts
import JavaRefactor.Proofs.Java.Nested
import JavaRefactor.Proofs.Match.Coverage
import JavaRefactor.Proofs.Pass.Occurrences

/-!
# `Proofs.Pass.Maximal` — which matches a pass leaves behind

The search for one before-template leaves no match behind but runs that start with a bare token. Its sites are
thrown away where they overlap an occurrence of a template in front, though, and what is below a site has not
been searched. So any other match that no occurrence meets has met such a site. There are such matches:
`occurrences_not_maximal`.

## Contents
- **Keeping apart.** `kept_or_overlapped`: an occurrence is kept, or overlaps one that was kept earlier.
- **One template.** `occurrence_or_overlapped`: what becomes of its sites.
- **`occurrences_maximal`**, and `occurrences_not_maximal`.
-/

namespace JavaRefactor.Pass

open Syntax (Node Tree spanOf)
open JavaRefactor.Types (Oracle)

/-! ## Keeping apart -/

/-- What has been kept stays. -/
theorem mem_foldl_keepApart_of_mem {os kept : List Occurrence} {o : Occurrence} (h : o ∈ kept) :
    o ∈ os.foldl keepApart kept := by
  induction os generalizing kept with
  | nil => exact h
  | cons x xs ih =>
      refine ih ?_
      unfold keepApart
      split
      · exact h
      · exact List.mem_append_left _ h

/-- **An occurrence is kept**, or overlaps one of those in front of it that are. -/
theorem kept_or_overlapped (front back : List Occurrence) (o : Occurrence) :
    o ∈ (front ++ o :: back).foldl keepApart [] ∨
    ∃ o' ∈ (front ++ o :: back).foldl keepApart [], o' ∈ front ∧ o'.span.overlaps o.span = true := by
  rw [List.foldl_append, List.foldl_cons]
  unfold keepApart
  split
  · rename_i hany
    obtain ⟨o', ho', hoverlap⟩ := List.any_eq_true.mp hany
    have hfront : o' ∈ front := by
      rcases mem_foldl_keepApart ho' with hnil | hfront
      · exact absurd hnil (by simp)
      · exact hfront
    exact Or.inr ⟨o', mem_foldl_keepApart_of_mem ho', hfront, hoverlap⟩
  · exact Or.inl (mem_foldl_keepApart_of_mem (by simp))

/-! ## One template -/

variable {r : Rule} {t : Tree} {types : Oracle} {before : Template} {front back : List Template}

/-- No two occurrences of one template overlap. -/
theorem pairwise_occurrencesOf (h : t.root.Nested) :
    (occurrencesOf r t.root types before).Pairwise Apart := by
  have hsites : ((Matcher.mk before (.ofOracle types)).sitesWhere (r.accepts types) t.root).Pairwise
      fun a b => a.span.overlaps b.span = false :=
    List.pairwise_map.mp (Matcher.pairwise_sitesWhere h)
  exact List.pairwise_map.mpr hsites

/-- **What was found for a template** is kept, or overlaps an occurrence of a template in front. -/
theorem occurrence_or_overlapped (h : t.root.Nested) (hb : r.templates.befores = front ++ before :: back)
    {o : Occurrence} (ho : o ∈ occurrencesOf r t.root types before) :
    o ∈ occurrences r t types ∨
    ∃ o' ∈ occurrences r t types, o'.before ∈ front ∧ o'.span.overlaps o.span = true := by
  obtain ⟨own, own', hown⟩ := List.append_of_mem ho
  -- all occurrences that are found, with `o` in their midst
  have hfound : r.templates.befores.flatMap (occurrencesOf r t.root types) =
      (front.flatMap (occurrencesOf r t.root types) ++ own) ++
        o :: (own' ++ back.flatMap (occurrencesOf r t.root types)) := by
    rw [hb, List.flatMap_append, List.flatMap_cons, hown]
    simp
  unfold occurrences
  simp only [mem_sortBy]
  rw [hfound]
  rcases kept_or_overlapped _ _ o with hkept | ⟨o', ho', hearlier, hoverlap⟩
  · exact Or.inl hkept
  · refine Or.inr ⟨o', ho', ?_, hoverlap⟩
    rcases List.mem_append.mp hearlier with hfront | hsame
    · obtain ⟨template, htemplate, hmem⟩ := List.mem_flatMap.mp hfront
      obtain ⟨s, -, rfl⟩ := List.mem_map.mp hmem
      exact htemplate
    · -- two occurrences of the template do not overlap
      have hpairwise : (occurrencesOf r t.root types before).Pairwise Apart :=
        pairwise_occurrencesOf h
      rw [hown] at hpairwise
      have hapart : o'.span.overlaps o.span = false :=
        (List.pairwise_append.mp hpairwise).2.2 o' hsame o (List.mem_cons_self ..)
      rw [hapart] at hoverlap
      exact absurd hoverlap (by simp)

/-! ## Maximality -/

/-- **What a pass leaves behind.** A match of a before-template meets an occurrence or, failing that, a site of
    the template that was thrown away for an occurrence of a template in front of it; or it is of a run that
    starts with a bare token. So of the first template only such runs are left. -/
theorem occurrences_maximal {r : Rule} {source : String} {t : Tree} {before : Template}
    {front back : List Template} {xs : List Node} (h : Java.parse? source = some t)
    (hb : r.templates.befores = front ++ before :: back)
    (hm : (Matcher.mk before (.ofOracle (.ofTree t))).MatchOf (r.accepts (.ofTree t)) t.root xs) :
    (∃ o ∈ occurrences r t (.ofTree t), o.span.Meets (spanOf xs)) ∨
    (∃ s ∈ (Matcher.mk before (.ofOracle (.ofTree t))).sitesWhere (r.accepts (.ofTree t)) t.root,
      s.span.Meets (spanOf xs) ∧
      ∃ o ∈ occurrences r t (.ofTree t), o.before ∈ front ∧ o.span.overlaps s.span = true) ∨
    (Matcher.mk before (.ofOracle (.ofTree t))).StartsBare xs := by
  by_cases hbare : (Matcher.mk before (.ofOracle (.ofTree t))).StartsBare xs
  · exact Or.inr (Or.inr hbare)
  · obtain ⟨-, ls, nodes, hspelled⟩ := Java.spelled_of_parse? h
    have hnested : t.root.Nested := hspelled.nested
    obtain ⟨s, hs, hmeets⟩ := Matcher.exists_site_of_matchOf hnested hm hbare
    have ho : ⟨before, s⟩ ∈ occurrencesOf r t.root (.ofTree t) before := List.mem_map_of_mem hs
    rcases occurrence_or_overlapped hnested hb ho with hkept | hover
    · exact Or.inl ⟨_, hkept, hmeets⟩
    · exact Or.inr (Or.inl ⟨s, hs, hmeets, hover⟩)

/-- Two calls in a row, and one call by itself. -/
def stepsDraft : RuleDraft :=
  ⟨"Steps", none, ["a($X); b($Y);", "f($Z);"], some "h();", [], [], []⟩

/-- Two statements that are a match of the first template. -/
theorem occurrences_maximal_statements : ∃ r t run others xs, stepsDraft.build = .ok r ∧
    Java.parse? "f(0); a(1); b(2);" = some t ∧ r.templates.befores = run :: others ∧
    xs = (t.root.children.drop 1).take 2 ∧
    (Matcher.mk run (.ofOracle (.ofTree t))).MatchOf (r.accepts (.ofTree t)) t.root xs ∧
    ∃ o ∈ occurrences r t (.ofTree t), o.span.Meets (spanOf xs) := by
  have h : (stepsDraft.build.toOption.any fun r =>
      (Java.parse? "f(0); a(1); b(2);").any fun t => r.templates.befores.head?.any fun run =>
        run.isRun && ((Matcher.mk run (.ofOracle (.ofTree t))).window? (r.accepts (.ofTree t))
          ((t.root.children.drop 1).take 2)).isSome &&
        ((t.root.children.drop 1).take 2).head?.any Node.isNamed) = true := by
    decide +kernel
  obtain ⟨r, hr, h⟩ := (Option.any_eq_true _ _).mp h
  obtain ⟨t, ht, h⟩ := (Option.any_eq_true _ _).mp h
  obtain ⟨run, hhead, h⟩ := (Option.any_eq_true _ _).mp h
  obtain ⟨h, hnamed⟩ := (Bool.and_eq_true _ _).mp h
  obtain ⟨hrun, hw⟩ := (Bool.and_eq_true _ _).mp h
  obtain ⟨s, hw⟩ := Option.isSome_iff_exists.mp hw
  obtain ⟨c, hfirst, hc⟩ := (Option.any_eq_true _ _).mp hnamed
  obtain ⟨others, hb⟩ := List.head?_eq_some_iff.mp hhead
  have hxs : t.root.HasRun ((t.root.children.drop 1).take 2) := by
    refine ⟨t.root, Node.mem_listing_self _, ?_, ?_⟩
    · exact (List.take_prefix 2 _).isInfix.trans (List.drop_suffix 1 _).isInfix
    · intro hnil
      rw [hnil] at hfirst
      exact absurd hfirst (by simp)
  have hm : (Matcher.mk run (.ofOracle (.ofTree t))).MatchOf (r.accepts (.ofTree t)) t.root
      ((t.root.children.drop 1).take 2) := .run hrun hxs hw
  have hfront : r.templates.befores = [] ++ run :: others := hb
  refine ⟨r, t, run, others, _, Attempts.toOption_eq_some.mp hr, ht, hb, rfl, hm, ?_⟩
  rcases occurrences_maximal ht hfront hm with hmeets | ⟨_, _, _, _, _, hnone, _⟩ | ⟨-, c', hfirst', hbare⟩
  · exact hmeets
  · exact absurd hnone (by simp)
  · rw [hfirst] at hfirst'
    rw [← Option.some.inj hfirst', hc] at hbare
    exact absurd hbare (by simp)

/-- Calls of `f` and of `g`, the latter with two arguments. -/
def callsDraft : RuleDraft := ⟨"Calls", none, ["f($X)", "g($A, $B)"], some "h()", [], [], []⟩

/-- **A match that is left behind.** The inner call of `g` is a match that shares no byte with the only
    occurrence. -/
theorem occurrences_not_maximal : ∃ r t before n, callsDraft.build = .ok r ∧
    Java.parse? "class T { int t() { return g(f(1), g(2, 3)); } }" = some t ∧
    before ∈ r.templates.befores ∧ Text.slice t.source n.span = "g(2, 3)" ∧
    (Matcher.mk before (.ofOracle (.ofTree t))).MatchOf (r.accepts (.ofTree t)) t.root [n] ∧
    (∀ o ∈ occurrences r t (.ofTree t), ¬ o.span.Meets (spanOf [n])) ∧
    apply true r "class T { int t() { return g(f(1), g(2, 3)); } }" =
      .ok ⟨"class T { int t() { return g(h(), g(2, 3)); } }", 1⟩ := by
  have h : (callsDraft.build.toOption.any fun r =>
      (Java.parse? "class T { int t() { return g(f(1), g(2, 3)); } }").any fun t =>
        (apply true r "class T { int t() { return g(f(1), g(2, 3)); } }").toOption ==
          some ⟨"class T { int t() { return g(h(), g(2, 3)); } }", 1⟩ &&
        r.templates.befores.any fun before => !before.isRun && t.root.listing.any fun n =>
          ((Matcher.mk before (.ofOracle (.ofTree t))).accepted? (r.accepts (.ofTree t)) n).isSome &&
          Text.slice t.source n.span == "g(2, 3)" &&
          decide (∀ o ∈ occurrences r t (.ofTree t), ¬ o.span.Meets (spanOf [n]))) = true := by
    decide +kernel
  obtain ⟨r, hr, h⟩ := (Option.any_eq_true _ _).mp h
  obtain ⟨t, ht, h⟩ := (Option.any_eq_true _ _).mp h
  obtain ⟨hout, h⟩ := (Bool.and_eq_true _ _).mp h
  obtain ⟨before, hb, h⟩ := List.any_eq_true.mp h
  obtain ⟨hrun, h⟩ := (Bool.and_eq_true _ _).mp h
  obtain ⟨n, hn, h⟩ := List.any_eq_true.mp h
  obtain ⟨h, hapart⟩ := (Bool.and_eq_true _ _).mp h
  obtain ⟨haccepted, htext⟩ := (Bool.and_eq_true _ _).mp h
  obtain ⟨b, haccepted⟩ := Option.isSome_iff_exists.mp haccepted
  have hm : (Matcher.mk before (.ofOracle (.ofTree t))).MatchOf (r.accepts (.ofTree t)) t.root [n] :=
    .node (by simpa using hrun) hn haccepted
  exact ⟨r, t, before, n, Attempts.toOption_eq_some.mp hr, ht, hb, by simpa using htext, hm,
    of_decide_eq_true hapart, Attempts.toOption_eq_some.mp (by simpa using hout)⟩

end JavaRefactor.Pass

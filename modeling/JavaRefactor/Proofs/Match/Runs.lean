import JavaRefactor.Proofs.Attempts
import JavaRefactor.Proofs.Java.Nested
import JavaRefactor.Proofs.Match.Coverage

/-!
# `Proofs.Match.Runs` — the sites of a template for a run of siblings

A list of children is searched from the left. At each child the shortest run that matches is taken, and the search
goes on behind it; a child where no run starts is searched itself.

## Contents
- **`AcceptsRun`**, an accepted match of exactly some siblings, and `window?_eq_some_iff`.
- **`not_acceptsRun_of_prefix`**: no part of the shortest run at a child is an accepted match that starts there.
- **`behind_of_sitesWhere`**: each site ends before the next one starts.
- **`runs_found`**, the search as a whole.
-/

namespace JavaRefactor

open Syntax (Node spanOf)
open Text (InOrder)

namespace Matcher

variable {m : Matcher} {accept : Binding → Bool}

/-- The template matches exactly these siblings, with a binding that is accepted. -/
def AcceptsRun (m : Matcher) (accept : Binding → Bool) (xs : List Node) : Prop :=
  ∃ b, m.run? xs = some b ∧ accept b = true

theorem window?_eq_some_iff {xs : List Node} {s : Site} (hrun : m.template.isRun = true) :
    m.window? accept xs = some s ↔
      m.run? xs = some s.binding ∧ accept s.binding = true ∧ s.span = spanOf xs := by
  unfold run?
  rw [if_pos hrun]
  constructor
  · exact siblings?_of_window?
  · rintro ⟨hb, ha, hspan⟩
    unfold window?
    rw [hb, ← hspan]
    exact if_pos ha

theorem window?_ne_none_iff {xs : List Node} (hrun : m.template.isRun = true) :
    m.window? accept xs ≠ none ↔ m.AcceptsRun accept xs := by
  constructor
  · intro h
    obtain ⟨s, hs⟩ := Option.ne_none_iff_exists'.mp h
    obtain ⟨hb, ha, -⟩ := (window?_eq_some_iff hrun).mp hs
    exact ⟨s.binding, hb, ha⟩
  · rintro ⟨b, hb, ha⟩
    have hs : m.window? accept xs = some ⟨spanOf xs, b⟩ := (window?_eq_some_iff hrun).mpr ⟨hb, ha, rfl⟩
    rw [hs]
    simp

variable {root : Node} {s : Site}

/-- Of the runs at one child that match, the search takes the shortest. -/
theorem not_acceptsRun_of_prefix {ns ys : List Node} {k : Nat} (hrun : m.template.isRun = true)
    (h : m.shortestRun? accept ns = some (k, s)) (hpre : ys <+: ns.take k) (hne : ys ≠ [])
    (hshorter : ys ≠ ns.take k) : ¬ m.AcceptsRun accept ys := by
  obtain ⟨-, -, -, hnone⟩ := shortestRun?_eq_some h
  have hys : ys = ns.take ys.length :=
    List.prefix_iff_eq_take.mp (hpre.trans (List.take_prefix k ns))
  have hpos : 0 < ys.length := List.length_pos_iff.mpr hne
  have hlength : ys.length < k := by
    have hle : ys.length ≤ (ns.take k).length := hpre.length_le
    have hlt : ys.length < (ns.take k).length :=
      Nat.lt_of_le_of_ne hle (mt hpre.eq_of_length hshorter)
    exact Nat.lt_of_lt_of_le hlt (List.length_take_le k ns)
  intro hacc
  have hwindow := (window?_ne_none_iff hrun).mpr hacc
  rw [hys] at hwindow
  exact hwindow (hnone ys.length hpos hlength)

/-- A site is the shortest run at a child that is a construct. -/
theorem shortest_of_mem_sitesWhere (hrun : m.template.isRun = true) (hs : s ∈ m.sitesWhere accept root) :
    ∃ c xs, root.HasRun (c :: xs) ∧ c.isNamed = true ∧ m.run? (c :: xs) = some s.binding ∧
      accept s.binding = true ∧ s.span = spanOf (c :: xs) ∧
      ∀ ys, ys <+: c :: xs → ys ≠ [] → ys ≠ c :: xs → ¬ m.AcceptsRun accept ys := by
  unfold sitesWhere at hs
  rw [if_pos hrun] at hs
  obtain ⟨p, hp, rest, k, hrest, hshortest⟩ := mem_sitesInChildren hs
  obtain ⟨⟨c, cs, rfl, hc⟩, hpos, hw, -⟩ := shortestRun?_eq_some hshortest
  obtain ⟨hb, ha, hspan⟩ := (window?_eq_some_iff hrun).mp hw
  obtain ⟨k, rfl⟩ : ∃ k', k = k' + 1 := ⟨k - 1, by omega⟩
  have hpart : c :: cs.take k <:+: p.children :=
    (List.take_prefix (k + 1) (c :: cs)).isInfix.trans hrest.isInfix
  refine ⟨c, cs.take k, ⟨p, hp, hpart, by simp⟩, hc, hb, ha, hspan, ?_⟩
  intro ys hpre hne hshorter
  exact not_acceptsRun_of_prefix hrun hshortest hpre hne hshorter

/-- The sites stand one behind the other. -/
theorem behind_of_sitesWhere (hrun : m.template.isRun = true) (h : root.Nested) :
    (m.sitesWhere accept root).Pairwise fun s t => s.span.stop ≤ t.span.start := by
  have horder : InOrder root.span.start ((m.sitesWhere accept root).map Site.span) root.span.stop := by
    unfold sitesWhere
    rw [if_pos hrun]
    exact sitesInChildren_inOrder h
  exact List.pairwise_map.mp horder.pairwise_behind

/-- **The search for runs.** For a template that is a run of siblings the sites stand one behind the other. Each is
    a run of neighbouring children of one node that starts with a construct, and no shorter run that starts there is an
    accepted match. And no accepted match that starts with a construct is missed: it shares a byte with a site. -/
theorem runs_found (m : Matcher) (accept : Binding → Bool) (root : Node)
    (hrun : m.template.isRun = true) (h : root.Nested) :
    ((m.sitesWhere accept root).Pairwise fun s t => s.span.stop ≤ t.span.start) ∧
    (∀ s ∈ m.sitesWhere accept root, ∃ c xs, root.HasRun (c :: xs) ∧ c.isNamed = true ∧
      m.run? (c :: xs) = some s.binding ∧ accept s.binding = true ∧ s.span = spanOf (c :: xs) ∧
      ∀ ys, ys <+: c :: xs → ys ≠ [] → ys ≠ c :: xs → ¬ m.AcceptsRun accept ys) ∧
    ∀ c xs, root.HasRun (c :: xs) → c.isNamed = true → m.AcceptsRun accept (c :: xs) →
      ∃ s ∈ m.sitesWhere accept root, s.span.overlaps (spanOf (c :: xs)) = true := by
  refine ⟨behind_of_sitesWhere hrun h, ?_, ?_⟩
  · intro s hs
    exact shortest_of_mem_sitesWhere hrun hs
  · rintro c xs hxs hc ⟨b, hb, ha⟩
    have hw : m.window? accept (c :: xs) = some ⟨spanOf (c :: xs), b⟩ :=
      (window?_eq_some_iff hrun).mpr ⟨hb, ha, rfl⟩
    unfold sitesWhere
    rw [if_pos hrun]
    exact exists_site_of_run h hxs hc hw

/-- Statements between two calls, which must not be a single one: the run goes on to the next call that ends it. -/
theorem runs_found_longer : ∃ t tree, Template.compile "a(); $$$S; b();" [] = .ok t ∧ t.isRun = true ∧
    Java.parse? "a(); c(); b(); b(); a(); b();" = some tree ∧ tree.root.Nested ∧
    (let m : Matcher := ⟨t, .empty⟩
     let several : Binding → Bool := fun b => (b.get? "S").any fun v => v.nodes.length != 1
     (m.sites tree.root).map Site.span = [⟨0, 14⟩, ⟨20, 29⟩] ∧
     (m.sitesWhere several tree.root).map Site.span = [⟨0, 19⟩, ⟨20, 29⟩] ∧
     ((m.sitesWhere several tree.root).Pairwise fun s t => s.span.stop ≤ t.span.start) ∧
     ∀ s ∈ m.sitesWhere several tree.root, ∃ c xs, tree.root.HasRun (c :: xs) ∧
       s.span = spanOf (c :: xs) ∧
       ∀ ys, ys <+: c :: xs → ys ≠ [] → ys ≠ c :: xs → ¬ m.AcceptsRun several ys) := by
  have h : ((Template.compile "a(); $$$S; b();" []).toOption.any fun t =>
      (Java.parse? "a(); c(); b(); b(); a(); b();").any fun tree => t.isRun &&
        decide (((Matcher.mk t .empty).sites tree.root).map Site.span = [⟨0, 14⟩, ⟨20, 29⟩]) &&
        decide (((Matcher.mk t .empty).sitesWhere
          (fun b => (b.get? "S").any fun v => v.nodes.length != 1) tree.root).map Site.span =
            [⟨0, 19⟩, ⟨20, 29⟩])) = true := by
    decide +kernel
  obtain ⟨t, ht, h⟩ := (Option.any_eq_true _ _).mp h
  obtain ⟨tree, htree, h⟩ := (Option.any_eq_true _ _).mp h
  obtain ⟨h, hseveral⟩ := (Bool.and_eq_true _ _).mp h
  obtain ⟨hrun, hall⟩ := (Bool.and_eq_true _ _).mp h
  obtain ⟨-, ls, nodes, hspelled⟩ := Java.spelled_of_parse? htree
  have hnested : tree.root.Nested := hspelled.nested
  have hfound := runs_found ⟨t, .empty⟩
    (fun b => (b.get? "S").any fun v => v.nodes.length != 1) tree.root hrun hnested
  refine ⟨t, tree, Attempts.toOption_eq_some.mp ht, hrun, htree, hnested, of_decide_eq_true hall,
    of_decide_eq_true hseveral, hfound.1, ?_⟩
  intro s hs
  obtain ⟨c, xs, hxs, -, -, -, hspan, hshortest⟩ := hfound.2.1 s hs
  exact ⟨c, xs, hxs, hspan, hshortest⟩

end Matcher

end JavaRefactor

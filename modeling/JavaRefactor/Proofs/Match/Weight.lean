import JavaRefactor.Proofs.Java.Nested
import JavaRefactor.Proofs.Match.Soundness
import JavaRefactor.Proofs.Pass.Frame
import JavaRefactor.Proofs.Text.Weight

/-!
# `Proofs.Match.Weight` — a site is as heavy as the template and what is bound, at least

A template node that lies over a candidate shares the candidate's text with the values that its placeholders face: each
token of the template is a token of the candidate, and what a placeholder faces takes the rest. Comments and blanks
between them only make the candidate heavier.

## Contents
- **`bareWeight`**, of lexemes, and `Spelled.spanWeight_extent`.
- **`Template.ownWeight`**, of the tokens of a template.
- **`Overlay.weight_le`**, by recursion on the overlay, and **`exists_facings_of_site`**.
-/

namespace JavaRefactor

open Java (Lexeme Covers CoversAll Spelled extent)
open Java.Lexeme (spelling)
open Syntax (Node Tree spanOf)
open Text (Span weight spanWeight)

variable {w : Char → Nat}

/-! ## Lexemes -/

namespace Java

/-- What lexemes weigh without the trivia in front of the first one. -/
def bareWeight (w : Char → Nat) : List Lexeme → Nat
  | [] => 0
  | l :: ls => weight w (l.text.toList ++ spelling ls)

theorem bareWeight_le (ls : List Lexeme) : bareWeight w ls ≤ weight w (spelling ls) := by
  cases ls with
  | nil => exact Nat.le_refl _
  | cons l ls =>
      rw [bareWeight, Lexeme.spelling_cons]
      simp only [Text.weight_append]
      omega

/-- Of two parts, the second one has trivia in front that counts for the whole only. -/
theorem bareWeight_append_le (ls ms : List Lexeme) :
    bareWeight w ls + bareWeight w ms ≤ bareWeight w (ls ++ ms) := by
  cases ls with
  | nil => simp [bareWeight]
  | cons l ls =>
      have hms := bareWeight_le (w := w) ms
      rw [List.cons_append, bareWeight, bareWeight, Lexeme.spelling_append]
      simp only [Text.weight_append]
      omega

variable {t : Tree} {ls part : List Lexeme} {nodes : List Node}

/-- **What some lexemes of a text cover** weighs as much as they do. -/
theorem Spelled.spanWeight_extent (h : Spelled t ls nodes) (hpart : part <:+: ls) (hne : part ≠ []) :
    spanWeight w t.source (extent part) = bareWeight w part := by
  obtain ⟨l, part, rfl⟩ := List.exists_cons_of_ne_nil hne
  rw [Text.spanWeight_of_cuts (h.cuts_extent hpart)]
  rfl

theorem Spelled.spanWeight_of_covers (h : Spelled t ls nodes) {n : Node} (hn : Covers part n)
    (hpart : part <:+: ls) : spanWeight w t.source n.span = bareWeight w part := by
  obtain ⟨l, part, rfl⟩ := hn.exists_cons
  rw [hn.span_eq, h.spanWeight_extent hpart (by simp)]

/-- What is below a node is no heavier than the node. -/
theorem Spelled.spanWeight_le_of_mem_listing (h : Spelled t ls nodes) {n k : Node}
    (hn : n ∈ t.root.listing) (hk : k ∈ n.listing) :
    spanWeight w t.source k.span ≤ spanWeight w t.source n.span := by
  obtain ⟨middle, hcuts, -⟩ := h.cuts_of_mem_listing (Node.mem_listing_trans hn hk)
  obtain ⟨middle', hcuts', -⟩ := h.cuts_of_mem_listing hn
  have hinside := ((h.nested.of_mem_listing hn).1.of_mem_listing hk).2.1
  exact Text.spanWeight_le_of_inside hcuts hcuts' hinside

end Java

/-! ## Templates -/

namespace Template

mutual

/-- What the tokens of a template node weigh that are no part of a placeholder. -/
def nodeWeight (w : Char → Nat) (t : Template) : Node → Nat
  | .leaf l tr x =>
    match t.metavariableAt? (.leaf l tr x) with
    | some _ => 0
    | none => weight w x.toList
  | .branch l ps =>
    match t.metavariableAt? (.branch l ps) with
    | some _ => 0
    | none => nodesWeight w t ps

/-- What those of several template nodes weigh. -/
def nodesWeight (w : Char → Nat) (t : Template) : List Node → Nat
  | [] => 0
  | p :: ps => nodeWeight w t p + nodesWeight w t ps

end

/-- What the tokens of a template weigh that are no part of a placeholder. -/
def ownWeight (w : Char → Nat) (t : Template) : Nat :=
  match t.root? with
  | some root => nodeWeight w t root
  | none => nodesWeight w t t.roots

theorem nodeWeight_of_some {t : Template} {p : Node} {v : Metavariable}
    (h : t.metavariableAt? p = some v) : nodeWeight w t p = 0 := by
  cases p with
  | leaf l tr x => rw [nodeWeight, h]
  | branch l ps => rw [nodeWeight, h]

end Template

/-! ## Overlays -/

/-- What the value that a placeholder faces weighs in a text. -/
def Facing.weight (w : Char → Nat) (source : String) (f : Facing) : Nat :=
  spanWeight w source f.value.span

/-- What the values that placeholders face weigh together. -/
def facedWeight (w : Char → Nat) (source : String) (fs : List Facing) : Nat :=
  (fs.map (Facing.weight w source)).sum

theorem facedWeight_cons (source : String) (v : Metavariable) (x : Bound) (fs : List Facing) :
    facedWeight w source (⟨v, x⟩ :: fs) = spanWeight w source x.span + facedWeight w source fs := rfl

theorem facedWeight_append (source : String) (fs gs : List Facing) :
    facedWeight w source (fs ++ gs) = facedWeight w source fs + facedWeight w source gs := by
  unfold facedWeight
  rw [List.map_append, List.sum_append]

section Overlays

variable {t : Template} {tree : Tree} {ls : List Lexeme} {nodes : List Node}

/-- A run of siblings weighs what their lexemes do; an empty one weighs nothing. -/
theorem spanWeight_of_run (h : Spelled tree ls nodes) {xs : List Node} (anchor : Nat)
    {part : List Lexeme} (hxs : CoversAll part xs) (hpart : part <:+: ls) :
    spanWeight w tree.source (Bound.run xs anchor).span ≤ Java.bareWeight w part := by
  cases xs with
  | nil =>
      have hnone : spanWeight w tree.source (Bound.run [] anchor).span = 0 :=
        Text.spanWeight_self tree.source anchor
      rw [hnone]
      exact Nat.zero_le _
  | cons x xs =>
      have hne : part ≠ [] := by
        rintro rfl
        exact absurd hxs.eq_nil (by simp)
      have hspan : (Bound.run (x :: xs) anchor).span = extent part := hxs.spanOf_eq
      rw [hspan]
      exact Nat.le_of_eq (h.spanWeight_extent hpart hne)

mutual

/-- **The tokens of a template node and what its placeholders face** weigh no more than the candidate. -/
theorem Overlay.weight_le (h : Spelled tree ls nodes) {p n : Node} {fs : List Facing}
    {part : List Lexeme} : Overlay t p n fs → Covers part n → part <:+: ls →
    Template.nodeWeight w t p + facedWeight w tree.source fs ≤ Java.bareWeight w part
  | .single hv _, hn, hpart => by
      rw [Template.nodeWeight_of_some hv, ← h.spanWeight_of_covers hn hpart]
      simp [facedWeight, Facing.weight, Bound.span]
  | .alone hv _, hn, hpart => by
      rw [Template.nodeWeight_of_some hv, ← h.spanWeight_of_covers hn hpart]
      simp [facedWeight, Facing.weight, Bound.span, spanOf]
  | .leaf hv _, hn, hpart => by
      cases hn with
      | leaf htext =>
          rw [Template.nodeWeight, hv, htext]
          exact Nat.le_refl _
  | .branch hv _ hc, hn, hpart => by
      cases hn with
      | branch hns =>
          rw [Template.nodeWeight, hv]
          exact hc.weight_le h hns hpart

theorem OverlayAll.weight_le (h : Spelled tree ls nodes) {ps ns : List Node} {fs : List Facing}
    {part : List Lexeme} : OverlayAll t ps ns fs → CoversAll part ns → part <:+: ls →
    Template.nodesWeight w t ps + facedWeight w tree.source fs ≤ Java.bareWeight w part
  | .nil, _, _ => Nat.zero_le _
  | @OverlayAll.run _ _ _ _ _ _ anchor _ hv _ hr, hns, hpart => by
      obtain ⟨front, rest, rfl, hfront, hrest⟩ := hns.append_inv
      have hrun := spanWeight_of_run (w := w) h anchor hfront
        ((List.prefix_append front rest).isInfix.trans hpart)
      have htail := hr.weight_le h hrest ((List.suffix_append front rest).isInfix.trans hpart)
      have hparts := Java.bareWeight_append_le (w := w) front rest
      rw [Template.nodesWeight, Template.nodeWeight_of_some hv, facedWeight_cons]
      omega
  | .node _ hn hr, hns, hpart => by
      cases hns with
      | @cons front rest _ _ hc hcs =>
          have hhead := hn.weight_le h hc ((List.prefix_append front rest).isInfix.trans hpart)
          have htail := hr.weight_le h hcs ((List.suffix_append front rest).isInfix.trans hpart)
          have hparts := Java.bareWeight_append_le (w := w) front rest
          rw [Template.nodesWeight, facedWeight_append]
          omega

end

/-- The root is no heavier than what lies over it either. -/
theorem Overlay.weight_le_root (h : Spelled tree ls nodes) {p n : Node} {fs : List Facing}
    (hn : n = tree.root) : Overlay t p n fs →
    Template.nodeWeight w t p + facedWeight w tree.source fs ≤ spanWeight w tree.source n.span
  | .single hv _ => by
      rw [Template.nodeWeight_of_some hv]
      simp [facedWeight, Facing.weight, Bound.span]
  | .alone hv _ => by
      rw [Template.nodeWeight_of_some hv]
      simp [facedWeight, Facing.weight, Bound.span, spanOf]
  | .leaf _ _ => by
      rw [h.root] at hn
      exact absurd hn (by simp [Java.rootOf])
  | .branch hv _ hc => by
      have hspan := h.cuts_root
      rw [← hn] at hspan
      rw [h.root] at hn
      obtain ⟨-, rfl⟩ := Node.branch.inj hn
      have hbelow := hc.weight_le (w := w) h h.covers List.infix_rfl
      have hbare := Java.bareWeight_le (w := w) ls
      have hwhole : weight w (spelling ls) ≤ weight w tree.source.toList := by
        rw [← h.text, Text.weight_append]
        exact Nat.le_add_right _ _
      rw [Template.nodeWeight, hv, Text.spanWeight_of_cuts hspan]
      simp only
      omega

/-- The same of any candidate in a tree. -/
theorem Overlay.weight_le_span (h : Spelled tree ls nodes) {p n : Node} {fs : List Facing}
    (ho : Overlay t p n fs) (hn : n ∈ tree.root.listing) :
    Template.nodeWeight w t p + facedWeight w tree.source fs ≤ spanWeight w tree.source n.span := by
  rcases h.root_or_covers hn with hroot | ⟨part, hpart, hcovers⟩
  · exact ho.weight_le_root h hroot
  · rw [h.spanWeight_of_covers hcovers hpart]
    exact ho.weight_le h hcovers hpart

/-- Neighbouring children of a node are no heavier than what lies over them. -/
theorem OverlayAll.weight_le_span (h : Spelled tree ls nodes) {ps xs : List Node} {fs : List Facing}
    (ho : OverlayAll t ps xs fs) (hxs : tree.root.HasRun xs) :
    Template.nodesWeight w t ps + facedWeight w tree.source fs ≤
      spanWeight w tree.source (spanOf xs) := by
  obtain ⟨part, hpart, hne, hcovers⟩ := h.coversAll_of_hasRun hxs
  rw [hcovers.spanOf_eq, h.spanWeight_extent hpart hne]
  exact ho.weight_le h hcovers hpart

/-- **A site** is as heavy, at least, as the template's own tokens and what its placeholders face, which are nodes of
    the tree; and each value that is bound is faced. -/
theorem exists_facings_of_site (h : Spelled tree ls nodes) {m : Matcher} {accept : Binding → Bool}
    {s : Site} (hs : s ∈ m.sitesWhere accept tree.root) :
    ∃ fs, (∀ name x, s.binding.get? name = some x → ∃ f ∈ fs, f.name = name ∧ f.value = x) ∧
      (∀ f ∈ fs, ∀ k ∈ f.value.nodes, k ∈ tree.root.listing) ∧
      m.template.ownWeight w + facedWeight w tree.source fs ≤ spanWeight w tree.source s.span := by
  rcases Matcher.origin_of_mem_sitesWhere hs with ⟨n, hn, hacc, hspan⟩ | ⟨hrun, xs, hxs, hw⟩
  · obtain ⟨hb, -⟩ := Matcher.node?_of_accepted? hacc
    obtain ⟨root, fs, hroot, ho, hexplained⟩ := Matcher.overlay_of_node? hb
    refine ⟨fs, hexplained.faced, ?_, ?_⟩
    · intro f hf k hk
      exact Node.mem_listing_trans hn (ho.mem_listing f hf k hk)
    · rw [Template.ownWeight, hroot, hspan]
      exact ho.weight_le_span h hn
  · obtain ⟨hb, -, hspan⟩ := Matcher.siblings?_of_window? hw
    obtain ⟨fs, ho, hexplained⟩ := Matcher.overlay_of_siblings? hb
    refine ⟨fs, hexplained.faced, ?_, ?_⟩
    · intro f hf k hk
      obtain ⟨p, hp, hpart, -⟩ := hxs
      obtain ⟨x, hx, hkx⟩ := Node.mem_listingAll_iff.mp (ho.mem_listingAll f hf k hk)
      have hbelow := Node.mem_listing_trans (Node.mem_listing_of_mem_children (hpart.subset hx)) hkx
      exact Node.mem_listing_trans hp hbelow
    · have hnone : m.template.root? = none := by
        unfold Template.root?
        rw [if_pos hrun]
      rw [Template.ownWeight, hnone, hspan]
      exact ho.weight_le_span h hxs

end Overlays

end JavaRefactor

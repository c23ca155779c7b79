import JavaRefactor.Proofs.Java.Parse
import JavaRefactor.Proofs.Pass.Faults
import JavaRefactor.Proofs.Text.Edit

/-!
# `Proofs.Pass.Frame` — what a pass leaves as it is

A pass makes its edits from the last to the first, each in the text that the ones behind it have left. The
occurrences stand in order and apart from each other, so this is the same as making all edits at once: what
stands in front of them, between them and behind them is copied.

## Contents
- **Ranges.** `Spelled.cuts_of_mem_listing`, `Spelled.cuts_of_hasRun`: nodes, and neighbouring children of
  one, cover a piece of the text; `root_or_covers` and `coversAll_of_hasRun`, the lexemes that they are made of;
  `Spelled.cuts_between`, what stands between two of them.
- **Order.** `pairwise_before`: an occurrence ends before the next one starts.
- **Edits.** `applyFromEnd_of_mapM`, and from it `substitute_eq_ok` and `substitute_error_inv`.
- **Passes.** `Misplaced`, the problems that no pass ends in, and **`apply_frame`**.
-/

namespace JavaRefactor

open Syntax (Node Tree)
open Text (Span Edit byteLength)

/-! ## Ranges -/

namespace Java.Spelled

variable {t : Tree} {ls : List Lexeme} {nodes : List Node}

/-- Some lexemes take a piece out of the text that is not empty. -/
theorem cuts_of_infix (h : Spelled t ls nodes) {part : List Lexeme} (hpart : part <:+: ls)
    (hne : part ≠ []) : ∃ middle, (extent part).Cuts t.source.toList middle ∧ middle ≠ [] := by
  obtain ⟨l, part, rfl⟩ := List.exists_cons_of_ne_nil hne
  refine ⟨_, h.cuts_extent hpart, ?_⟩
  have htext : l.text ≠ "" := Lexeme.text_ne_empty_of_laid h.laid (hpart.subset (by simp))
  exact List.append_ne_nil_of_left_ne_nil (by simpa using htext) _

/-- The root covers the whole text. -/
theorem cuts_root (h : Spelled t ls nodes) : t.root.span.Cuts t.source.toList t.source.toList := by
  refine ⟨[], [], by simp, ?_⟩
  rw [h.root, List.nil_append, ← Text.utf8ByteSize_eq]
  rfl

/-- A node of the tree is the root, or it is made of some of the lexemes. -/
theorem root_or_covers (h : Spelled t ls nodes) {n : Node} (hn : n ∈ t.root.listing) :
    n = t.root ∨ ∃ part, part <:+: ls ∧ Covers part n := by
  have hroot := h.root
  unfold rootOf at hroot
  rw [hroot, Node.listing, List.mem_cons, ← hroot] at hn
  rcases hn with rfl | hn
  · exact Or.inl rfl
  · exact Or.inr (h.covers.of_mem_listingAll n hn)

/-- **A node of the tree** covers a piece of the text, which is empty only where the text is. -/
theorem cuts_of_mem_listing (h : Spelled t ls nodes) {n : Node} (hn : n ∈ t.root.listing) :
    ∃ middle, n.span.Cuts t.source.toList middle ∧ (middle = [] → t.source.toList = []) := by
  rcases h.root_or_covers hn with rfl | ⟨part, hpart, hcovers⟩
  · exact ⟨_, h.cuts_root, id⟩
  · obtain ⟨l, part, rfl⟩ := hcovers.exists_cons
    obtain ⟨middle, hcuts, hne⟩ := h.cuts_of_infix hpart (by simp)
    exact ⟨middle, hcovers.span_eq ▸ hcuts, fun he => absurd he hne⟩

/-- A leaf of the tree covers its text. -/
theorem cuts_of_leaf (h : Spelled t ls nodes) {l : Syntax.Label} {tr x : String}
    (hn : Node.leaf l tr x ∈ t.root.listing) :
    (Node.leaf l tr x).span.Cuts t.source.toList x.toList := by
  rcases h.root_or_covers hn with hroot | ⟨part, hpart, hcovers⟩
  · rw [h.root] at hroot
    exact absurd hroot (by simp [rootOf])
  · have hspan := hcovers.span_eq
    cases hcovers with
    | leaf htext =>
        rw [hspan, htext]
        exact h.cuts_extent hpart

/-- Neighbouring children of a node are made of some of the lexemes. -/
theorem coversAll_of_hasRun (h : Spelled t ls nodes) {xs : List Node} (hxs : t.root.HasRun xs) :
    ∃ part, part <:+: ls ∧ part ≠ [] ∧ CoversAll part xs := by
  obtain ⟨p, hp, hxs, hne⟩ := hxs
  -- the children are those of the root, or of a node that is made of lexemes itself
  have hchildren : ∃ part, part <:+: ls ∧ CoversAll part p.children := by
    rcases h.root_or_covers hp with rfl | ⟨part, hpart, hcovers⟩
    · rw [h.root]
      exact ⟨ls, List.infix_rfl, h.covers⟩
    · cases hcovers with
      | leaf => exact absurd (List.eq_nil_of_infix_nil hxs) hne
      | branch hcovers => exact ⟨_, hpart, hcovers⟩
  obtain ⟨part, hpart, hcovers⟩ := hchildren
  obtain ⟨part', hpart', hcovers'⟩ := hcovers.of_infix hxs
  refine ⟨part', hpart'.trans hpart, ?_, hcovers'⟩
  rintro rfl
  exact hne hcovers'.eq_nil

/-- **Neighbouring children** of a node cover a piece of the text that is not empty. -/
theorem cuts_of_hasRun (h : Spelled t ls nodes) {xs : List Node} (hxs : t.root.HasRun xs) :
    ∃ middle, (Syntax.spanOf xs).Cuts t.source.toList middle ∧ middle ≠ [] := by
  obtain ⟨part, hpart, hne, hcovers⟩ := h.coversAll_of_hasRun hxs
  rw [hcovers.spanOf_eq]
  exact h.cuts_of_infix hpart hne

/-- **Between a node and a leaf behind it** there is what stands in front of the leaf. -/
theorem cuts_between (h : Spelled t ls nodes) {n : Node} {l : Syntax.Label} {tr x : String}
    (hrun : t.root.HasRun [n, .leaf l tr x]) :
    (⟨n.span.stop, l.span.start⟩ : Span).Cuts t.source.toList tr.toList := by
  obtain ⟨part, ⟨before, behind, hpart⟩, -, hcovers⟩ := h.coversAll_of_hasRun hrun
  have hlaid := h.laid
  have htext := h.text
  cases hcovers with
  | @cons ls' ms _ _ hn hleaf =>
      rw [← hpart, Lexeme.laid_append, Lexeme.laid_append, Lexeme.laid_append] at hlaid
      obtain ⟨⟨-, hls', hms⟩, -⟩ := hlaid
      obtain ⟨k, ks, rfl⟩ := hn.exists_cons
      have hstop : n.span.stop = byteLength (Lexeme.spelling before ++ Lexeme.spelling (k :: ks)) := by
        rw [hn.span_eq, extent_of_laid hls', Nat.zero_add, Text.byteLength_append]
      have hleaf := hleaf.of_single
      cases hleaf with
      | @leaf j js _ _ _ _ =>
          refine ⟨Lexeme.spelling before ++ Lexeme.spelling (k :: ks),
            j.text.toList ++ Lexeme.spelling js ++ Lexeme.spelling behind ++ t.trailing.toList, ?_, ?_⟩
          · rw [← htext, ← hpart]
            simp
          · rw [hstop, extent_of_laid hms]
            simp only [Nat.zero_add, Text.byteLength_append]

end Java.Spelled

namespace Pass

open JavaRefactor.Types (Oracle)

variable {r : Rule} {t : Tree} {types : Oracle}

/-- **An occurrence** covers a piece of the text, which is empty only where the text is. -/
theorem cuts_of_mem_occurrences {ls : List Java.Lexeme} {nodes : List Node}
    (h : Java.Spelled t ls nodes) {o : Occurrence} (ho : o ∈ occurrences r t types) :
    ∃ middle, o.span.Cuts t.source.toList middle ∧ (middle = [] → t.source.toList = []) := by
  obtain ⟨-, hsite⟩ := site_of_mem_occurrences ho
  unfold Occurrence.span
  rcases Matcher.span_of_mem_sitesWhere hsite with ⟨n, hn, hspan⟩ | ⟨xs, hxs, hspan⟩
  · rw [hspan]
    exact h.cuts_of_mem_listing hn
  · obtain ⟨middle, hcuts, hne⟩ := h.cuts_of_hasRun hxs
    rw [hspan]
    exact ⟨middle, hcuts, fun he => absurd he hne⟩

/-! ## Order -/

/-- An occurrence that starts and ends before another one starts. -/
def Before (a b : Occurrence) : Prop := a.span.start ≤ b.span.start ∧ a.span.stop ≤ b.span.start

/-- Of two ranges that do not overlap, the one that starts first ends before the other starts, unless that
    one is empty. -/
theorem before_of_apart {a b : Occurrence} (hle : a.span.start ≤ b.span.start) (h : Apart a b)
    (hb : b.span.start < b.span.stop) : Before a b := by
  refine ⟨hle, ?_⟩
  have hnot : ¬ (a.span.start < b.span.stop ∧ b.span.start < a.span.stop) := by
    rintro ⟨h₁, h₂⟩
    unfold Apart Span.overlaps at h
    rw [Nat.blt_eq.mpr h₁, Nat.blt_eq.mpr h₂] at h
    exact absurd h (by simp)
  omega

/-- **Occurrences stand in order** and apart from each other. -/
theorem pairwise_before {ls : List Java.Lexeme} {nodes : List Node} (h : Java.Spelled t ls nodes) :
    (occurrences r t types).Pairwise Before := by
  have hsorted : (occurrences r t types).Pairwise fun a b => a.span.start ≤ b.span.start :=
    pairwise_le_sortBy _ _
  refine ((pairwise_occurrences r t types).and hsorted).imp_of_mem ?_
  rintro a b ha hb ⟨hapart, hle⟩
  obtain ⟨middle, hcuts, hempty⟩ := cuts_of_mem_occurrences h hb
  by_cases hm : middle = []
  · -- an empty text has nothing but empty ranges, all at its start
    obtain ⟨middle', ⟨front, rest, htext, hspan⟩, -⟩ := cuts_of_mem_occurrences h ha
    rw [hempty hm] at htext
    obtain ⟨rfl, rfl, rfl⟩ : front = [] ∧ middle' = [] ∧ rest = [] := by simpa using htext.symm
    have hstop : a.span.stop = 0 := by rw [hspan]; rfl
    exact ⟨hle, by omega⟩
  · refine before_of_apart hle hapart ?_
    obtain ⟨front, rest, -, hspan⟩ := hcuts
    have hpos := Text.byteLength_pos hm
    rw [hspan]
    simp only [Text.byteLength_append]
    omega

/-! ## Edits -/

/-- An edit replaces what its occurrence covers. -/
theorem span_of_replacement {o : Occurrence} {e : Edit} (h : replacement r t o = .ok e) :
    e.span = o.span := by
  unfold replacement at h
  obtain ⟨text, -, rfl⟩ := Attempts.map_eq_ok.mp h
  rfl

/-- The edits replace what the occurrences cover, one by one. -/
theorem spans_of_mapM_replacement {os : List Occurrence} {edits : List Edit}
    (h : os.mapM (replacement r t) = .ok edits) :
    edits.map (·.span) = os.map (·.span) := by
  have hall := Attempts.mapM_eq_ok.mp h
  clear h
  induction hall with
  | nil => rfl
  | cons he _ ih => rw [List.map_cons, List.map_cons, span_of_replacement he, ih]

/-- **The edits of a pass** from the last to the first are the edits at once, and there is nothing in their
    way. -/
theorem applyFromEnd_of_mapM {ls : List Java.Lexeme} {nodes : List Node} (h : Java.Spelled t ls nodes)
    {edits : List Edit} (he : (occurrences r t types).mapM (replacement r t) = .ok edits) :
    ∃ out, Text.applyAtOnce 0 edits t.source.toList = some out ∧
      Text.applyFromEnd edits t.source.toList = some out := by
  have hspans := spans_of_mapM_replacement he
  refine Text.applyFromEnd_eq_applyAtOnce ?_ ?_
  · intro e hmem
    have hspan : e.span ∈ (occurrences r t types).map (·.span) := by
      rw [← hspans]
      exact List.mem_map_of_mem hmem
    obtain ⟨o, ho, hspan⟩ := List.mem_map.mp hspan
    obtain ⟨middle, hcuts, -⟩ := cuts_of_mem_occurrences h ho
    exact ⟨middle, hspan ▸ hcuts⟩
  · have hapart : ((occurrences r t types).map (·.span)).Pairwise fun a b => a.stop ≤ b.start :=
      List.pairwise_map.mpr ((pairwise_before h).imp fun hab => hab.2)
    rw [← hspans] at hapart
    exact List.pairwise_map.mp hapart

/-- The new text of a pass. -/
theorem substitute_eq_ok {ls : List Java.Lexeme} {nodes : List Node} (h : Java.Spelled t ls nodes)
    {s : String} (hs : substitute r t (occurrences r t types) = .ok s) :
    ∃ edits, (occurrences r t types).mapM (replacement r t) = .ok edits ∧
      Text.applyAtOnce 0 edits t.source.toList = some s.toList := by
  unfold substitute at hs
  rw [overlap?_occurrences] at hs
  obtain ⟨edits, he, hs⟩ := Attempts.bind_eq_ok.mp hs
  have he' := Attempts.mapM_reverse_eq_ok.mp he
  obtain ⟨out, hout, hend⟩ := applyFromEnd_of_mapM h he'
  rw [hend] at hs
  obtain rfl : String.ofList out = s := Except.ok.inj hs
  exact ⟨edits.reverse, he', by rw [String.toList_ofList]; exact hout⟩

/-- **Occurrences can be replaced**, unless one of them has no new text. -/
theorem substitute_error_inv {ls : List Java.Lexeme} {nodes : List Node} (h : Java.Spelled t ls nodes)
    {p : Problem} (hs : substitute r t (occurrences r t types) = .error p) :
    p = .invariant .noRoot ∨ ∃ name, p = .invariant (.unbound name) := by
  rcases substitute_error hs with ⟨a, b, ho, -⟩ | ⟨o, -, hf⟩ | ⟨-, edits, he, hend⟩
  · rw [overlap?_occurrences] at ho
    exact absurd ho (by simp)
  · exact replacement_error hf
  · obtain ⟨out, -, hout⟩ := applyFromEnd_of_mapM h (Attempts.mapM_reverse_eq_ok.mp he)
    rw [hend] at hout
    exact absurd hout (by simp)

/-! ## Passes -/

/-- A problem that tells of an occurrence that cannot be replaced where it stands. -/
def Misplaced (p : Problem) : Prop :=
  (∃ a b, p = .invariant (.overlap a b)) ∨ p = .invariant .insideCharacter

theorem not_misplaced_of_substitute {ls : List Java.Lexeme} {nodes : List Node}
    (h : Java.Spelled t ls nodes) {p : Problem}
    (hs : substitute r t (occurrences r t types) = .error p) : ¬ Misplaced p := by
  unfold Misplaced
  rcases substitute_error_inv h hs with rfl | ⟨name, rfl⟩
  · simp
  · simp

theorem not_misplaced_of_apply {fixImports : Bool} {source : String} {p : Problem}
    (h : apply fixImports r source = .error p) : ¬ Misplaced p := by
  rcases apply_error h with ⟨-, rfl⟩ | ⟨t, ht, hs⟩ | rfl | rfl
  · simp [Misplaced]
  · obtain ⟨-, ls, nodes, hspelled⟩ := Java.spelled_of_parse? ht
    exact not_misplaced_of_substitute hspelled hs
  · simp [Misplaced]
  · simp [Misplaced]

/-- What a pass over a tree makes of its text is the text with the occurrences replaced. -/
theorem outcomeOf_eq_ok {ls : List Java.Lexeme} {nodes : List Node} (h : Java.Spelled t ls nodes)
    {out : Outcome} (ho : outcomeOf false r t = .ok out) :
    out.applied = (occurrences r t (.ofTree t)).length ∧
    ∃ edits, (occurrences r t (.ofTree t)).mapM (replacement r t) = .ok edits ∧
      Text.applyAtOnce 0 edits t.source.toList = some out.output.toList := by
  unfold outcomeOf at ho
  simp only at ho
  split at ho
  · rename_i hempty
    obtain rfl := Except.ok.inj ho
    rw [List.isEmpty_iff.mp hempty]
    exact ⟨rfl, [], rfl, rfl⟩
  · obtain ⟨after, hr, rfl⟩ := Attempts.map_eq_ok.mp ho
    obtain ⟨s, hs, hprint⟩ := print_of_rewritten hr
    obtain ⟨edits, he, hout⟩ := substitute_eq_ok h hs
    refine ⟨rfl, edits, he, ?_⟩
    show Text.applyAtOnce 0 edits t.source.toList = some after.print.toList
    rcases hprint with hprint | ⟨hfix, -⟩
    · rw [hprint]
      exact hout
    · exact absurd hfix (by simp)

/-- **The frame of a pass** over a text. Its occurrences stand in order and share no byte, and all of them can
    be replaced where they stand. A pass that succeeds without mending imports makes the text in which all of
    them are replaced at once, and counts them. -/
theorem apply_frame {r : Rule} {source : String} {t : Tree} {os : List Occurrence}
    (h : Java.parse? source = some t) (hos : occurrences r t (.ofTree t) = os) :
    (os.Pairwise fun a b => a.span.start ≤ b.span.start ∧ a.span.stop ≤ b.span.start) ∧
    (∀ p, (substitute r t os = .error p ∨ ∃ fixImports, apply fixImports r source = .error p) →
      ¬ Misplaced p) ∧
    ∀ out, apply false r source = .ok out →
      out.applied = os.length ∧
      ∃ edits, os.mapM (replacement r t) = .ok edits ∧ edits.map (·.span) = os.map (·.span) ∧
        Text.applyAtOnce 0 edits source.toList = some out.output.toList := by
  subst hos
  obtain ⟨rfl, ls, nodes, hspelled⟩ := Java.spelled_of_parse? h
  refine ⟨pairwise_before hspelled, ?placed, ?replaced⟩
  case placed =>
    rintro p (hp | ⟨fixImports, hp⟩)
    · exact not_misplaced_of_substitute hspelled hp
    · exact not_misplaced_of_apply hp
  case replaced =>
    intro out ha
    rw [apply_eq] at ha
    obtain ⟨t', ht', ho⟩ := Attempts.bind_eq_ok.mp ha
    obtain rfl : t = t' := by
      unfold readJava at ht'
      rw [h] at ht'
      exact Except.ok.inj ht'
    obtain ⟨happlied, edits, he, hout⟩ := outcomeOf_eq_ok hspelled ho
    exact ⟨happlied, edits, he, spans_of_mapM_replacement he, hout⟩

/-- Two occurrences, with text of several bytes in front of them, between them and behind them. -/
theorem apply_frame_two_calls : ∃ r t os out edits,
    (RuleDraft.simple "Widen" "f($X)" "g($X, 1)").build = .ok r ∧
    Java.parse? "/* ä */ f(a); /* ö */ f(\"é\"); // ü" = some t ∧
    occurrences r t (.ofTree t) = os ∧ os.length = 2 ∧
    apply false r "/* ä */ f(a); /* ö */ f(\"é\"); // ü" = .ok out ∧
    out.output = "/* ä */ g(a, 1); /* ö */ g(\"é\", 1); // ü" ∧
    out.applied = os.length ∧ edits.map (·.span) = os.map (·.span) ∧
    Text.applyAtOnce 0 edits "/* ä */ f(a); /* ö */ f(\"é\"); // ü".toList =
      some out.output.toList := by
  have h : ((RuleDraft.simple "Widen" "f($X)" "g($X, 1)").build.toOption.any fun r =>
      (Java.parse? "/* ä */ f(a); /* ö */ f(\"é\"); // ü").any fun t =>
        (occurrences r t (.ofTree t)).length == 2 &&
        (apply false r "/* ä */ f(a); /* ö */ f(\"é\"); // ü").toOption.any fun out =>
          out.output == "/* ä */ g(a, 1); /* ö */ g(\"é\", 1); // ü") = true := by
    decide +kernel
  obtain ⟨r, hr, h⟩ := (Option.any_eq_true _ _).mp h
  obtain ⟨t, ht, h⟩ := (Option.any_eq_true _ _).mp h
  obtain ⟨hlen, h⟩ := (Bool.and_eq_true _ _).mp h
  obtain ⟨out, hout, h⟩ := (Option.any_eq_true _ _).mp h
  have hout := Attempts.toOption_eq_some.mp hout
  obtain ⟨-, -, hframe⟩ := apply_frame (r := r) ht rfl
  obtain ⟨happlied, edits, -, hspans, hedits⟩ := hframe out hout
  exact ⟨r, t, _, out, edits, Attempts.toOption_eq_some.mp hr, ht, rfl, by simpa using hlen, hout,
    by simpa using h, happlied, hspans, hedits⟩

end Pass

end JavaRefactor

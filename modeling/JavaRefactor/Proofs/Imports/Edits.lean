import JavaRefactor.Imports.Fix
import JavaRefactor.Proofs.Java.Nested
import JavaRefactor.Proofs.Sorting
import JavaRefactor.Proofs.Syntax.Listing
import Mathlib.Data.List.Destutter
import Mathlib.Data.String.Basic

/-!
# `Proofs.Imports.Edits` — the edits that mend imports, and their places

## Contents
- **Imports.** `IsGone` and `IsNeeded`; `gone` and `added`, with `mem_added`, and `edits_eq`.
- **Edits.** `Removes` and `Inserts`, what an edit does to a text.
- **Places.** `insertion_cases` and `insertion_spec`; `pairwise_declared`: a removal ends where the next import starts,
  at the latest; `isPlace_apart`: nothing is put into what is removed.
- **`cuts_of_mem_edits`**: all edits fit.
-/

namespace JavaRefactor.Imports

open Java (Lexeme Spelled)
open Syntax (Node Tree)
open Text (Edit Span byteLength)

/-! ## Imports -/

/-- The name of an import, unless it imports all members of a path, was used and is no longer. -/
def IsGone (before after : Tree) (d : Declared) : Prop :=
  d.onDemand = false ∧ d.simpleName ∈ usedNames before.root ∧ d.simpleName ∉ usedNames after.root

instance (before after : Tree) (d : Declared) : Decidable (IsGone before after d) :=
  inferInstanceAs (Decidable (_ ∧ _ ∧ _))

/-- An import of the rule is used and nothing provides it. -/
def IsNeeded (after : Tree) (i : ImportSpec) : Prop :=
  i.simpleName ∈ usedNames after.root ∧
    (i.isStatic = true ∨ i.qualifier ≠ "java.lang" ∧ some i.qualifier ≠ packageName? after) ∧
    ∀ d ∈ declared after, d.provides i = false

instance (after : Tree) (i : ImportSpec) : Decidable (IsNeeded after i) :=
  inferInstanceAs (Decidable (_ ∧ (_ ∨ _ ∧ _) ∧ _))

/-- The imports that go. -/
def gone (before after : Tree) : List Declared := (declared after).filter (IsGone before after)

/-- The imports that stay. -/
def kept (before after : Tree) : List Declared := (declared after).filter (¬ IsGone before after ·)

/-- An import of the file stays or goes. -/
theorem perm_declared (before after : Tree) : (kept before after ++ gone before after).Perm (declared after) := by
  unfold kept gone
  refine List.perm_append_comm.trans ?_
  simp only [decide_not]
  exact List.filter_append_perm _ _

/-- The imports that come, the last one in order of paths first; of equal neighbours in this order there is one. -/
def added (after : Tree) (wanted : List ImportSpec) : List ImportSpec :=
  (sortWith (fun i j => decide (j.path ≤ i.path)) (wanted.filter (IsNeeded after))).destutter (· ≠ ·)

theorem isObsolete_eq (before after : Tree) :
    isObsolete (usedNames before.root) (usedNames after.root) = fun d => decide (IsGone before after d) := by
  funext d
  rw [Bool.eq_iff_iff, decide_eq_true_eq]
  unfold isObsolete IsGone
  simp [and_assoc]

/-- Leaving one of equal neighbours, the first or the last. -/
theorem mergeNeighbours_eq_destutter : ∀ is : List ImportSpec, mergeNeighbours is = is.destutter (· ≠ ·)
  | [] => rfl
  | [i] => rfl
  | i :: j :: rest => by
      have htail := mergeNeighbours_eq_destutter (j :: rest)
      rw [List.destutter_cons'] at htail ⊢
      rw [mergeNeighbours, htail]
      by_cases hij : i = j
      · subst hij
        rw [if_pos rfl, List.destutter'_cons_neg _ (by simp)]
      · rw [if_neg hij, List.destutter'_cons_pos _ hij]

theorem additions_eq (after : Tree) (wanted : List ImportSpec) :
    additions (declared after) (usedNames after.root) (packageName? after) wanted = added after wanted := by
  unfold additions added
  simp only [mergeNeighbours_eq_destutter]
  congr 2
  refine List.filter_congr ?_
  intro i _
  rw [Bool.eq_iff_iff, decide_eq_true_eq]
  unfold isImplicit IsNeeded
  simp only [Bool.and_eq_true, Bool.not_eq_true', Bool.and_eq_false_iff, Bool.or_eq_false_iff, List.any_eq_false]
  simp [and_assoc]

/-- **An import comes** if it is wanted and needed. -/
theorem mem_added {after : Tree} {wanted : List ImportSpec} {i : ImportSpec} :
    i ∈ added after wanted ↔ i ∈ wanted ∧ IsNeeded after i := by
  have hmerge : ∀ is : List ImportSpec, i ∈ mergeNeighbours is ↔ i ∈ is := by
    intro is
    fun_induction mergeNeighbours is with
    | case1 => exact Iff.rfl
    | case2 j => exact Iff.rfl
    | case3 j rest ih =>
        rw [ih, List.mem_cons (l := j :: rest)]
        exact (or_iff_right_of_imp fun h => h ▸ List.mem_cons_self ..).symm
    | case4 j k rest hne ih => rw [List.mem_cons, ih, List.mem_cons (l := k :: rest)]
  unfold added
  rw [← mergeNeighbours_eq_destutter, hmerge, (perm_sortWith _).mem_iff, List.mem_filter, decide_eq_true_eq]

/-- Imports sorted from the last path to the first. -/
theorem pairwise_path_sortWith (is : List ImportSpec) :
    (sortWith (fun i j => decide (j.path ≤ i.path)) is).Pairwise fun i j => j.path ≤ i.path := by
  have htotal : ∀ i j : ImportSpec, decide (j.path ≤ i.path) = true ∨ decide (i.path ≤ j.path) = true := by
    intro i j
    rw [decide_eq_true_eq, decide_eq_true_eq]
    exact le_total _ _
  have htrans : ∀ i j k : ImportSpec, decide (j.path ≤ i.path) = true → decide (k.path ≤ j.path) = true →
      decide (k.path ≤ i.path) = true := by
    intro i j k hij hjk
    rw [decide_eq_true_eq] at hij hjk ⊢
    exact le_trans hjk hij
  exact (pairwise_le_sortWith htotal htrans is).imp of_decide_eq_true

/-- The imports that come, the last one in order of paths first. -/
theorem pairwise_added (after : Tree) (wanted : List ImportSpec) :
    (added after wanted).Pairwise fun i j => j.path ≤ i.path :=
  (pairwise_path_sortWith _).sublist (List.destutter_sublist _ _)

/-- **The edits of imports** take out those that go and put in those that come. -/
theorem edits_eq (before after : Tree) (wanted : List ImportSpec) :
    edits before after wanted = (gone before after).map (removal after.source.toList) ++
      (added after wanted).map
        (insertion after (kept before after) ((gone before after).head?.map (·.span.start))) := by
  unfold edits
  simp only [isObsolete_eq, additions_eq]
  unfold gone kept
  simp only [decide_not]

/-! ## Edits -/

/-- One line break, in front of the rest of a text; or nothing, where the rest does not start with one. -/
def IsBreak (lineBreak rest : List Char) : Prop :=
  lineBreak = ['\r', '\n'] ∨ lineBreak = ['\n'] ∨
    lineBreak = [] ∧ ¬ ['\r', '\n'] <+: rest ∧ ¬ ['\n'] <+: rest

/-- The edit takes an import out of a text, with one line break behind it if there is one. -/
def Removes (cs : List Char) (d : Declared) (e : Edit) : Prop :=
  e.text = [] ∧ ∃ front middle lineBreak rest, cs = front ++ middle ++ lineBreak ++ rest ∧
    d.span = ⟨byteLength front, byteLength (front ++ middle)⟩ ∧
    e.span = ⟨byteLength front, byteLength (front ++ (middle ++ lineBreak))⟩ ∧ IsBreak lineBreak rest

/-- The edit puts the declaration of an import in, with one or two line breaks in front of it or behind it. -/
def Inserts (i : ImportSpec) (e : Edit) : Prop :=
  e.span.start = e.span.stop ∧ ∃ breaks ∈ ["\n", "\n\n"],
    e.text = (breaks ++ i.declaration).toList ∨ e.text = (i.declaration ++ breaks).toList

/-- The line break at the front of a text. -/
theorem breakLength_spec (cs : List Char) : ∃ lineBreak rest, cs = lineBreak ++ rest ∧
    breakLength cs = byteLength lineBreak ∧ IsBreak lineBreak rest := by
  unfold breakLength
  split
  case h_1 rest => exact ⟨['\r', '\n'], rest, rfl, rfl, Or.inl rfl⟩
  case h_2 rest => exact ⟨['\n'], rest, rfl, rfl, Or.inr (Or.inl rfl)⟩
  case h_3 hpair hsingle =>
    refine ⟨[], cs, rfl, rfl, Or.inr (Or.inr ⟨rfl, ?_, ?_⟩)⟩
    · rintro ⟨rest, rfl⟩
      exact hpair rest rfl
    · rintro ⟨rest, rfl⟩
      exact hsingle rest rfl

theorem IsBreak.blank {lineBreak rest : List Char} (h : IsBreak lineBreak rest) :
    ∀ c ∈ lineBreak, Text.isBlank c = true := by
  rw [← List.all_eq_true]
  rcases h with rfl | rfl | ⟨rfl, -⟩ <;> rfl

/-- **Removing an import** that covers a piece of the text. -/
theorem removes_removal {cs middle : List Char} {d : Declared} (h : d.span.Cuts cs middle) :
    Removes cs d (removal cs d) := by
  obtain ⟨front, rest, rfl, hspan⟩ := h
  obtain ⟨lineBreak, behind, rfl, hlength, hbreak⟩ := breakLength_spec rest
  refine ⟨rfl, front, middle, lineBreak, behind, by simp, hspan, ?_, hbreak⟩
  unfold removal
  rw [hspan]
  simp only [Text.dropBytes_append, Option.getD_some, hlength]
  rw [← List.append_assoc, Text.byteLength_append (front ++ middle)]

theorem Removes.cuts {cs : List Char} {d : Declared} {e : Edit} (h : Removes cs d e) :
    ∃ middle, e.span.Cuts cs middle := by
  obtain ⟨-, front, middle, lineBreak, rest, rfl, -, hspan, -⟩ := h
  exact ⟨middle ++ lineBreak, front, rest, by simp, hspan⟩

theorem Removes.blank {cs : List Char} {d : Declared} {e : Edit} (h : Removes cs d e) :
    ∃ front blank rest, cs = front ++ blank ++ rest ∧ byteLength front = d.span.stop ∧
      (∀ c ∈ blank, Text.isBlank c = true) ∧ e.span.start = d.span.start ∧
      e.span.stop = d.span.stop + byteLength blank := by
  obtain ⟨-, front, middle, lineBreak, rest, rfl, hd, he, hbreak⟩ := h
  refine ⟨front ++ middle, lineBreak, rest, rfl, by rw [hd], hbreak.blank, by rw [hd, he], ?_⟩
  rw [hd, he, ← List.append_assoc, Text.byteLength_append (front ++ middle)]

section Insertions

variable (i : ImportSpec) {breaks : String} (hbreaks : breaks ∈ ["\n", "\n\n"]) (place : Nat)
include hbreaks

theorem inserts_behind : Inserts i (insertAt place (breaks ++ i.declaration)) :=
  ⟨rfl, breaks, hbreaks, Or.inl rfl⟩

theorem inserts_front : Inserts i (insertAt place (i.declaration ++ breaks)) :=
  ⟨rfl, breaks, hbreaks, Or.inr rfl⟩

end Insertions

/-! ## Places -/

/-- A place where an import may come: next to one that stays, in the stead of the first that goes, or, where there
    is no import, next to a construct of the file or at its start. -/
def IsPlace (t : Tree) (remaining : List Declared) (vacated : Option Nat) (place : Nat) : Prop :=
  (∃ d ∈ remaining, place = d.span.start ∨ place = d.span.stop) ∨ vacated = some place ∨
    vacated = none ∧ (place = 0 ∨ ∃ n ∈ t.root.children, place = n.span.start ∨ place = n.span.stop)

/-- Without imports, a new one comes behind the package, or else in front of the first construct of the file. -/
theorem insertionBelowPackage_cases (t : Tree) (i : ImportSpec) :
    Inserts i (insertionBelowPackage t i) ∧
      ((∃ p ∈ t.root.children, p.isKind "package_declaration" = true ∧
        (insertionBelowPackage t i).span.start = p.span.stop) ∨
      (∀ p ∈ t.root.children, p.isKind "package_declaration" = false) ∧
        insertionBelowPackage t i =
          insertAt ((t.root.namedChildren.head?.map (·.span.start)).getD 0) (i.declaration ++ "\n\n")) := by
  have htwo : "\n\n" ∈ ["\n", "\n\n"] := by decide
  unfold insertionBelowPackage
  split
  case h_1 p hp =>
    have hkind : p.isKind "package_declaration" = true := (List.find?_eq_some_iff_append.mp hp).1
    exact ⟨inserts_behind i htwo _, Or.inl ⟨p, List.mem_of_find?_eq_some hp, hkind, rfl⟩⟩
  case h_2 hnone =>
    refine ⟨inserts_front i htwo _, Or.inr ⟨?_, rfl⟩⟩
    intro p hp
    exact Bool.eq_false_iff.mpr (List.find?_eq_none.mp hnone p hp)

/-- **An import that comes** is put in next to one that stays, or in the stead of one that goes; where there is no
    import, it comes below the package. -/
theorem insertion_cases (t : Tree) (remaining : List Declared) (vacated : Option Nat) (i : ImportSpec) :
    Inserts i (insertion t remaining vacated i) ∧
      ((∃ d ∈ remaining, (insertion t remaining vacated i).span.start = d.span.start ∨
        (insertion t remaining vacated i).span.start = d.span.stop) ∨
      vacated = some (insertion t remaining vacated i).span.start ∨
      remaining = [] ∧ vacated = none ∧ insertion t remaining vacated i = insertionBelowPackage t i) := by
  have hone : "\n" ∈ ["\n", "\n\n"] := by decide
  have htwo : "\n\n" ∈ ["\n", "\n\n"] := by decide
  unfold insertion
  simp only
  split
  case h_1 next hnext =>
    have hmem := List.mem_of_mem_filter (List.mem_of_find?_eq_some hnext)
    exact ⟨inserts_front i hone _, Or.inl ⟨next, hmem, Or.inl rfl⟩⟩
  case h_2 last _ hlast =>
    have hmem := List.mem_of_mem_filter (List.mem_of_getLast? hlast)
    exact ⟨inserts_behind i hone _, Or.inl ⟨last, hmem, Or.inr rfl⟩⟩
  case h_3 =>
    -- no import of its sort is left
    split
    case h_1 first last hfirst hlast =>
      split
      · exact ⟨inserts_front i htwo _, Or.inl ⟨first, List.mem_of_head? hfirst, Or.inl rfl⟩⟩
      · exact ⟨inserts_behind i htwo _, Or.inl ⟨last, List.mem_of_getLast? hlast, Or.inr rfl⟩⟩
    case h_2 place _ => exact ⟨inserts_front i hone _, Or.inr (Or.inl rfl)⟩
    case h_3 hends =>
      refine ⟨(insertionBelowPackage_cases t i).1, Or.inr (Or.inr ⟨?_, rfl, rfl⟩)⟩
      cases remaining with
      | nil => rfl
      | cons d ds => exact absurd List.getLast?_cons (hends d _ rfl)

/-- An import that comes is put in at such a place. -/
theorem insertion_spec (t : Tree) (remaining : List Declared) (vacated : Option Nat) (i : ImportSpec) :
    Inserts i (insertion t remaining vacated i) ∧
      IsPlace t remaining vacated (insertion t remaining vacated i).span.start := by
  obtain ⟨hinserts, hplace⟩ := insertion_cases t remaining vacated i
  refine ⟨hinserts, ?_⟩
  rcases hplace with hstays | hvacated | ⟨-, hvacated, hbelow⟩
  · exact Or.inl hstays
  · exact Or.inr (Or.inl hvacated)
  · refine Or.inr (Or.inr ⟨hvacated, ?_⟩)
    rw [hbelow]
    rcases (insertionBelowPackage_cases t i).2 with ⟨p, hp, -, hstop⟩ | ⟨-, hfirst⟩
    · exact Or.inr ⟨p, hp, Or.inr hstop⟩
    · rw [hfirst]
      cases hhead : t.root.namedChildren.head? with
      | none => exact Or.inl rfl
      | some n => exact Or.inr ⟨n, List.mem_of_mem_filter (List.mem_of_head? hhead), Or.inl rfl⟩

theorem mem_edits {before after : Tree} {wanted : List ImportSpec} {e : Edit} (he : e ∈ edits before after wanted) :
    (∃ g ∈ gone before after, e = removal after.source.toList g) ∨
    (e.span.start = e.span.stop ∧
      IsPlace after (kept before after) ((gone before after).head?.map (·.span.start)) e.span.start) := by
  rw [edits_eq] at he
  rcases List.mem_append.mp he with he | he
  · obtain ⟨g, hg, rfl⟩ := List.mem_map.mp he
    exact Or.inl ⟨g, hg, rfl⟩
  · obtain ⟨i, -, rfl⟩ := List.mem_map.mp he
    obtain ⟨hinserts, hplace⟩ := insertion_spec after (kept before after)
      ((gone before after).head?.map (·.span.start)) i
    exact Or.inr ⟨hinserts.1, hplace⟩

theorem span_of_declaredBy? {n : Node} {d : Declared} (h : declaredBy? n = some d) : d.span = n.span := by
  unfold declaredBy? at h
  obtain ⟨-, h⟩ := Option.ite_none_right_eq_some.mp h
  obtain ⟨path, -, rfl⟩ := Option.map_eq_some_iff.mp h
  rfl

section Trees

variable {before after : Tree} {ls : List Lexeme} {nodes : List Node} {wanted : List ImportSpec} {d g : Declared}
  (h : Spelled after ls nodes)

include h

/-- A construct at the top of a file covers a piece of its text. -/
theorem cuts_of_mem_children {n : Node} (hn : n ∈ after.root.children) :
    (∃ middle, n.span.Cuts after.source.toList middle) ∧ n.span.start < n.span.stop := by
  obtain ⟨front, c, cs, rest, htext, hspan, hprint, -⟩ := h.exists_around hn
  refine ⟨⟨n.print.toList, front ++ n.leading, rest, htext, hspan⟩, ?_⟩
  have hbyte : 0 < byteLength n.print.toList := Text.byteLength_pos (by simp [hprint])
  rw [hspan, Text.byteLength_append (front ++ n.leading)]
  show byteLength (front ++ n.leading) < byteLength (front ++ n.leading) + _
  omega

theorem cuts_of_mem_declared (hd : d ∈ declared after) :
    (∃ middle, d.span.Cuts after.source.toList middle) ∧ d.span.start < d.span.stop := by
  obtain ⟨n, hn, hby⟩ := List.mem_filterMap.mp hd
  rw [span_of_declaredBy? hby]
  exact cuts_of_mem_children h hn

theorem removes_of_mem_declared (hd : d ∈ declared after) :
    Removes after.source.toList d (removal after.source.toList d) := by
  obtain ⟨⟨middle, hcuts⟩, -⟩ := cuts_of_mem_declared h hd
  exact removes_removal hcuts

/-- **A removal ends where the next import starts**, at the latest: its line break is no part of that. -/
theorem pairwise_declared : (declared after).Pairwise fun d d' =>
    (removal after.source.toList d).span.stop ≤ d'.span.start := by
  have hblank := h.pairwise_blank
  unfold declared
  refine List.pairwise_filterMap.mpr (hblank.imp_of_mem ?_)
  intro c c' hc _ hcc' d hd d' hd'
  have hmem : d ∈ declared after := List.mem_filterMap.mpr ⟨c, hc, hd⟩
  obtain ⟨front, blank, rest, htext, hstop, hall, -, hend⟩ := (removes_of_mem_declared h hmem).blank
  rw [span_of_declaredBy? hd] at hstop hend
  rw [hend, span_of_declaredBy? hd']
  exact hcc' front blank rest htext hstop hall

theorem removal_apart (hd : d ∈ declared after) (hg : g ∈ declared after) (hne : d ≠ g) :
    (removal after.source.toList d).span.stop ≤ g.span.start ∨
      (removal after.source.toList g).span.stop ≤ d.span.start :=
  Text.either_of_pairwise (pairwise_declared h) hd hg hne

/-- The ends of a removal, of which there is at least the import in it. -/
theorem bounds_of_removal (hd : d ∈ declared after) :
    (removal after.source.toList d).span.start = d.span.start ∧ d.span.start < d.span.stop ∧
      d.span.stop ≤ (removal after.source.toList d).span.stop := by
  obtain ⟨-, hbyte⟩ := cuts_of_mem_declared h hd
  obtain ⟨_, _, _, -, -, -, hstart, hstop⟩ := (removes_of_mem_declared h hd).blank
  exact ⟨hstart, hbyte, by omega⟩

/-- **No place of an import that comes** lies inside what is removed. -/
theorem isPlace_apart {place : Nat} (hg : g ∈ gone before after)
    (hp : IsPlace after (kept before after) ((gone before after).head?.map (·.span.start)) place) :
    place ≤ g.span.start ∨ (removal after.source.toList g).span.stop ≤ place := by
  obtain ⟨hg', hgone⟩ := List.mem_filter.mp hg
  rcases hp with ⟨d, hd, hplace⟩ | hvacated | ⟨hnone, -⟩
  · obtain ⟨hd', hkept⟩ := List.mem_filter.mp hd
    have hne : d ≠ g := by
      rintro rfl
      exact absurd (of_decide_eq_true hgone) (of_decide_eq_true hkept)
    obtain ⟨-, hbyte, hstop⟩ := bounds_of_removal h hd'
    rcases removal_apart h hd' hg' hne with hapart | hapart
    · exact Or.inl (by omega)
    · exact Or.inr (by omega)
  · -- the first import that goes stands in front of the others
    obtain ⟨first, hfirst, rfl⟩ := Option.map_eq_some_iff.mp hvacated
    obtain ⟨others, hothers⟩ := List.head?_eq_some_iff.mp hfirst
    have hpair : (gone before after).Pairwise fun d d' =>
        (removal after.source.toList d).span.stop ≤ d'.span.start :=
      (pairwise_declared h).sublist List.filter_sublist
    rw [hothers] at hg hpair
    rcases List.mem_cons.mp hg with rfl | hg
    · exact Or.inl (Nat.le_refl _)
    · have hmem : first ∈ declared after := List.mem_of_mem_filter (List.mem_of_head? hfirst)
      obtain ⟨-, hbyte, hstop⟩ := bounds_of_removal h hmem
      have hbehind := (List.pairwise_cons.mp hpair).1 g hg
      exact Or.inl (by omega)
  · rw [Option.map_eq_none_iff, List.head?_eq_none_iff] at hnone
    rw [hnone] at hg
    exact absurd hg (by simp)

/-- A place of an import that comes falls between characters. -/
theorem cuts_of_isPlace {place : Nat} {vacated : Option Nat}
    (hvacated : ∀ place, vacated = some place → ∃ d ∈ declared after, place = d.span.start)
    (hp : IsPlace after (kept before after) vacated place) :
    (⟨place, place⟩ : Span).Cuts after.source.toList [] := by
  rcases hp with ⟨d, hd, hplace⟩ | hplace | ⟨-, rfl | ⟨n, hn, hplace⟩⟩
  · obtain ⟨⟨middle, hcuts⟩, -⟩ := cuts_of_mem_declared h (List.mem_of_mem_filter hd)
    rcases hplace with rfl | rfl
    · exact hcuts.start
    · exact hcuts.stop
  · obtain ⟨d, hd, rfl⟩ := hvacated place hplace
    obtain ⟨⟨middle, hcuts⟩, -⟩ := cuts_of_mem_declared h hd
    exact hcuts.start
  · exact ⟨[], after.source.toList, rfl, rfl⟩
  · obtain ⟨⟨middle, hcuts⟩, -⟩ := cuts_of_mem_children h hn
    rcases hplace with rfl | rfl
    · exact hcuts.start
    · exact hcuts.stop

/-- Of two constructs at the top of a file one ends before the other starts, unless they are at one place. -/
theorem children_apart {m n : Node} (hm : m ∈ after.root.children) (hn : n ∈ after.root.children) :
    m.span = n.span ∨ m.span.stop ≤ n.span.start ∨ n.span.stop ≤ m.span.start := by
  by_cases hsame : m = n
  · exact Or.inl (congrArg Node.span hsame)
  · rcases h.apart hm hn hsame with hbehind | hbehind
    · exact Or.inr (Or.inl (by omega))
    · exact Or.inr (Or.inr (by omega))

/-- A place of an import that comes is none inside an import of the file. -/
theorem isPlace_outside {place : Nat} (hd : d ∈ declared after)
    (hp : IsPlace after (kept before after) ((gone before after).head?.map (·.span.start)) place) :
    place ≤ d.span.start ∨ d.span.stop ≤ place := by
  have hnode : ∀ d' ∈ declared after, ∃ n ∈ after.root.children, d'.span = n.span := by
    intro d' hd'
    obtain ⟨n, hn, hby⟩ := List.mem_filterMap.mp hd'
    exact ⟨n, hn, span_of_declaredBy? hby⟩
  have hedge : place = 0 ∨ ∃ n ∈ after.root.children, place = n.span.start ∨ place = n.span.stop := by
    rcases hp with ⟨d', hd', hplace⟩ | hvacated | ⟨-, hplace⟩
    · obtain ⟨n, hn, hspan⟩ := hnode d' (List.mem_of_mem_filter hd')
      rw [hspan] at hplace
      exact Or.inr ⟨n, hn, hplace⟩
    · obtain ⟨first, hfirst, rfl⟩ := Option.map_eq_some_iff.mp hvacated
      obtain ⟨n, hn, hspan⟩ := hnode first (List.mem_of_mem_filter (List.mem_of_head? hfirst))
      exact Or.inr ⟨n, hn, Or.inl (congrArg Span.start hspan)⟩
    · exact hplace
  rcases hedge with rfl | ⟨n, hn, hplace⟩
  · exact Or.inl (Nat.zero_le _)
  · obtain ⟨m, hm, hspan⟩ := hnode d hd
    obtain ⟨-, hbyte⟩ := cuts_of_mem_children h hn
    rw [hspan]
    rcases children_apart h hm hn with hsame | hapart
    · rw [hsame]
      omega
    · omega

/-- All edits have a range in the text. -/
theorem cuts_of_mem_edits {e : Edit} (he : e ∈ edits before after wanted) :
    ∃ middle, e.span.Cuts after.source.toList middle := by
  rcases mem_edits he with ⟨g, hg, rfl⟩ | ⟨hempty, hplace⟩
  · exact (removes_of_mem_declared h (List.mem_of_mem_filter hg)).cuts
  · refine ⟨[], ?_⟩
    have hspan : (⟨e.span.start, e.span.start⟩ : Span) = e.span := congrArg (Span.mk e.span.start) hempty
    rw [← hspan]
    refine cuts_of_isPlace h ?_ hplace
    intro place hvacated
    obtain ⟨d, hd, rfl⟩ := Option.map_eq_some_iff.mp hvacated
    exact ⟨d, List.mem_of_mem_filter (List.mem_of_head? hd), rfl⟩

end Trees

end JavaRefactor.Imports

import JavaRefactor.Proofs.Imports.Changes
import JavaRefactor.Proofs.Imports.Settled

/-!
# `Proofs.Imports.Order` — imports in order stay in order

A file whose imports stand in order gets new ones in between. Where several come to one place, the one put in last
stands in front; they are taken from the last path to the first, and sorting the edits by their places keeps that.

## Contents
- **`Ascending`**, each sort of imports in order.
- **Places.** `alike`; `place_mono`, and what stands in front of a new import and behind it.
- **`Change.import?`** and `ascending_arranged`: the imports in the order of the changes.
- **`fix?_ascending`**.
-/

namespace JavaRefactor.Imports

open Java (Lexeme Spelled)
open Syntax (Node Tree)
open Text (Edit Span byteLength)

/-- The imports of each sort, static ones and others, are in ascending order of their paths. -/
def Ascending (ds : List Declared) : Prop :=
  ∀ isStatic, (ds.filter (·.isStatic == isStatic)).Pairwise (·.path ≤ ·.path)

instance (ds : List Declared) : Decidable (Ascending ds) :=
  inferInstanceAs (Decidable (∀ isStatic, (ds.filter (·.isStatic == isStatic)).Pairwise (·.path ≤ ·.path)))

theorem ascending_iff {ds : List Declared} :
    Ascending ds ↔ ds.Pairwise fun d d' => d.isStatic = d'.isStatic → d.path ≤ d'.path := by
  unfold Ascending
  simp only [List.pairwise_filter, beq_iff_eq]
  constructor
  · intro h
    refine ((h true).and (h false)).imp ?_
    rintro d d' ⟨htrue, hfalse⟩ hsame
    cases hd : d.isStatic with
    | true => exact htrue hd (hsame ▸ hd)
    | false => exact hfalse hd (hsame ▸ hd)
  · intro h isStatic
    refine h.imp ?_
    intro d d' hle hd hd'
    exact hle (hd.trans hd'.symm)

/-! ## Places -/

section Places

variable {t : Tree} {remaining : List Declared} {vacated : Option Nat} {i j : ImportSpec} {d d' : Declared}

/-- The imports of the sort of a new one. -/
def alike (remaining : List Declared) (i : ImportSpec) : List Declared :=
  remaining.filter (·.isStatic == i.isStatic)

theorem mem_alike : d ∈ alike remaining i ↔ d ∈ remaining ∧ d.isStatic = i.isStatic := by
  unfold alike
  rw [List.mem_filter, beq_iff_eq]

/-- Without an import of its sort, the place of a new one hangs on its sort alone. -/
theorem span_insertion_of_none (halike : alike remaining i = []) (hsort : j.isStatic = i.isStatic) :
    (insertion t remaining vacated j).span = (insertion t remaining vacated i).span := by
  have hbelow : (insertionBelowPackage t j).span = (insertionBelowPackage t i).span := by
    unfold insertionBelowPackage
    split <;> rfl
  unfold alike at halike
  unfold insertion
  simp only [halike, hsort, List.find?_nil, List.getLast?_nil]
  split
  · split <;> rfl
  · rfl
  · exact hbelow

/-- **The place of a new import** with others of its sort: in front of the first one with a greater path, or behind
    the last one where there is none. -/
theorem insertion_among_alike (t : Tree) (vacated : Option Nat) (hne : alike remaining i ≠ []) :
    (∃ front next rest, alike remaining i = front ++ next :: rest ∧ (∀ d ∈ front, d.path ≤ i.path) ∧
      i.path < next.path ∧ (insertion t remaining vacated i).span.start = next.span.start) ∨
    ∃ front last, alike remaining i = front ++ [last] ∧ (∀ d ∈ alike remaining i, d.path ≤ i.path) ∧
      (insertion t remaining vacated i).span.start = last.span.stop := by
  unfold insertion
  simp only
  split
  case h_1 next hnext =>
    obtain ⟨hlt, front, rest, hsplit, hfront⟩ := List.find?_eq_some_iff_append.mp hnext
    refine Or.inl ⟨front, next, rest, hsplit, ?_, of_decide_eq_true hlt, rfl⟩
    intro d hd
    exact not_lt.mp (by simpa using hfront d hd)
  case h_2 last hnone hlast =>
    obtain ⟨front, hsplit⟩ := List.getLast?_eq_some_iff.mp hlast
    refine Or.inr ⟨front, last, hsplit, ?_, rfl⟩
    intro d hd
    exact not_lt.mp (by simpa using List.find?_eq_none.mp hnone d hd)
  case h_3 _ hlast => exact absurd (List.getLast?_eq_none_iff.mp hlast) hne

/-- Some imports stand one behind the other, and have a byte each. -/
def InLine (ds : List Declared) : Prop :=
  ds.Pairwise (·.span.stop ≤ ·.span.start) ∧ ∀ d ∈ ds, d.span.start < d.span.stop

theorem InLine.filter {ds : List Declared} (h : InLine ds) (p : Declared → Bool) : InLine (ds.filter p) :=
  ⟨h.1.sublist List.filter_sublist, fun d hd => h.2 d (List.mem_of_mem_filter hd)⟩

theorem InLine.stop_le_last {front : List Declared} {last : Declared} (h : InLine (front ++ [last]))
    (hd : d ∈ front ++ [last]) : d.span.stop ≤ last.span.stop := by
  rcases List.mem_append.mp hd with hd | hd
  · have hapart := (List.pairwise_append.mp h.1).2.2 d hd last (List.mem_singleton_self last)
    have hbyte := h.2 last (by simp)
    omega
  · rw [List.mem_singleton.mp hd]

theorem InLine.start_le {front rest : List Declared} {next : Declared} (h : InLine (front ++ next :: rest))
    (hd : d ∈ next :: rest) : next.span.start ≤ d.span.start := by
  rcases List.mem_cons.mp hd with rfl | hd
  · exact Nat.le_refl _
  · have hapart := (List.pairwise_cons.mp (List.pairwise_append.mp h.1).2.1).1 d hd
    have hbyte := h.2 next (by simp)
    omega

/-- **A new import with a smaller path** comes to a place that is no later. -/
theorem place_mono (hline : InLine remaining) (hsort : j.isStatic = i.isStatic) (hle : j.path ≤ i.path) :
    (insertion t remaining vacated j).span.start ≤ (insertion t remaining vacated i).span.start := by
  have hsame : alike remaining j = alike remaining i := by
    unfold alike
    rw [hsort]
  by_cases hnone : alike remaining i = []
  · rw [span_insertion_of_none hnone hsort]
  · have hline : InLine (alike remaining i) := hline.filter _
    rcases insertion_among_alike t vacated hnone with
      ⟨front, next, rest, hi, -, hnext, hplace⟩ | ⟨front, last, hi, -, hplace⟩
    · have hmem : next ∈ alike remaining j := by
        rw [hsame, hi]
        exact List.mem_append_right front (List.mem_cons_self ..)
      rcases insertion_among_alike t vacated (hsame ▸ hnone) with
        ⟨front', next', rest', hj, hfront', -, hplace'⟩ | ⟨front', last', hj, hall', hplace'⟩
      · rw [hplace, hplace']
        rw [← hsame, hj] at hline
        rw [hj] at hmem
        rcases List.mem_append.mp hmem with hmem | hmem
        · exact absurd (lt_of_lt_of_le hnext (hfront' next hmem)) (not_lt.mpr hle)
        · exact hline.start_le hmem
      · exact absurd (lt_of_lt_of_le hnext (hall' next hmem)) (not_lt.mpr hle)
    · rcases insertion_among_alike t vacated (hsame ▸ hnone) with
        ⟨front', next', rest', hj, -, -, hplace'⟩ | ⟨front', last', hj, -, hplace'⟩
      · have hmem : next' ∈ front ++ [last] := by
          rw [← hi, ← hsame, hj]
          exact List.mem_append_right front' (List.mem_cons_self ..)
        rw [hi] at hline
        have hstop := hline.stop_le_last hmem
        have hbyte := hline.2 next' hmem
        omega
      · have hlast : last' = last := by
          have hends : front' ++ [last'] = front ++ [last] := by rw [← hj, hsame, hi]
          exact (List.append_inj' hends rfl).2 |> List.singleton_inj.mp
        rw [hplace, hplace', hlast]

/-- Of two imports of one sort, the one in front has a path that is no greater, if those of the sort are in order. -/
theorem path_le_of_start_lt (hline : InLine remaining) (hascending : Ascending remaining)
    (hd : d ∈ remaining) (hd' : d' ∈ remaining) (hsort : d.isStatic = d'.isStatic)
    (hlt : d.span.start < d'.span.start) : d.path ≤ d'.path := by
  let sort (e : Declared) : Bool := e.isStatic == d'.isStatic
  have hmem : d ∈ remaining.filter sort := List.mem_filter.mpr ⟨hd, beq_iff_eq.mpr hsort⟩
  have hmem' : d' ∈ remaining.filter sort := List.mem_filter.mpr ⟨hd', beq_self_eq_true _⟩
  have hpaths : (remaining.filter sort).Pairwise (·.path ≤ ·.path) := hascending d'.isStatic
  have hline := hline.filter sort
  obtain ⟨front, rest, hsplit⟩ := List.append_of_mem hmem'
  rw [hsplit] at hmem hpaths hline
  rcases List.mem_append.mp hmem with hfront | hrest
  · exact (List.pairwise_append.mp hpaths).2.2 d hfront d' (List.mem_cons_self ..)
  · exact absurd hlt (Nat.not_lt.mpr (hline.start_le hrest))

/-- An import of its sort behind a new one has a path that is no smaller, if those of the sort are in order. -/
theorem path_le_of_place_le (hline : InLine remaining) (hascending : Ascending remaining) (hd : d ∈ remaining)
    (hsort : d.isStatic = i.isStatic) (hplace : (insertion t remaining vacated i).span.start ≤ d.span.start) :
    i.path ≤ d.path := by
  have hmem : d ∈ alike remaining i := mem_alike.mpr ⟨hd, hsort⟩
  have hline : InLine (alike remaining i) := hline.filter _
  have hpaths : (alike remaining i).Pairwise (·.path ≤ ·.path) := hascending i.isStatic
  have hbyte := hline.2 d hmem
  rcases insertion_among_alike t vacated (List.ne_nil_of_mem hmem) with
    ⟨front, next, rest, hi, -, hnext, hstart⟩ | ⟨front, last, hi, -, hstart⟩
  · rw [hi] at hmem hline hpaths
    rcases List.mem_append.mp hmem with hfront | hrest
    · have hapart := (List.pairwise_append.mp hline.1).2.2 d hfront next (List.mem_cons_self ..)
      omega
    · rcases List.mem_cons.mp hrest with rfl | hrest
      · exact le_of_lt hnext
      · have hbehind := (List.pairwise_cons.mp (List.pairwise_append.mp hpaths).2.1).1 d hrest
        exact le_of_lt (lt_of_lt_of_le hnext hbehind)
  · rw [hi] at hmem hline
    have hstop := hline.stop_le_last hmem
    omega

/-- An import of its sort in front of a new one has a path that is no greater. -/
theorem path_le_of_lt_place (hline : InLine remaining) (hd : d ∈ remaining) (hsort : d.isStatic = i.isStatic)
    (hplace : d.span.start < (insertion t remaining vacated i).span.start) : d.path ≤ i.path := by
  have hmem : d ∈ alike remaining i := mem_alike.mpr ⟨hd, hsort⟩
  have hline : InLine (alike remaining i) := hline.filter _
  rcases insertion_among_alike t vacated (List.ne_nil_of_mem hmem) with
    ⟨front, next, rest, hi, hfront, -, hstart⟩ | ⟨front, last, -, hall, -⟩
  · rw [hi] at hmem hline
    rcases List.mem_append.mp hmem with hmem | hmem
    · exact hfront d hmem
    · have hbehind := hline.start_le hmem
      omega
  · exact hall d hmem

end Places

/-! ## Changes -/

/-- The import that the text has behind the change, without its place. -/
def Change.import? : Change → Option Declared
  | stays d => some d.plain
  | goes _ => none
  | comes i => some (ofSpec i)

theorem mem_changes_import? {before after : Tree} {wanted : List ImportSpec} {c : Change} {x : Declared}
    (hc : c ∈ changes before after wanted) (hx : c.import? = some x) :
    (∃ d ∈ kept before after, c = .stays d ∧ x = d.plain) ∨ ∃ i, c = .comes i ∧ x = ofSpec i := by
  rcases mem_changes hc with ⟨d, hd, rfl⟩ | ⟨d, -, rfl⟩ | ⟨i, -, rfl⟩
  · exact Or.inl ⟨d, hd, rfl, (Option.some.inj hx).symm⟩
  · exact absurd hx (by simp [Change.import?])
  · exact Or.inr ⟨i, rfl, (Option.some.inj hx).symm⟩

section Changes

variable {before after : Tree} {wanted : List ImportSpec} {ls : List Lexeme} {nodes : List Node}
  (h : Spelled after ls nodes)

include h

theorem inLine_declared : InLine (declared after) := by
  refine ⟨(pairwise_declared h).imp_of_mem ?_, fun d hd => (bounds_of_removal h hd).2.1⟩
  intro d d' hd _ hbehind
  exact Nat.le_trans (bounds_of_removal h hd).2.2 hbehind

/-- **Imports in order stay in order**: so are those that stay and those that come, in the order of the changes. -/
theorem ascending_arranged (hascending : Ascending (declared after)) :
    Ascending ((arranged before after wanted).filterMap Change.import?) := by
  have hline : InLine (kept before after) := (inLine_declared h).filter _
  have hkept : Ascending (kept before after) :=
    ascending_iff.mpr ((ascending_iff.mp hascending).sublist List.filter_sublist)
  refine ascending_iff.mpr (List.pairwise_filterMap.mpr ((pairwise_arranged h).imp_of_mem ?_))
  rintro a b ha hb ⟨hle, htie⟩ x hx y hy hsort
  rcases mem_changes_import? ((perm_arranged before after wanted).mem_iff.mp ha) hx with
    ⟨d, hd, rfl, rfl⟩ | ⟨i, rfl, rfl⟩
  · rcases mem_changes_import? ((perm_arranged before after wanted).mem_iff.mp hb) hy with
      ⟨d', hd', rfl, rfl⟩ | ⟨j, rfl, rfl⟩
    · have hlt : d.span.start < d'.span.start := start_lt_of_declared? rfl hle htie
      show d.path ≤ d'.path
      exact path_le_of_start_lt hline hkept hd hd' hsort hlt
    · have hlt : d.span.start < (insertion after (kept before after)
          ((gone before after).head?.map (·.span.start)) j).span.start := start_lt_of_declared? rfl hle htie
      show d.path ≤ j.path
      exact path_le_of_lt_place hline hd hsort hlt
  · rcases mem_changes_import? ((perm_arranged before after wanted).mem_iff.mp hb) hy with
      ⟨d', hd', rfl, rfl⟩ | ⟨j, rfl, rfl⟩
    · show i.path ≤ d'.path
      exact path_le_of_place_le hline hkept hd' hsort.symm hle
    · show i.path ≤ j.path
      by_cases hpaths : i.path ≤ j.path
      · exact hpaths
      · -- the second one, with the smaller path, comes no later than the first, so that they have one place
        have hback : (insertion after (kept before after)
            ((gone before after).head?.map (·.span.start)) j).span.start ≤
              (insertion after (kept before after) ((gone before after).head?.map (·.span.start)) i).span.start :=
          place_mono hline hsort.symm (le_of_lt (not_le.mp hpaths))
        exact htie (Nat.le_antisymm hle hback)

end Changes

/-- **Imports in order stay in order.** If the imports of each sort stand in ascending order of paths, the text is made
    at once by the changes of its imports, in some order of their places; and in this order the imports of each sort,
    those that stay and those that come together, are in ascending order of paths again. -/
theorem fix?_ascending {source out : String} {before after : Tree} {wanted : List ImportSpec}
    (hafter : Java.parse? source = some after) (hascending : Ascending (declared after))
    (hout : fix? before after wanted = some out) :
    ∃ cs : List Change, cs.Perm (changes before after wanted) ∧
      (∀ i ∈ added after wanted, Inserts i ((Change.comes i).edit before after)) ∧
      Text.applyAtOnce 0 (cs.map (Change.edit before after)) source.toList = some out.toList ∧
      Ascending (cs.filterMap Change.import?) := by
  obtain ⟨rfl, ls, nodes, h⟩ := Java.spelled_of_parse? hafter
  exact ⟨arranged before after wanted, perm_arranged .., fun i _ => (insertion_spec ..).1,
    applyAtOnce_arranged h hout, ascending_arranged h hascending⟩

/-- Two imports that come to one place, in the stead of one that goes and in front of one that stays. -/
theorem fix?_ascending_between : ∃ (before after : Tree) (cs : List Change),
    Java.parse? "import a.A;\nimport d.D;\nclass T { B b; C c; D d; }" = some after ∧
    Ascending (declared after) ∧
    fix? before after [⟨"c.C", false⟩, ⟨"b.B", false⟩] =
      some "import b.B;\nimport c.C;\nimport d.D;\nclass T { B b; C c; D d; }" ∧
    cs.length = 4 ∧
    Text.applyAtOnce 0 (cs.map (Change.edit before after))
      "import a.A;\nimport d.D;\nclass T { B b; C c; D d; }".toList =
        some "import b.B;\nimport c.C;\nimport d.D;\nclass T { B b; C c; D d; }".toList ∧
    Ascending (cs.filterMap Change.import?) := by
  have h : ((Java.parse? "import a.A;\nimport d.D;\nclass T { A a; D d; }").any fun before =>
      (Java.parse? "import a.A;\nimport d.D;\nclass T { B b; C c; D d; }").any fun after =>
        decide (Ascending (declared after)) && (changes before after [⟨"c.C", false⟩, ⟨"b.B", false⟩]).length == 4 &&
          fix? before after [⟨"c.C", false⟩, ⟨"b.B", false⟩] ==
            some "import b.B;\nimport c.C;\nimport d.D;\nclass T { B b; C c; D d; }") = true := by
    decide +kernel
  obtain ⟨before, -, h⟩ := (Option.any_eq_true _ _).mp h
  obtain ⟨after, hafter, h⟩ := (Option.any_eq_true _ _).mp h
  obtain ⟨h, hout⟩ := (Bool.and_eq_true _ _).mp h
  obtain ⟨hascending, hlength⟩ := (Bool.and_eq_true _ _).mp h
  have hascending := of_decide_eq_true hascending
  have hout := beq_iff_eq.mp hout
  obtain ⟨cs, hperm, -, honce, hcs⟩ := fix?_ascending hafter hascending hout
  exact ⟨before, after, cs, hafter, hascending, hout, hperm.length_eq.trans (beq_iff_eq.mp hlength), honce, hcs⟩

end JavaRefactor.Imports

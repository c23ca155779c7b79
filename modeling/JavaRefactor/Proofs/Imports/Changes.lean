import JavaRefactor.Proofs.Imports.Edits
import JavaRefactor.Proofs.Text.Edit

/-!
# `Proofs.Imports.Changes` — what becomes of the imports, in the order of their places

The edits are made one after the other, from the last place to the first, and where several have one place the
removal is made before what is put in there. No import is put into what a removal takes out, so that all of them
fit and the changes are the same as if they were made at once.

An import that stays counts as a change that puts in what it takes out. So the changes are in the order of the imports
of the text.

## Contents
- **`Change`** with `Change.edit`; **`changes`**, all of a file, and `arranged`, in the order of their places.
- **Order.** `pairwise_arranged`: of imports that come to one place the last path stands last; `apart_arranged`.
- **`applyAtOnce_edits`** and **`applyAtOnce_arranged`**: the changes are made at once.
-/

namespace JavaRefactor.Imports

open Java (Lexeme Spelled)
open Syntax (Node Tree)
open Text (Edit Span byteLength)

/-! ## Changes -/

/-- What becomes of an import. -/
inductive Change where
  | stays (d : Declared)
  | goes (d : Declared)
  | comes (i : ImportSpec)

namespace Change

/-- The edit of a change; what stays is put in as it was. -/
def edit (before after : Tree) : Change → Edit
  | stays d => ⟨d.span, (after.slice d.span).toList⟩
  | goes d => removal after.source.toList d
  | comes i => insertion after (kept before after) ((gone before after).head?.map (·.span.start)) i

/-- The import of the file that the change is about. -/
def declared? : Change → Option Declared
  | stays d => some d
  | goes d => some d
  | comes _ => none

/-- Whether the change makes another text. -/
def isEdit : Change → Bool
  | stays _ => false
  | _ => true

/-- How changes at one place follow one another: the second puts an import in, and if the first does as well, it is
    one whose path is no greater. -/
def Tie : Change → Change → Prop
  | comes i, comes j => j.path ≤ i.path
  | _, comes _ => True
  | _, _ => False

/-- The second of two changes at one place is about no import of the file. -/
theorem Tie.declared?_eq_none {a b : Change} (h : a.Tie b) : b.declared? = none := by
  cases b with
  | stays d => cases a <;> exact h.elim
  | goes d => cases a <;> exact h.elim
  | comes i => rfl

theorem exists_comes {c : Change} (h : c.declared? = none) : ∃ i, c = .comes i := by
  cases c with
  | stays d => exact absurd h (by simp [declared?])
  | goes d => exact absurd h (by simp [declared?])
  | comes i => exact ⟨i, rfl⟩

end Change

/-- The changes of a file: of the imports that stay, of those that go, and of those that come. -/
def changes (before after : Tree) (wanted : List ImportSpec) : List Change :=
  (kept before after).map .stays ++ (gone before after).map .goes ++ (added after wanted).map .comes

/-- The changes in the order of their places. -/
def arranged (before after : Tree) (wanted : List ImportSpec) : List Change :=
  (sortWith (fun a b => Nat.ble (b.edit before after).span.start (a.edit before after).span.start)
    (changes before after wanted)).reverse

theorem perm_arranged (before after : Tree) (wanted : List ImportSpec) :
    (arranged before after wanted).Perm (changes before after wanted) :=
  (List.reverse_perm _).trans (perm_sortWith _)

theorem edits_eq_changes (before after : Tree) (wanted : List ImportSpec) :
    edits before after wanted =
      ((changes before after wanted).filter Change.isEdit).map (Change.edit before after) := by
  have hstays : ((kept before after).map Change.stays).filter Change.isEdit = [] := by
    refine List.filter_eq_nil_iff.mpr ?_
    intro c hc
    obtain ⟨d, -, rfl⟩ := List.mem_map.mp hc
    exact Bool.false_ne_true
  have hgoes : ((gone before after).map Change.goes).filter Change.isEdit = (gone before after).map .goes := by
    refine List.filter_eq_self.mpr ?_
    intro c hc
    obtain ⟨d, -, rfl⟩ := List.mem_map.mp hc
    rfl
  have hcomes : ((added after wanted).map Change.comes).filter Change.isEdit = (added after wanted).map .comes := by
    refine List.filter_eq_self.mpr ?_
    intro c hc
    obtain ⟨i, -, rfl⟩ := List.mem_map.mp hc
    rfl
  unfold changes
  rw [edits_eq, List.filter_append, List.filter_append, hstays, hgoes, hcomes, List.nil_append, List.map_append,
    List.map_map, List.map_map]
  rfl

/-- The edits in the order of their places. -/
def arrangedEdits (before after : Tree) (wanted : List ImportSpec) : List Edit :=
  ((arranged before after wanted).filter Change.isEdit).map (Change.edit before after)

theorem perm_arrangedEdits (before after : Tree) (wanted : List ImportSpec) :
    (arrangedEdits before after wanted).Perm (edits before after wanted) := by
  rw [edits_eq_changes]
  exact ((perm_arranged before after wanted).filter Change.isEdit).map (Change.edit before after)

/-- The edits are sorted with the last place first. -/
theorem sortWith_edits (before after : Tree) (wanted : List ImportSpec) :
    sortWith (fun d e => Nat.ble e.span.start d.span.start) (edits before after wanted) =
      (arrangedEdits before after wanted).reverse := by
  let start (c : Change) : Nat := (c.edit before after).span.start
  let falling (a b : Change) : Bool := Nat.ble (start b) (start a)
  have hfilter : (sortWith falling (changes before after wanted)).filter Change.isEdit =
      sortWith falling ((changes before after wanted).filter Change.isEdit) :=
    filter_sortWith (fun a b => ble_key_total start b a) (fun a b c hab hbc => ble_key_trans start c b a hbc hab)
      Change.isEdit _
  have hmap : (sortWith falling ((changes before after wanted).filter Change.isEdit)).map (Change.edit before after) =
      sortWith (fun d e => Nat.ble e.span.start d.span.start)
        (((changes before after wanted).filter Change.isEdit).map (Change.edit before after)) := by
    refine map_sortWith ?_ _
    intro a b
    rfl
  show _ = (((sortWith falling (changes before after wanted)).reverse.filter _).map _).reverse
  rw [edits_eq_changes, List.filter_reverse, List.map_reverse, List.reverse_reverse, hfilter, hmap]

section Changes

variable {before after : Tree} {wanted : List ImportSpec} {c : Change} {d d' : Declared} {i : ImportSpec}

theorem mem_changes (hc : c ∈ changes before after wanted) :
    (∃ d ∈ kept before after, c = .stays d) ∨ (∃ d ∈ gone before after, c = .goes d) ∨
      ∃ i ∈ added after wanted, c = .comes i := by
  unfold changes at hc
  rcases List.mem_append.mp hc with hc | hc
  · rcases List.mem_append.mp hc with hc | hc
    · obtain ⟨d, hd, rfl⟩ := List.mem_map.mp hc
      exact Or.inl ⟨d, hd, rfl⟩
    · obtain ⟨d, hd, rfl⟩ := List.mem_map.mp hc
      exact Or.inr (Or.inl ⟨d, hd, rfl⟩)
  · obtain ⟨i, hi, rfl⟩ := List.mem_map.mp hc
    exact Or.inr (Or.inr ⟨i, hi, rfl⟩)

theorem start_of_declared? (before after : Tree) (hd : c.declared? = some d) :
    (c.edit before after).span.start = d.span.start := by
  cases c with
  | stays d => obtain rfl := Option.some.inj hd; rfl
  | goes d => obtain rfl := Option.some.inj hd; rfl
  | comes i => exact absurd hd (by simp [Change.declared?])

theorem mem_declared_of_changes (hc : c ∈ changes before after wanted) (hd : c.declared? = some d) :
    d ∈ declared after := by
  rcases mem_changes hc with ⟨d', hd', rfl⟩ | ⟨d', hd', rfl⟩ | ⟨i, -, rfl⟩
  · obtain rfl := Option.some.inj hd
    exact List.mem_of_mem_filter hd'
  · obtain rfl := Option.some.inj hd
    exact List.mem_of_mem_filter hd'
  · exact absurd hd (by simp [Change.declared?])

/-- A change of an import of the file stands in front of those that are sorted behind it. -/
theorem start_lt_of_declared? {a b : Change} (hd : a.declared? = some d)
    (hle : (a.edit before after).span.start ≤ (b.edit before after).span.start)
    (htie : (a.edit before after).span.start = (b.edit before after).span.start → b.Tie a) :
    (a.edit before after).span.start < (b.edit before after).span.start := by
  refine Nat.lt_of_le_of_ne hle fun hsame => ?_
  rw [(htie hsame).declared?_eq_none] at hd
  exact absurd hd (by simp)

/-! ## Order -/

section Order

variable {ls : List Lexeme} {nodes : List Node} (h : Spelled after ls nodes)

include h

/-- No two imports of a file stand at one place, whether they stay or go. -/
theorem pairwise_start_ne (before : Tree) : (kept before after ++ gone before after).Pairwise fun d d' =>
    d.span.start ≠ d'.span.start := by
  refine ((perm_declared before after).pairwise_iff fun hne => hne.symm).mpr ((pairwise_declared h).imp_of_mem ?_)
  intro d d' hd _ hbehind
  obtain ⟨-, hbyte, hstop⟩ := bounds_of_removal h hd
  omega

theorem pairwise_changes : (changes before after wanted).Pairwise fun a b =>
    (a.edit before after).span.start = (b.edit before after).span.start → a.Tie b := by
  obtain ⟨hkept, hgone, hboth⟩ := List.pairwise_append.mp (pairwise_start_ne h before)
  unfold changes
  refine List.pairwise_append.mpr ⟨List.pairwise_append.mpr ⟨?_, ?_, ?_⟩, ?_, ?_⟩
  · refine List.pairwise_map.mpr (hkept.imp ?_)
    intro d d' hne hsame
    exact absurd hsame hne
  · refine List.pairwise_map.mpr (hgone.imp ?_)
    intro d d' hne hsame
    exact absurd hsame hne
  · intro a ha b hb hsame
    obtain ⟨d, hd, rfl⟩ := List.mem_map.mp ha
    obtain ⟨d', hd', rfl⟩ := List.mem_map.mp hb
    exact absurd hsame (hboth d hd d' hd')
  · refine List.pairwise_map.mpr ((pairwise_added after wanted).imp ?_)
    intro i j hle _
    exact hle
  · intro a ha b hb _
    obtain ⟨j, -, rfl⟩ := List.mem_map.mp hb
    rcases List.mem_append.mp ha with ha | ha
    · obtain ⟨d, -, rfl⟩ := List.mem_map.mp ha
      trivial
    · obtain ⟨d, -, rfl⟩ := List.mem_map.mp ha
      trivial

/-- **The changes in the order of their places**, and those at one place the other way round. -/
theorem pairwise_arranged : (arranged before after wanted).Pairwise fun a b =>
    (a.edit before after).span.start ≤ (b.edit before after).span.start ∧
      ((a.edit before after).span.start = (b.edit before after).span.start → b.Tie a) := by
  let start (c : Change) : Nat := (c.edit before after).span.start
  have hlist : (changes before after wanted).Pairwise fun a b => Nat.ble (start a) (start b) = true →
      start a = start b → a.Tie b := by
    refine (pairwise_changes h).imp ?_
    intro a b htie _
    exact htie
  unfold arranged
  refine List.pairwise_reverse.mpr ((pairwise_sortWith (fun a b => ble_key_total start b a)
    (fun a b c hab hbc => ble_key_trans start c b a hbc hab) hlist).imp ?_)
  rintro a b ⟨hle, htie⟩
  rw [Nat.ble_eq] at hle
  exact ⟨hle, fun hsame => htie (by rw [Nat.ble_eq]; exact Nat.le_of_eq hsame.symm) hsame.symm⟩

/-- The edit of a change of an import takes it up to what a removal of it takes. -/
theorem stop_of_declared? (before : Tree) (hd : d ∈ declared after) (hc : c.declared? = some d) :
    (c.edit before after).span.stop ≤ (removal after.source.toList d).span.stop := by
  cases c with
  | stays d' =>
      obtain rfl := Option.some.inj hc
      exact (bounds_of_removal h hd).2.2
  | goes d' =>
      obtain rfl := Option.some.inj hc
      exact Nat.le_refl _
  | comes i => exact absurd hc (by simp [Change.declared?])

variable {a b : Change}

/-- Changes of imports of the file are apart. -/
theorem apart_of_declared (ha : a ∈ changes before after wanted) (hb : b ∈ changes before after wanted)
    (hd : a.declared? = some d) (hd' : b.declared? = some d')
    (hlt : (a.edit before after).span.start < (b.edit before after).span.start) :
    (a.edit before after).span.stop ≤ (b.edit before after).span.start := by
  have hmem := mem_declared_of_changes ha hd
  have hmem' := mem_declared_of_changes hb hd'
  have hstop := stop_of_declared? h before hmem hd
  rw [start_of_declared? before after hd, start_of_declared? before after hd'] at hlt
  rw [start_of_declared? before after hd']
  have hne : d ≠ d' := by
    rintro rfl
    exact Nat.lt_irrefl _ hlt
  obtain ⟨-, hbyte', hend'⟩ := bounds_of_removal h hmem'
  rcases removal_apart h hmem hmem' hne with hapart | hapart
  · exact Nat.le_trans hstop hapart
  · omega

/-- An import that comes behind the start of another one comes behind what is made of that. -/
theorem apart_of_comes (ha : a ∈ changes before after wanted) (hd : a.declared? = some d)
    (hlt : (a.edit before after).span.start < ((Change.comes i).edit before after).span.start) :
    (a.edit before after).span.stop ≤ ((Change.comes i).edit before after).span.start := by
  have hplace := (insertion_spec after (kept before after) ((gone before after).head?.map (·.span.start)) i).2
  have hmem := mem_declared_of_changes ha hd
  rw [start_of_declared? before after hd] at hlt
  rcases mem_changes ha with ⟨d', -, rfl⟩ | ⟨d', hgone, rfl⟩ | ⟨j, -, rfl⟩
  · obtain rfl := Option.some.inj hd
    rcases isPlace_outside h hmem hplace with hfront | hbehind
    · exact absurd hlt (Nat.not_lt.mpr hfront)
    · exact hbehind
  · obtain rfl := Option.some.inj hd
    rcases isPlace_apart h hgone hplace with hfront | hbehind
    · exact absurd hlt (Nat.not_lt.mpr hfront)
    · exact hbehind
  · exact absurd hd (by simp [Change.declared?])

/-- **The changes in the order of their places** are apart from each other. -/
theorem apart_arranged : (arranged before after wanted).Pairwise fun a b =>
    (a.edit before after).span.stop ≤ (b.edit before after).span.start := by
  refine (pairwise_arranged h).imp_of_mem ?_
  rintro a b ha hb ⟨hle, htie⟩
  have ha := (perm_arranged before after wanted).mem_iff.mp ha
  have hb := (perm_arranged before after wanted).mem_iff.mp hb
  cases hda : a.declared? with
  | none =>
      -- an import that comes takes nothing out of the text
      obtain ⟨i, rfl⟩ := Change.exists_comes hda
      have hempty : ((Change.comes i).edit before after).span.start = ((Change.comes i).edit before after).span.stop :=
        (insertion_spec ..).1.1
      rw [← hempty]
      exact hle
  | some d =>
      have hlt : (a.edit before after).span.start < (b.edit before after).span.start :=
        start_lt_of_declared? hda hle htie
      cases hdb : b.declared? with
      | none =>
          obtain ⟨i, rfl⟩ := Change.exists_comes hdb
          exact apart_of_comes h ha hda hlt
      | some d' => exact apart_of_declared h ha hb hda hdb hlt

/-- Every change takes a piece out of the text, and what stays puts the same piece in. -/
theorem cuts_of_mem_changes (hc : c ∈ changes before after wanted) :
    ∃ middle, (c.edit before after).span.Cuts after.source.toList middle ∧
      (c.isEdit = false → (c.edit before after).text = middle) := by
  by_cases hedit : c.isEdit = true
  · have hmem : c.edit before after ∈ edits before after wanted := by
      rw [edits_eq_changes]
      exact List.mem_map_of_mem (List.mem_filter.mpr ⟨hc, hedit⟩)
    obtain ⟨middle, hmiddle⟩ := cuts_of_mem_edits h hmem
    exact ⟨middle, hmiddle, fun hnot => absurd hedit (by simp [hnot])⟩
  · cases c with
    | stays d =>
        obtain ⟨⟨middle, hmiddle⟩, -⟩ := cuts_of_mem_declared h (mem_declared_of_changes hc rfl)
        refine ⟨middle, hmiddle, fun _ => ?_⟩
        show (Text.slice after.source d.span).toList = middle
        rw [Text.slice_of_cuts hmiddle, String.toList_ofList]
    | goes d => exact absurd rfl hedit
    | comes i => exact absurd rfl hedit

theorem apart_arrangedEdits :
    (arrangedEdits before after wanted).Pairwise fun d e => d.span.stop ≤ e.span.start :=
  List.pairwise_map.mpr ((apart_arranged h).sublist List.filter_sublist)

end Order

/-! ## At once -/

section AtOnce

variable {ls : List Lexeme} {nodes : List Node} {out : String} (h : Spelled after ls nodes)
  (hout : fix? before after wanted = some out)

include h hout

/-- **The edits are made at once**, in the order of their places. -/
theorem applyAtOnce_edits :
    Text.applyAtOnce 0 (arrangedEdits before after wanted) after.source.toList = some out.toList := by
  unfold fix? at hout
  split at hout
  · exact absurd hout (by simp)
  · obtain rfl := Option.some.inj hout
    have hcuts : ∀ e ∈ arrangedEdits before after wanted, ∃ middle, e.span.Cuts after.source.toList middle :=
      fun e he => cuts_of_mem_edits h ((perm_arrangedEdits before after wanted).mem_iff.mp he)
    obtain ⟨out, honce, hfromEnd⟩ := Text.applyFromEnd_eq_applyAtOnce hcuts (apart_arrangedEdits h)
    have hfits := Text.applyWhereFits_of_applyFromEnd hfromEnd
    rw [← sortWith_edits] at hfits
    rw [String.toList_ofList, hfits]
    exact honce

/-- **The changes are made at once**, in the order of their places; what stays may be left out. -/
theorem applyAtOnce_arranged :
    Text.applyAtOnce 0 ((arranged before after wanted).map (Change.edit before after)) after.source.toList =
      some out.toList := by
  have hcuts : ∀ c ∈ arranged before after wanted, byteLength [] ≤ (c.edit before after).span.start ∧
      ∃ middle, (c.edit before after).span.Cuts ([] ++ after.source.toList) middle ∧
        (c.isEdit = false → (c.edit before after).text = middle) := by
    intro c hc
    exact ⟨Nat.zero_le _, cuts_of_mem_changes h ((perm_arranged before after wanted).mem_iff.mp hc)⟩
  rw [← applyAtOnce_edits h hout]
  exact (Text.applyAtOnce_filter [] hcuts (apart_arranged h)).symm

end AtOnce

end Changes

end JavaRefactor.Imports

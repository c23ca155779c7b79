import JavaRefactor.Disk.Basic
import JavaRefactor.Proofs.Attempts

/-!
# `Proofs.Disk.Replace` — what a new text changes on a disk, and what it leaves as it is

A file that gets another text stays a file at its place. So no path leads anywhere else than before, and
nothing at any other place is touched.

## Contents
- **Finding.** `entry?_eq_file`, `entry?_of_locate`; `SamePlaces`, that all paths of two disks lead to the
  same places.
- **Writing.** `withText`, and `replace_eq_ok`: replacing a text gives that disk or fails.
- **What has changed.** `entry?_withText`, `samePlaces_withText`, `read_withText`.
-/

namespace JavaRefactor.Disk

variable {d d' : Disk} {path text : String} {place p : List String} {content : Content}

/-! ## Finding -/

/-- A file is one of the entries, and not above the working directory. -/
theorem entry?_eq_file : d.entry? place = some (.file content) ↔
    place.isPrefixOf d.home = false ∧ d.entries.lookup place = some (.file content) := by
  unfold entry?
  by_cases hhome : place.isPrefixOf d.home = true
  · rw [if_pos hhome]
    simp [hhome]
  · rw [if_neg hhome]
    cases hentry : d.entries.lookup place with
    | some e => simp [hhome]
    | none => simp

/-- What a path leads to is what is at its place. -/
theorem entry?_of_locate {e : Entry} (h : d.locate path = .ok (place, e)) :
    d.entry? place = some e := by
  unfold locate at h
  split at h
  · exact absurd h (by simp)
  · split at h
    · exact absurd h (by simp)
    · split at h
      · rename_i hentry
        obtain ⟨rfl, rfl⟩ := Prod.mk.inj (Except.ok.inj h)
        exact hentry
      · exact absurd h (by simp)

/-- Each path leads to the same place on both disks, or fails on both in the same way. -/
def SamePlaces (d d' : Disk) : Prop :=
  ∀ path, (d'.locate path).map Prod.fst = (d.locate path).map Prod.fst

namespace SamePlaces

theorem refl (d : Disk) : SamePlaces d d := fun _ => rfl

theorem trans {d'' : Disk} (h : SamePlaces d d') (h' : SamePlaces d' d'') : SamePlaces d d'' :=
  fun path => (h' path).trans (h path)

/-- Paths that tell files apart on the one disk do so on the other. -/
theorem identify_eq (h : SamePlaces d d') (path : String) : d'.identify path = d.identify path := by
  have hpath := h path
  unfold identify
  cases hd : d.locate path with
  | error f =>
      rw [hd] at hpath
      rw [Attempts.map_eq_error.mp hpath]
  | ok found =>
      rw [hd] at hpath
      obtain ⟨⟨place, e⟩, hd', hplace⟩ := Attempts.map_eq_ok.mp hpath
      obtain rfl : place = found.1 := hplace
      rw [hd']

/-- A path leads to the same if there is the same at its place. -/
theorem locate_eq (h : SamePlaces d d')
    (hentry : ∀ place, d.identify path = .place place → d'.entry? place = d.entry? place) :
    d'.locate path = d.locate path := by
  have hpath := h path
  cases hd : d.locate path with
  | error f =>
      rw [hd] at hpath
      exact Attempts.map_eq_error.mp hpath
  | ok found =>
      obtain ⟨place, e⟩ := found
      rw [hd] at hpath
      obtain ⟨⟨place', e'⟩, hd', hplace⟩ := Attempts.map_eq_ok.mp hpath
      obtain rfl : place' = place := hplace
      have hidentify : d.identify path = .place place' := by
        unfold identify
        rw [hd]
      have he := hentry place' hidentify
      rw [entry?_of_locate hd, entry?_of_locate hd'] at he
      rw [hd', Option.some.inj he]

end SamePlaces

/-! ## Writing -/

/-- The disk with another text in the file at a place. -/
def withText (d : Disk) (place : List String) (text : String) : Disk :=
  { d with entries := d.entries.map fun (p, e) =>
      if p = place then (p, .file (.text text)) else (p, e) }

/-- Only a file can get another text, and it can. -/
theorem replace_eq_ok : d.replace path text = .ok d' ↔
    ∃ place content, d.locate path = .ok (place, .file content) ∧ d' = d.withText place text := by
  unfold replace
  cases hd : d.locate path with
  | error f => simp
  | ok found =>
      obtain ⟨place, e⟩ := found
      cases e with
      | directory => simp
      | file content =>
          constructor
          · intro h
            exact ⟨place, content, rfl, (Except.ok.inj h).symm⟩
          · rintro ⟨place', content', hfound, rfl⟩
            obtain ⟨rfl, -⟩ := Prod.mk.inj (Except.ok.inj hfound)
            rfl

/-! ## What has changed -/

theorem lookup_withText (d : Disk) (place : List String) (text : String) (p : List String) :
    (d.withText place text).entries.lookup p =
      (d.entries.lookup p).map fun e => if p = place then .file (.text text) else e := by
  show (d.entries.map _).lookup p = _
  induction d.entries with
  | nil => rfl
  | cons entry entries ih =>
      obtain ⟨q, e⟩ := entry
      rw [List.map_cons]
      show ((if q = place then (q, Entry.file (.text text)) else (q, e)) :: _).lookup p = _
      by_cases hq : q = place
      · subst hq
        rw [if_pos rfl, List.lookup_cons, List.lookup_cons]
        by_cases hp : p = q
        · subst hp
          simp
        · have hne : (p == q) = false := by simpa using hp
          rw [hne]
          exact ih
      · rw [if_neg hq, List.lookup_cons, List.lookup_cons]
        by_cases hp : p = q
        · subst hp
          simp [hq]
        · have hne : (p == q) = false := by simpa using hp
          rw [hne]
          exact ih

/-- **A new text changes what is at its place** and at no other. -/
theorem entry?_withText (h : d.entry? place = some (.file content)) (text : String)
    (p : List String) : entry? (d.withText place text) p =
      if p = place then some (.file (.text text)) else d.entry? p := by
  obtain ⟨hhome, hfile⟩ := entry?_eq_file.mp h
  by_cases hp : p = place
  · subst hp
    rw [if_pos rfl, entry?_eq_file]
    refine ⟨hhome, ?_⟩
    rw [lookup_withText, hfile]
    simp
  · have hany : (d.withText place text).entries.any (p.isPrefixOf ·.1) =
        d.entries.any (p.isPrefixOf ·.1) := by
      show (d.entries.map _).any _ = _
      rw [List.any_map]
      congr 1
      funext entry
      by_cases hq : entry.1 = place
      · simp [hq]
      · simp [hq]
    have hhome' : (d.withText place text).home = d.home := rfl
    rw [if_neg hp]
    unfold entry?
    rw [lookup_withText, hany, hhome']
    simp [hp]

/-- Names lead to the same place, since the file is in the way as before. -/
theorem follow_withText (h : d.entry? place = some (.file content)) (text : String)
    (p : List String) (names : List String) :
    (d.withText place text).follow p names = d.follow p names := by
  induction names generalizing p with
  | nil => rfl
  | cons name names ih =>
      unfold follow
      rw [entry?_withText h]
      by_cases hp : p = place
      · subst hp
        rw [if_pos rfl, h]
      · rw [if_neg hp]
        simp only [ih]

/-- **A new text leads no path anywhere else.** -/
theorem samePlaces_withText (h : d.entry? place = some (.file content)) (text : String) :
    SamePlaces d (d.withText place text) := by
  intro path
  have hhome : (d.withText place text).home = d.home := rfl
  unfold locate
  rw [hhome]
  by_cases hempty : (path == "") = true
  · rw [if_pos hempty, if_pos hempty]
  · rw [if_neg hempty, if_neg hempty, follow_withText h]
    cases d.follow (if isAbsolute path then [] else d.home) (parts path) with
    | error f => rfl
    | ok p =>
        simp only [entry?_withText h]
        by_cases hp : p = place
        · subst hp
          rw [if_pos rfl, h]
          rfl
        · rw [if_neg hp]

/-- **The file holds its new text.** -/
theorem read_withText (h : d.locate path = .ok (place, .file content)) (text : String) :
    (d.withText place text).read path = .ok text := by
  have hentry := entry?_of_locate h
  have hpath := samePlaces_withText hentry text path
  rw [h] at hpath
  obtain ⟨⟨place', e⟩, hfound, hplace⟩ := Attempts.map_eq_ok.mp hpath
  obtain rfl : place' = place := hplace
  have he := entry?_of_locate hfound
  rw [entry?_withText hentry, if_pos rfl] at he
  obtain rfl := Option.some.inj he
  unfold read
  rw [hfound]

end JavaRefactor.Disk

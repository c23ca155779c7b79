import JavaRefactor.Proofs.Batch.Schedule
import JavaRefactor.Proofs.Disk.Replace
import Mathlib.Data.List.Nodup

/-!
# `Proofs.Batch.Commit` — what a commit writes

The new texts are written file by file. Each writing keeps every path where it led, and no two files of a
batch are at one place, so that a text which has been written is not written over again.

## Contents
- **Writing.** `Written`, the disk behind some files of a report; `Written.cons_of_none` and
  `Written.cons_of_some`, one file more.
- **Stopping.** `Ends`, and `commitFiles_written`: the files in front of the stop are written.
- **Batches.** `Committed`, and `commitWith_committed`: the disk behind the commit of a batch.
-/

namespace JavaRefactor.Batch

open Disk (Access)

variable {access : Access} {d next after : Disk} {f : FileReport} {output : String}
  {written rest files : List FileReport}

/-! ## Writing -/

/-- The new texts of some files are on a disk, and what is elsewhere is as before. -/
structure Written (d after : Disk) (written : List FileReport) : Prop where
  places : Disk.SamePlaces d after
  others : ∀ place, (∀ f ∈ written, f.output.isSome = true → d.identify f.path ≠ .place place) →
    after.entry? place = d.entry? place
  texts : ∀ f ∈ written, ∀ output, f.output = some output → after.read f.path = .ok output

theorem Written.nil (d : Disk) : Written d d [] :=
  ⟨Disk.SamePlaces.refl d, fun _ _ => rfl, by simp⟩

/-- A file without a new text changes nothing. -/
theorem Written.cons_of_none (hf : f.output = none) (h : Written d after written) :
    Written d after (f :: written) := by
  refine ⟨h.places, ?_, ?_⟩
  · intro place hplace
    refine h.others place ?_
    intro g hg
    exact hplace g (List.mem_cons_of_mem _ hg)
  · intro g hg output hout
    rcases List.mem_cons.mp hg with rfl | hg
    · rw [hf] at hout
      exact absurd hout (by simp)
    · exact h.texts g hg output hout

/-- A text that is written first stays if the files behind are others. -/
theorem Written.cons_of_some (hf : f.output = some output)
    (hreplace : d.replace f.path output = .ok next)
    (hothers : ∀ g ∈ written, d.identify g.path ≠ d.identify f.path)
    (h : Written next after written) : Written d after (f :: written) := by
  obtain ⟨place, content, hlocate, rfl⟩ := Disk.replace_eq_ok.mp hreplace
  have hentry := Disk.entry?_of_locate hlocate
  have hplaces := Disk.samePlaces_withText hentry output
  have hidentify : d.identify f.path = .place place := by
    unfold Disk.identify
    rw [hlocate]
  refine ⟨hplaces.trans h.places, ?_, ?_⟩
  · intro p hp
    have hne : p ≠ place := by
      rintro rfl
      exact hp f (by simp) (by simp [hf]) hidentify
    have hbehind : after.entry? p = Disk.entry? (d.withText place output) p := by
      refine h.others p ?_
      intro g hg hsome
      rw [hplaces.identify_eq]
      exact hp g (List.mem_cons_of_mem _ hg) hsome
    rw [hbehind, Disk.entry?_withText hentry, if_neg hne]
  · intro g hg text htext
    rcases List.mem_cons.mp hg with rfl | hg
    · obtain rfl : output = text := Option.some.inj (hf.symm.trans htext)
      have hsame : after.locate g.path = (d.withText place output).locate g.path := by
        refine h.places.locate_eq ?_
        intro p hp
        refine h.others p ?_
        intro other hother _ hplace
        rw [hplaces.identify_eq] at hp hplace
        exact hothers other hother (hplace.trans hp.symm)
      have hread := Disk.read_withText hlocate output
      unfold Disk.read at hread ⊢
      rw [hsame]
      exact hread
    · exact h.texts g hg text htext

/-! ## Stopping -/

/-- Nothing is left to write; or the first file that is left has a new text, and this cannot be written. -/
def Ends (access : Access) (after : Disk) (count : Nat) (rest : List FileReport)
    (result : Except Failure Nat) : Prop :=
  rest = [] ∧ result = .ok count ∨
    ∃ f fs output fault, rest = f :: fs ∧ f.output = some output ∧
      access.write after f.path output = .error fault ∧ result = .error (.unwritable f.path fault)

theorem commitFiles_none {count : Nat} (hf : f.output = none) :
    commitFiles access.write (f :: files) d count = commitFiles access.write files d count := by
  simp only [commitFiles, hf]

theorem commitFiles_ok {count : Nat} (hf : f.output = some output)
    (hw : access.write d f.path output = .ok next) :
    commitFiles access.write (f :: files) d count =
      commitFiles access.write files next (count + 1) := by
  simp only [commitFiles, hf, hw]

theorem commitFiles_error {count : Nat} {fault : Disk.Fault} (hf : f.output = some output)
    (hw : access.write d f.path output = .error fault) :
    commitFiles access.write (f :: files) d count = (d, .error (.unwritable f.path fault)) := by
  simp only [commitFiles, hf, hw]

/-- **The files in front of the stop are written.** -/
theorem commitFiles_written (access : Access)
    (hfiles : (files.map fun f => d.identify f.path).Nodup) (count : Nat) :
    ∃ written rest, files = written ++ rest ∧
      Written d (commitFiles access.write files d count).1 written ∧
      Ends access (commitFiles access.write files d count).1
        (count + files.countP fun f => f.output.isSome) rest
        (commitFiles access.write files d count).2 := by
  induction files generalizing d count with
  | nil => exact ⟨[], [], rfl, Written.nil d, Or.inl ⟨rfl, rfl⟩⟩
  | cons f fs ih =>
      rw [List.map_cons, List.nodup_cons] at hfiles
      obtain ⟨hnew, hfs⟩ := hfiles
      cases hf : f.output with
      | none =>
          rw [commitFiles_none hf]
          obtain ⟨written, rest, hsplit, hwritten, hends⟩ := ih hfs count
          refine ⟨f :: written, rest, by rw [hsplit]; rfl, hwritten.cons_of_none hf, ?_⟩
          rw [List.countP_cons_of_neg (by simp [hf])]
          exact hends
      | some output =>
          cases hw : access.write d f.path output with
          | error fault =>
              rw [commitFiles_error hf hw]
              exact ⟨[], f :: fs, rfl, Written.nil d, Or.inr ⟨f, fs, output, fault, rfl, hf, hw, rfl⟩⟩
          | ok next =>
              rw [commitFiles_ok hf hw]
              have hreplace := access.writes hw
              obtain ⟨place, content, hlocate, hnext⟩ := Disk.replace_eq_ok.mp hreplace
              have hplaces : Disk.SamePlaces d next := by
                rw [hnext]
                exact Disk.samePlaces_withText (Disk.entry?_of_locate hlocate) output
              have hfs' : (fs.map fun f => next.identify f.path).Nodup := by
                simp only [hplaces.identify_eq]
                exact hfs
              obtain ⟨written, rest, hsplit, hwritten, hends⟩ := ih hfs' (count + 1)
              have hothers : ∀ g ∈ written, d.identify g.path ≠ d.identify f.path := by
                intro g hg heq
                refine hnew (List.mem_map.mpr ⟨g, ?_, heq⟩)
                rw [hsplit]
                exact List.mem_append_left _ hg
              refine ⟨f :: written, rest, by rw [hsplit]; rfl,
                hwritten.cons_of_some hf hreplace hothers, ?_⟩
              have hcount : count + (f :: fs).countP (fun f => f.output.isSome) =
                  count + 1 + fs.countP fun f => f.output.isSome := by
                rw [List.countP_cons_of_pos (by simp [hf])]
                omega
              rw [hcount]
              exact hends

/-! ## Batches -/

/-- What a commit leaves on a disk: of the files of a report, those in front of a stop are written. -/
structure Committed (access : Access) (disk after : Disk) (report : Report)
    (result : Except Failure Nat) (written rest : List FileReport) : Prop where
  files : report.files = written ++ rest
  ends : Ends access after report.rewritten rest result
  /-- There is a new text exactly for the files that are to be rewritten. -/
  staged : ∀ f ∈ report.files, f.output.isSome = f.outcome.isRewritten
  /-- A file in front of the stop holds its new text. -/
  texts : ∀ f ∈ written, ∀ output, f.output = some output → after.read f.path = .ok output
  /-- There is something else at a place exactly if a file there is written. -/
  changed : ∀ place, after.entry? place ≠ disk.entry? place ↔
    ∃ f ∈ written, f.outcome.isRewritten = true ∧ disk.identify f.path = .place place
  /-- A file that is not to be rewritten, or is behind the stop, is as before. -/
  kept : ∀ f ∈ report.files, f.outcome.isRewritten = false ∨ f ∈ rest →
    after.locate f.path = disk.locate f.path

variable {disk : Disk} {rules : List Rule} {paths : List String} {options : Options}
  {cancelled : Bool} {steps : List Step} {report : Report}

/-- **A report has a new text exactly where it tells of one.** -/
theorem staged_of_runWith (h : runWith access disk rules paths options cancelled steps = .ok report)
    (hf : f ∈ report.files) : f.output.isSome = f.outcome.isRewritten := by
  obtain ⟨-, -, hfiles⟩ := runWith_ok_inv h
  rcases hfiles f hf with hown | ⟨hskip, -⟩
  · exact (rewriteFile_ok_inv hown).staged
  · rw [hskip]
    rfl

/-- A new text in a report differs from what the file holds. -/
theorem read_ne_of_runWith (h : runWith access disk rules paths options cancelled steps = .ok report)
    (hf : f ∈ report.files) (hout : f.output = some output) : disk.read f.path ≠ .ok output := by
  obtain ⟨-, -, hfiles⟩ := runWith_ok_inv h
  rcases hfiles f hf with hown | ⟨hskip, -⟩
  · obtain ⟨source, hread, hne⟩ := (rewriteFile_ok_inv hown).new output hout
    intro hsame
    rw [access.reads hread] at hsame
    exact hne (Except.ok.inj hsame).symm
  · rw [hskip] at hout
    exact absurd hout (by simp [FileReport.of])

/-- **The disk behind the commit of a batch.** -/
theorem commitWith_committed
    (h : runWith access disk rules paths options cancelled steps = .ok report) :
    ∃ written rest, Committed access disk (commitWith access report disk).1 report
      (commitWith access report disk).2 written rest := by
  obtain ⟨hnodup, hpaths, -⟩ := runWith_ok_inv h
  have hfiles : (report.files.map fun f => disk.identify f.path).Nodup := by
    rw [← hpaths, List.map_map] at hnodup
    exact hnodup
  obtain ⟨written, rest, hsplit, hwritten, hends⟩ := commitFiles_written access hfiles 0
  have hstaged := fun f hf => staged_of_runWith h (f := f) hf
  have hwritten_mem : ∀ f ∈ written, f ∈ report.files := by
    intro f hf
    rw [hsplit]
    exact List.mem_append_left _ hf
  have hcount : (0 + report.files.countP fun f => f.output.isSome) = report.rewritten := by
    rw [Nat.zero_add]
    refine List.countP_congr ?_
    intro f hf
    rw [hstaged f hf]
  rw [hcount] at hends
  refine ⟨written, rest, hsplit, hends, hstaged, hwritten.texts, ?_, ?_⟩
  · intro place
    constructor
    · intro hne
      by_contra hnone
      refine hne (hwritten.others place ?_)
      intro f hf hsome hplace
      rw [hstaged f (hwritten_mem f hf)] at hsome
      exact hnone ⟨f, hf, hsome, hplace⟩
    · rintro ⟨f, hf, hsome, hplace⟩ hentry
      rw [← hstaged f (hwritten_mem f hf)] at hsome
      obtain ⟨output, hout⟩ := Option.isSome_iff_exists.mp hsome
      -- were the entry the same, the file would hold its new text already
      refine read_ne_of_runWith h (hwritten_mem f hf) hout ?_
      have hsame : (commitWith access report disk).1.locate f.path = disk.locate f.path := by
        refine hwritten.places.locate_eq ?_
        intro place' hplace'
        obtain rfl : place' = place := by
          rw [hplace] at hplace'
          exact (Disk.Identity.place.inj hplace').symm
        exact hentry
      have hread := hwritten.texts f hf output hout
      unfold Disk.read at hread ⊢
      rw [← hsame]
      exact hread
  · intro f hf hleft
    refine hwritten.places.locate_eq ?_
    intro place hplace
    refine hwritten.others place ?_
    intro g hg hsome hsame
    -- two files of a batch at one place are the same file
    obtain rfl : g = f :=
      List.inj_on_of_nodup_map hfiles (hwritten_mem g hg) hf (hsame.trans hplace.symm)
    rcases hleft with hnone | hrest
    · rw [hstaged g hf, hnone] at hsome
      exact absurd hsome (by simp)
    · have hdifferent := hfiles.of_map
      rw [hsplit] at hdifferent
      exact List.disjoint_of_nodup_append hdifferent hg hrest

end JavaRefactor.Batch

import JavaRefactor.Batch.Run
import JavaRefactor.Proofs.Batch.File

/-!
# `Proofs.Batch.Schedule` — the order of steps does not matter to a batch

Workers look at the two flags, rewrite and raise a flag in steps that alternate in any way; with a number of
workers only the number of files that are begun and not finished is limited. Whatever the order, a file that
is finished has the result that it has by itself, unless a flag was up before; and the inner flag is up only
where a file has already failed, so that what it makes the workers pass over is in no report.

## Contents
- **One file.** `Progress.Sound`, and `Progress.sound_advance`.
- **One step.** `Shared.Sound`, and `Shared.Sound.step`; what a step leaves alone.
- **All steps.** `Shared.sound_run`, `Shared.cancelled_run`, `Shared.done_run`.
- **The end.** `collect_error_inv`, `collect_error_of_mem`, `collect_ok_inv`.
- **Batches.** `runWith_ok_inv`, `runWith_error_inv`, `endOf_inOrder_done`, **`runWith_independent`**.
-/

namespace JavaRefactor.Batch

variable {process : String → Except Failure FileReport}

/-! ## One file -/

namespace Progress

/-- What holds of a file at any time, where `off` tells whether a flag is up: a failure is the file's own, and
    so is a report, unless it tells that the file was passed over. -/
def Sound (process : String → Except Failure FileReport) (off : Prop) (path : String) :
    Progress → Prop
  | waiting | admitted | started => True
  | failing f => process path = .error f
  | finished (.error f) => process path = .error f
  | finished (.ok r) => process path = .ok r ∨ r = .of path .skipped ∧ off

variable {path : String} {p : Progress} {cancelled aborted : Bool}

theorem Sound.mono {off off' : Prop} (h : p.Sound process off path) (hoff : off → off') :
    p.Sound process off' path := by
  cases p with
  | finished result =>
      cases result with
      | ok r => exact h.imp id (fun hs => ⟨hs.1, hoff hs.2⟩)
      | error f => exact h
  | waiting => exact h
  | admitted => exact h
  | started => exact h
  | failing f => exact h

/-- A step on a file keeps what holds of it. -/
theorem sound_advance (h : p.Sound process (cancelled = true ∨ aborted = true) path) :
    (p.advance process cancelled aborted path).1.Sound process
      (cancelled = true ∨ aborted = true) path := by
  cases p with
  | waiting =>
      unfold advance
      by_cases hc : cancelled = true
      · rw [if_pos hc]
        exact Or.inr ⟨rfl, Or.inl hc⟩
      · rw [if_neg hc]
        exact trivial
  | admitted =>
      unfold advance
      by_cases ha : aborted = true
      · rw [if_pos ha]
        exact Or.inr ⟨rfl, Or.inr ha⟩
      · rw [if_neg ha]
        exact trivial
  | started =>
      unfold advance
      cases hp : process path with
      | ok r => exact Or.inl hp
      | error f => exact hp
  | failing f => exact h
  | finished result => exact h

/-- A step that calls the batch off leaves the file finished with a failure. -/
theorem failed_of_stops (h : (p.advance process cancelled aborted path).2 = true) :
    ∃ f, (p.advance process cancelled aborted path).1 = .finished (.error f) := by
  cases p with
  | failing f => exact ⟨f, rfl⟩
  | waiting =>
      cases cancelled with
      | true => exact absurd h (by simp [advance])
      | false => exact absurd h (by simp [advance])
  | admitted =>
      cases aborted with
      | true => exact absurd h (by simp [advance])
      | false => exact absurd h (by simp [advance])
  | started =>
      cases hp : process path with
      | ok r => exact absurd h (by simp [advance, hp])
      | error f => exact absurd h (by simp [advance, hp])
  | finished result => exact absurd h (by simp [advance])

/-- The number of steps that a file may still need. -/
def left : Progress → Nat
  | waiting => 4
  | admitted => 3
  | started => 2
  | failing _ => 1
  | finished _ => 0

theorem left_advance : (p.advance process cancelled aborted path).1.left ≤ p.left - 1 := by
  cases p with
  | waiting => cases cancelled <;> simp [advance, left]
  | admitted => cases aborted <;> simp [advance, left]
  | started => cases hp : process path <;> simp [advance, hp, left]
  | failing f => simp [advance, left]
  | finished result => simp [advance, left]

theorem finished_of_left (h : p.left = 0) : ∃ r, p = .finished r := by
  cases p with
  | finished r => exact ⟨r, rfl⟩
  | waiting => exact absurd h (by simp [left])
  | admitted => exact absurd h (by simp [left])
  | started => exact absurd h (by simp [left])
  | failing f => exact absurd h (by simp [left])

end Progress

/-! ## One step -/

namespace Shared

/-- What holds of a batch at any time: each file is as it is by itself, unless a flag is up; and the inner
    flag is up only if a file has failed. -/
structure Sound (process : String → Except Failure FileReport) (s : Shared) : Prop where
  files : ∀ e ∈ s.files, e.2.Sound process (s.cancelled = true ∨ s.aborted = true) e.1
  stopped : s.aborted = true → ∃ e ∈ s.files, ∃ f, e.2 = .finished (.error f)

variable {s : Shared} {i : Nat} {path : String} {p : Progress}

/-- A step on a file. -/
theorem step_work (h : s.files[i]? = some (path, p)) :
    s.step process (.work i) =
      ⟨s.cancelled, s.aborted || (p.advance process s.cancelled s.aborted path).2,
        s.files.set i (path, (p.advance process s.cancelled s.aborted path).1)⟩ := by
  simp only [step, h]

/-- A step on a file that there is not. -/
theorem step_work_none (h : s.files[i]? = none) : s.step process (.work i) = s := by
  simp only [step, h]

/-- **A step keeps what holds of a batch.** -/
theorem Sound.step (h : s.Sound process) (x : Step) : (s.step process x).Sound process := by
  cases x with
  | cancel =>
      refine ⟨?_, h.stopped⟩
      intro e he
      exact (h.files e he).mono (fun _ => Or.inl rfl)
  | work i =>
      cases hi : s.files[i]? with
      | none =>
          rw [step_work_none hi]
          exact h
      | some e =>
          obtain ⟨path, p⟩ := e
          rw [step_work hi]
          refine ⟨?_, ?_⟩
          · intro e he
            have hoff : s.cancelled = true ∨ s.aborted = true → s.cancelled = true ∨
                (s.aborted || (p.advance process s.cancelled s.aborted path).2) = true := by
              intro ho
              exact ho.imp id (fun ha => by rw [ha]; rfl)
            rcases List.mem_or_eq_of_mem_set he with he | rfl
            · exact (h.files e he).mono hoff
            · have hp := h.files (path, p) (List.mem_of_getElem? hi)
              exact (Progress.sound_advance hp).mono hoff
          · intro ha
            have hlt : i < s.files.length := (List.getElem?_eq_some_iff.mp hi).1
            have hnew : (path, (p.advance process s.cancelled s.aborted path).1) ∈
                s.files.set i (path, (p.advance process s.cancelled s.aborted path).1) :=
              List.mem_set hlt _
            rcases Bool.or_eq_true_iff.mp ha with ha | ha
            · -- a file that has failed before stays failed, also if the step is on it
              obtain ⟨e, he, f, hf⟩ := h.stopped ha
              obtain ⟨j, hj⟩ := List.mem_iff_getElem?.mp he
              by_cases hij : i = j
              · subst hij
                have heq : (path, p) = e := Option.some.inj (hi.symm.trans hj)
                subst heq
                obtain rfl : p = .finished (.error f) := hf
                exact ⟨_, hnew, f, rfl⟩
              · refine ⟨e, ?_, f, hf⟩
                refine List.mem_of_getElem? (i := j) ?_
                rw [List.getElem?_set_ne hij]
                exact hj
            · obtain ⟨f, hf⟩ := Progress.failed_of_stops ha
              exact ⟨_, hnew, f, hf⟩

/-- A step on a file brings it nearer to its end; no step takes a file away or moves it. -/
theorem getElem?_step (process : String → Except Failure FileReport) {j : Nat}
    (h : s.files[j]? = some (path, p)) (x : Step) :
    ∃ p', (s.step process x).files[j]? = some (path, p') ∧
      p'.left ≤ p.left - [x].count (.work j) := by
  cases x with
  | cancel => exact ⟨p, h, by simp⟩
  | work i =>
      by_cases hij : i = j
      · subst hij
        have hlt : i < s.files.length := (List.getElem?_eq_some_iff.mp h).1
        rw [step_work h]
        refine ⟨_, by rw [List.getElem?_set_self hlt], ?_⟩
        simpa using Progress.left_advance
      · refine ⟨p, ?_, by simp [hij]⟩
        cases hi : s.files[i]? with
        | none => rw [step_work_none hi]; exact h
        | some e =>
            obtain ⟨path', p'⟩ := e
            rw [step_work hi, List.getElem?_set_ne hij]
            exact h

theorem length_step (x : Step) : (s.step process x).files.length = s.files.length := by
  cases x with
  | cancel => rfl
  | work i =>
      cases hi : s.files[i]? with
      | none => rw [step_work_none hi]
      | some e => rw [step_work hi, List.length_set]

/-- The outer flag is raised by the call from outside alone. -/
theorem cancelled_step (x : Step) :
    (s.step process x).cancelled = true ↔ s.cancelled = true ∨ x = .cancel := by
  cases x with
  | cancel => simp [step]
  | work i =>
      cases hi : s.files[i]? with
      | none => simp [step_work_none hi]
      | some e => simp [step_work hi]

/-! ## All steps -/

/-- **All steps keep what holds of a batch.** -/
theorem Sound.run (h : s.Sound process) (steps : List Step) : (s.run process steps).Sound process := by
  induction steps generalizing s with
  | nil => exact h
  | cons x xs ih => exact ih (h.step x)

theorem sound_start (process : String → Except Failure FileReport) (paths : List String)
    (cancelled : Bool) :
    (start paths cancelled).Sound process := by
  refine ⟨?_, ?_⟩
  · intro e he
    obtain ⟨path, -, rfl⟩ := List.mem_map.mp he
    exact trivial
  · intro ha
    exact absurd ha (by simp [start])

theorem cancelled_run (steps : List Step) :
    (s.run process steps).cancelled = true ↔ s.cancelled = true ∨ .cancel ∈ steps := by
  induction steps generalizing s with
  | nil => simp [run]
  | cons x xs ih =>
      have hrun : s.run process (x :: xs) = (s.step process x).run process xs := rfl
      rw [hrun, ih, cancelled_step, List.mem_cons, or_assoc, eq_comm (a := x)]

theorem getElem?_run (process : String → Except Failure FileReport) {j : Nat}
    (h : s.files[j]? = some (path, p)) (steps : List Step) :
    ∃ p', (s.run process steps).files[j]? = some (path, p') ∧
      p'.left ≤ p.left - steps.count (.work j) := by
  induction steps generalizing s p with
  | nil => exact ⟨p, h, by simp⟩
  | cons x xs ih =>
      obtain ⟨p₁, h₁, hleft₁⟩ := getElem?_step process h x
      obtain ⟨p₂, h₂, hleft₂⟩ := ih h₁
      refine ⟨p₂, h₂, ?_⟩
      have hcount : (x :: xs).count (.work j) = [x].count (.work j) + xs.count (.work j) := by
        rw [← List.count_append, List.singleton_append]
      omega

theorem length_run (process : String → Except Failure FileReport) (s : Shared) (steps : List Step) :
    (s.run process steps).files.length = s.files.length := by
  induction steps generalizing s with
  | nil => rfl
  | cons x xs ih => exact (ih (s.step process x)).trans (length_step x)

/-- The files of a batch keep their order. -/
theorem paths_run (process : String → Except Failure FileReport) (paths : List String)
    (cancelled : Bool) (steps : List Step) :
    ((start paths cancelled).run process steps).files.map Prod.fst = paths := by
  have hlength := length_run process (start paths cancelled) steps
  refine List.ext_getElem? ?_
  intro j
  rw [List.getElem?_map]
  cases hj : paths[j]? with
  | none =>
      have hle : paths.length ≤ j := List.getElem?_eq_none_iff.mp hj
      rw [List.getElem?_eq_none (by rw [hlength]; simpa [start] using hle)]
      rfl
  | some path =>
      have hstart : (start paths cancelled).files[j]? = some (path, .waiting) := by
        simp [start, hj]
      obtain ⟨p, hp, -⟩ := getElem?_run process hstart steps
      rw [hp]
      rfl

/-- **Four steps finish a file**, in whatever order the steps of several files are made. -/
theorem done_run {paths : List String} {cancelled : Bool} {steps : List Step}
    (h : ∀ i < paths.length, 4 ≤ steps.count (.work i)) :
    ((start paths cancelled).run process steps).Done := by
  intro e he
  obtain ⟨j, hj⟩ := List.mem_iff_getElem?.mp he
  have hlt : j < paths.length := by
    have := (List.getElem?_eq_some_iff.mp hj).1
    rw [length_run] at this
    simpa [start] using this
  have hstart : (start paths cancelled).files[j]? = some (paths[j], .waiting) := by
    simp [start, List.getElem?_eq_getElem hlt]
  obtain ⟨p, hp, hleft⟩ := getElem?_run process hstart steps
  obtain rfl : (paths[j], p) = e := Option.some.inj (hp.symm.trans hj)
  refine Progress.finished_of_left ?_
  have hcount := h j hlt
  have hwaiting : Progress.waiting.left = 4 := rfl
  show p.left = 0
  omega

end Shared

/-- The steps of one worker finish every file. -/
theorem count_inOrder (count i : Nat) :
    (inOrder count).count (.work i) = if i < count then 4 else 0 := by
  induction count with
  | zero => rfl
  | succ n ih =>
      have hsucc : inOrder (n + 1) = inOrder n ++ List.replicate 4 (.work n) := by
        simp [inOrder, List.range_succ]
      rw [hsucc, List.count_append, ih, List.count_replicate]
      by_cases hi : i = n
      · subst hi
        simp
      · have hne : (Step.work n == Step.work i) = false := by
          simpa using Ne.symm hi
        rw [hne]
        by_cases hlt : i < n
        · simp [hlt, Nat.lt_succ_of_lt hlt]
        · have hge : ¬ i < n + 1 := by omega
          simp [hlt, hge]

/-! ## The end -/

/-- What is reported of a file at the end is its own report, or it was passed over: for a flag, or because no
    worker came to finish it. -/
theorem resultOf_ok_inv {path : String} {p : Progress} {off : Prop} {r : FileReport}
    (h : p.Sound process off path) (hr : resultOf path p = .ok r) :
    process path = .ok r ∨
      r = .of path .skipped ∧ (off ∨ ¬ ∃ result, p = .finished result) := by
  cases p with
  | finished result =>
      obtain rfl : result = .ok r := hr
      exact h.imp id (fun hs => ⟨hs.1, Or.inl hs.2⟩)
  | waiting => exact Or.inr ⟨(Except.ok.inj hr).symm, Or.inr (by simp)⟩
  | admitted => exact Or.inr ⟨(Except.ok.inj hr).symm, Or.inr (by simp)⟩
  | started => exact Or.inr ⟨(Except.ok.inj hr).symm, Or.inr (by simp)⟩
  | failing f => exact Or.inr ⟨(Except.ok.inj hr).symm, Or.inr (by simp)⟩

theorem resultOf_error_inv {path : String} {p : Progress} {f : Failure}
    (h : resultOf path p = .error f) : p = .finished (.error f) := by
  cases p with
  | finished result => exact congrArg Progress.finished h
  | waiting => exact absurd h (by simp [resultOf])
  | admitted => exact absurd h (by simp [resultOf])
  | started => exact absurd h (by simp [resultOf])
  | failing f' => exact absurd h (by simp [resultOf])

namespace Shared

variable {s : Shared}

/-- What stops a batch is the failure of one of its files. -/
theorem collect_error_inv (h : s.Sound process) {f : Failure} (hc : s.collect = .error f) :
    ∃ e ∈ s.files, process e.1 = .error f := by
  obtain ⟨e, he, hf⟩ := Attempts.mem_of_mapM_error (Attempts.map_eq_error.mp hc)
  have hsound := h.files e he
  rw [resultOf_error_inv hf] at hsound
  exact ⟨e, he, hsound⟩

/-- A file that has failed stops the batch, whatever is reported of the others. -/
theorem collect_error_of_mem {e : String × Progress} {f : Failure} (he : e ∈ s.files)
    (hf : e.2 = .finished (.error f)) : ∃ f', s.collect = .error f' := by
  have hresult : resultOf e.1 e.2 = .error f := by rw [hf]; rfl
  obtain ⟨f', hf'⟩ := Attempts.mapM_error_of_mem
    (f := fun (path, p) => resultOf path p) he hresult
  exact ⟨f', Attempts.map_eq_error.mpr hf'⟩

/-- **What is reported of a batch**, file by file: the file's own report, or that it was passed over. The
    inner flag is not up then, so only a call from outside makes a finished file one that was passed over. -/
theorem collect_ok_inv (h : s.Sound process) {report : Report} (hc : s.collect = .ok report) :
    List.Forall₂ (fun e r => process e.1 = .ok r ∨
      r = .of e.1 .skipped ∧ (s.cancelled = true ∨ ¬ ∃ result, e.2 = .finished result))
      s.files report.files := by
  have haborted : ¬ s.aborted = true := by
    intro ha
    obtain ⟨e, he, f, hf⟩ := h.stopped ha
    obtain ⟨f', hf'⟩ := collect_error_of_mem he hf
    rw [hc] at hf'
    exact absurd hf' (by simp)
  obtain ⟨rs, hrs, rfl⟩ := Attempts.map_eq_ok.mp hc
  have hall := (List.forall₂_and_left _ _).mpr ⟨h.files, Attempts.mapM_eq_ok.mp hrs⟩
  refine hall.imp ?_
  rintro ⟨path, p⟩ r ⟨hsound, hr⟩
  refine (resultOf_ok_inv hsound hr).imp id ?_
  rintro ⟨hr, (hc | ha) | hunfinished⟩
  · exact ⟨hr, Or.inl hc⟩
  · exact absurd ha haborted
  · exact ⟨hr, Or.inr hunfinished⟩

end Shared

/-! ## Batches -/

/-- No path leads to the file of an earlier one exactly if all lead to different files. -/
theorem duplicate?_eq_none_iff {ι : Type} [DecidableEq ι] {identify : String → ι} {seen : List ι}
    {paths : List String} : duplicate? identify seen paths = none ↔
      (paths.map identify).Nodup ∧ ∀ path ∈ paths, identify path ∉ seen := by
  induction paths generalizing seen with
  | nil => simp [duplicate?]
  | cons path paths ih =>
      unfold duplicate?
      by_cases hs : identify path ∈ seen
      · simp [hs]
      · have hc : ¬ seen.contains (identify path) = true := by simpa using hs
        rw [if_neg hc, ih, List.map_cons, List.nodup_cons, List.mem_map]
        constructor
        · rintro ⟨hnodup, hnew⟩
          refine ⟨⟨?_, hnodup⟩, ?_⟩
          · rintro ⟨other, hother, heq⟩
            exact hnew other hother (by simp [heq])
          · intro other hother
            rcases List.mem_cons.mp hother with rfl | hother
            · exact hs
            · exact fun hmem => hnew other hother (List.mem_cons_of_mem _ hmem)
        · rintro ⟨⟨hfirst, hnodup⟩, hnew⟩
          refine ⟨hnodup, ?_⟩
          intro other hother hmem
          rcases List.mem_cons.mp hmem with heq | hmem
          · exact hfirst ⟨other, hother, heq⟩
          · exact hnew other (by simp [hother]) hmem

variable {access : Disk.Access} {disk : Disk} {rules : List Rule} {paths : List String}
  {options : Options} {cancelled : Bool} {steps : List Step}

/-- The batch behind all its steps. -/
def endOf (access : Disk.Access) (disk : Disk) (rules : List Rule) (paths : List String)
    (options : Options) (cancelled : Bool) (steps : List Step) : Shared :=
  (Shared.start paths cancelled).run (rewriteFile (access.read disk) rules options) steps

/-- A batch of different files is what is collected of it in the end. -/
theorem runWith_eq_collect (hpaths : (paths.map disk.identify).Nodup) :
    runWith access disk rules paths options cancelled steps =
      (endOf access disk rules paths options cancelled steps).collect := by
  have hnone : duplicate? disk.identify [] paths = none :=
    duplicate?_eq_none_iff.mpr ⟨hpaths, by simp⟩
  unfold runWith
  rw [hnone]
  rfl

/-- One worker who takes the files in order finishes them all. -/
theorem endOf_inOrder_done :
    (endOf access disk rules paths options cancelled (inOrder paths.length)).Done := by
  refine Shared.done_run ?_
  intro i hi
  have hcount : (inOrder paths.length).count (.work i) = 4 := by
    rw [count_inOrder, if_pos hi]
  exact Nat.le_of_eq hcount.symm

/-- **What is in a report**: the files in their order, each with its own report unless it was passed over,
    which only a call from outside makes the steps do that finish every file. -/
theorem runWith_ok_inv {report : Report}
    (h : runWith access disk rules paths options cancelled steps = .ok report) :
    (paths.map disk.identify).Nodup ∧ report.files.map (·.path) = paths ∧
    ∀ f ∈ report.files, rewriteFile (access.read disk) rules options f.path = .ok f ∨
      f = .of f.path .skipped ∧ (cancelled = true ∨ .cancel ∈ steps ∨
        ¬ (endOf access disk rules paths options cancelled steps).Done) := by
  have hnodup : (paths.map disk.identify).Nodup := by
    unfold runWith at h
    split at h
    · exact absurd h (by simp)
    · rename_i hnone
      exact (duplicate?_eq_none_iff.mp hnone).1
  rw [runWith_eq_collect hnodup] at h
  have hsound := (Shared.sound_start (rewriteFile (access.read disk) rules options) paths
    cancelled).run steps
  have hall := Shared.collect_ok_inv hsound h
  refine ⟨hnodup, ?_, ?_⟩
  · have hpaths : List.Forall₂ (fun e r => e.1 = r.path)
        (endOf access disk rules paths options cancelled steps).files report.files := by
      refine hall.imp ?_
      rintro e r (hr | ⟨rfl, -⟩)
      · exact (rewriteFile_ok_inv hr).own.symm
      · rfl
    have heq : List.Forall₂ (· = ·)
        ((endOf access disk rules paths options cancelled steps).files.map Prod.fst)
        (report.files.map (·.path)) := by
      rw [List.forall₂_map_left_iff, List.forall₂_map_right_iff]
      exact hpaths
    rw [List.forall₂_eq_eq_eq] at heq
    rw [← heq]
    exact Shared.paths_run _ paths cancelled steps
  · intro f hf
    obtain ⟨e, he, hr | ⟨rfl, hflag⟩⟩ := Attempts.exists_of_forall₂ hall hf
    · left
      rw [(rewriteFile_ok_inv hr).own]
      exact hr
    · refine Or.inr ⟨rfl, ?_⟩
      rcases hflag with hc | hunfinished
      · exact ((Shared.cancelled_run steps).mp hc).imp id Or.inl
      · exact Or.inr (Or.inr fun hdone => hunfinished (hdone e he))

/-- What stops a batch of different files is that one of them is fatal. -/
theorem runWith_error_inv (hpaths : (paths.map disk.identify).Nodup) {f : Failure}
    (h : runWith access disk rules paths options cancelled steps = .error f) :
    ∃ path ∈ paths, ∃ p, f = .aborted path p ∧
      Fatal (access.read disk) rules options.maxCycles path p := by
  rw [runWith_eq_collect hpaths] at h
  have hsound := (Shared.sound_start (rewriteFile (access.read disk) rules options) paths
    cancelled).run steps
  obtain ⟨e, he, hf⟩ := Shared.collect_error_inv hsound h
  obtain ⟨-, p, hp, hfatal⟩ := rewriteFile_eq_error.mp hf
  have hmem : e.1 ∈ paths := by
    rw [← Shared.paths_run (rewriteFile (access.read disk) rules options) paths cancelled steps]
    exact List.mem_map_of_mem he
  exact ⟨e.1, hmem, p, hp, hfatal⟩

/-- A fatal file stops the batch once all files are finished, unless the batch is called off from outside: it
    has failed itself, or was passed over because of one that has. -/
theorem runWith_error_of_fatal
    (hdone : (endOf access disk rules paths options cancelled steps).Done)
    (hbest : options.bestEffort = false) (hcancelled : cancelled = false) (hcall : .cancel ∉ steps)
    {path : String} (hpath : path ∈ paths) {p : Problem}
    (hfatal : Fatal (access.read disk) rules options.maxCycles path p) :
    ∃ f, runWith access disk rules paths options cancelled steps = .error f := by
  cases h : runWith access disk rules paths options cancelled steps with
  | error f => exact ⟨f, rfl⟩
  | ok report =>
      exfalso
      obtain ⟨-, horder, hfiles⟩ := runWith_ok_inv h
      rw [← horder] at hpath
      obtain ⟨f, hf, rfl⟩ := List.mem_map.mp hpath
      rcases hfiles f hf with hown | ⟨-, hc | hc | hc⟩
      · have herror : rewriteFile (access.read disk) rules options f.path = .error (.aborted f.path p) :=
          rewriteFile_eq_error.mpr ⟨hbest, p, rfl, hfatal⟩
        rw [hown] at herror
        exact absurd herror (by simp)
      · rw [hcancelled] at hc
        exact absurd hc (by simp)
      · exact hcall hc
      · exact hc hdone

/-- A batch of one file, if it is not called off, has the file's own report. -/
theorem runWith_single {path : String} {r : FileReport}
    (h : rewriteFile (access.read disk) rules options path = .ok r) :
    runWith access disk rules [path] options false (inOrder 1) = .ok ⟨[r]⟩ := by
  rw [runWith_eq_collect (by simp)]
  simp [endOf, Shared.start, inOrder, Shared.run, Shared.step, Progress.advance, h, Shared.collect, resultOf,
    List.range_succ, Except.map, pure, Except.pure, bind, Except.bind]

/-- **The order of the steps does not matter.** Let the steps finish every file of a batch of different files,
    in whatever order and with whatever number of workers. If the batch goes on for nothing and is not called
    off from outside, it is stopped exactly if some file is fatal by itself; whatever stops it is such a file
    and its problem. Otherwise all files are reported in their order; a file is passed over only if the batch was
    called off from outside, and every other one has the report that it has as a batch of its own. -/
theorem runWith_independent (hpaths : (paths.map disk.identify).Nodup)
    (hdone : (endOf access disk rules paths options cancelled steps).Done) :
    (options.bestEffort = false → cancelled = false → .cancel ∉ steps →
      ((∃ path p, runWith access disk rules paths options cancelled steps = .error (.aborted path p)) ↔
        ∃ path ∈ paths, ∃ p, Fatal (access.read disk) rules options.maxCycles path p)) ∧
    (∀ f, runWith access disk rules paths options cancelled steps = .error f →
      ∃ path ∈ paths, ∃ p, f = .aborted path p ∧
        Fatal (access.read disk) rules options.maxCycles path p) ∧
    (∀ report, runWith access disk rules paths options cancelled steps = .ok report →
      report.files.map (·.path) = paths ∧
      ∀ f ∈ report.files,
        (f.outcome = .skipped → cancelled = true ∨ .cancel ∈ steps) ∧
        (f.outcome ≠ .skipped →
          runWith access disk rules [f.path] options false (inOrder 1) = .ok ⟨[f]⟩)) := by
  refine ⟨?fatal, fun f hf => runWith_error_inv hpaths hf, ?reports⟩
  case fatal =>
    intro hbest hcancelled hcall
    constructor
    · rintro ⟨path, p, h⟩
      obtain ⟨path', hpath', p', -, hfatal⟩ := runWith_error_inv hpaths h
      exact ⟨path', hpath', p', hfatal⟩
    · rintro ⟨path, hpath, p, hfatal⟩
      obtain ⟨f, hf⟩ := runWith_error_of_fatal hdone hbest hcancelled hcall hpath hfatal
      obtain ⟨path', -, p', rfl, -⟩ := runWith_error_inv hpaths hf
      exact ⟨path', p', hf⟩
  case reports =>
    intro report h
    obtain ⟨-, horder, hfiles⟩ := runWith_ok_inv h
    refine ⟨horder, ?_⟩
    intro f hf
    rcases hfiles f hf with hown | ⟨hskip, hflag⟩
    · have hrun := (rewriteFile_ok_inv hown).begun
      exact ⟨fun hs => absurd hs hrun, fun _ => runWith_single hown⟩
    · have houtcome : f.outcome = .skipped := congrArg FileReport.outcome hskip
      refine ⟨fun _ => ?_, fun hs => absurd houtcome hs⟩
      rcases hflag with hc | hc | hc
      · exact Or.inl hc
      · exact Or.inr hc
      · exact absurd hdone hc

/-- Two workers: the second file is admitted before the first one fails, and passed over after. -/
theorem runWith_independent_two_workers : ∃ (r : Rule) (disk : Disk) (steps : List Step),
    (RuleDraft.simple "Grow" "grow($X)" "grow(grow($X))").build = .ok r ∧
    disk.entries = [(["G"], .file (.text "grow(1);")), (["P"], .file (.text "f(1);"))] ∧
    steps = [.work 0, .work 0, .work 1, .work 0, .work 0, .work 1, .work 1, .work 1] ∧
    (["G", "P"].map disk.identify).Nodup ∧
    (endOf .plain disk [r] ["G", "P"] ⟨1, false⟩ false steps).Done ∧
    ∃ path p, runWith .plain disk [r] ["G", "P"] ⟨1, false⟩ false steps = .error (.aborted path p) := by
  have h : ((RuleDraft.simple "Grow" "grow($X)" "grow(grow($X))").build.toOption.any fun r =>
      match Recipe.run true [r] "grow(1);" 1 with
      | .error p => p.isFatal
      | .ok _ => false) = true := by
    decide +kernel
  obtain ⟨r, hr, h⟩ := (Option.any_eq_true _ _).mp h
  let disk : Disk := ⟨[(["G"], .file (.text "grow(1);")), (["P"], .file (.text "f(1);"))], []⟩
  let steps : List Step :=
    [.work 0, .work 0, .work 1, .work 0, .work 0, .work 1, .work 1, .work 1]
  have hpaths : (["G", "P"].map disk.identify).Nodup := by decide +kernel
  have hdone : (endOf .plain disk [r] ["G", "P"] ⟨1, false⟩ false steps).Done :=
    Shared.done_run (by decide)
  have hread : disk.read "G" = .ok "grow(1);" := by rfl
  have hfatal : ∃ p, Fatal disk.read [r] 1 "G" p := by
    cases hrun : Recipe.run true [r] "grow(1);" 1 with
    | ok report =>
        rw [hrun] at h
        exact absurd h (by simp)
    | error p =>
        rw [hrun] at h
        exact ⟨p, "grow(1);", hread, hrun, h⟩
  obtain ⟨p, hfatal⟩ := hfatal
  obtain ⟨hstopped, -, -⟩ := runWith_independent hpaths hdone
  refine ⟨r, disk, steps, Attempts.toOption_eq_some.mp hr, rfl, rfl, hpaths, hdone, ?_⟩
  exact (hstopped rfl rfl (by decide)).mpr ⟨"G", by simp, p, hfatal⟩

end JavaRefactor.Batch

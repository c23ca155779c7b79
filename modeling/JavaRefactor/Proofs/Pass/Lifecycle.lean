import JavaRefactor.Pass.Basic
import Mathlib.Data.List.Chain

/-!
# `Proofs.Pass.Lifecycle` — the stages of a pass

A pass can stop at many points: where what reads texts is set up, where the text, the text that the rule has made and
the one with mended imports are read, and where the occurrences are replaced. Each of them ends it by a single step,
behind one of two stages. So there are four courses that a pass can take, whatever it reads texts with.

## Contents
- **Steps.** `Runs`, what a computation enters and what it comes to; `Runs.bind` and `Runs.stop`.
- **`Guarded`** computations, which enter `failed` if they fail, and nothing else; `guarded_replaceAll`.
- **`Course`**, how a pass can go; `course_rewriteTreeWith` and `course_rewriteWith`.
- **`Lifecycle`**, and that of a course; **`lifecycle_rewriteWith`**.
-/

namespace JavaRefactor.Pass

open Syntax (Tree)

variable {α β : Type} {c : Staged α} {k : α → Staged β} {a : α} {p : Problem} {x : Except Problem β}
  {steps steps' : List Stage}

/-! ## Steps -/

/-- Whatever the stages before it, a computation enters some stages and comes to a result. -/
def Runs (c : Staged α) (steps : List Stage) (x : Except Problem α) : Prop :=
  ∀ stages, c.run.run stages = (x, stages ++ steps)

theorem runs_enter (s : Stage) : Runs (enter s) [s] (.ok ()) := fun _ => rfl

theorem runs_pure (a : α) : Runs (pure a) [] (.ok a) := by
  intro stages
  rw [List.append_nil]
  rfl

theorem runs_fail (p : Problem) : Runs (fail p : Staged α) [.failed] (.error p) := fun _ => rfl

/-- **Behind a computation that succeeds**, stages are entered behind its own. -/
theorem Runs.bind (hc : Runs c steps (.ok a)) (hk : Runs (k a) steps' x) : Runs (c >>= k) (steps ++ steps') x := by
  intro stages
  rw [ExceptT.run_bind, StateT.run_bind, hc stages, ← List.append_assoc]
  exact hk (stages ++ steps)

/-- **A computation that fails** is the last one. -/
theorem Runs.stop (hc : Runs c steps (.error p)) : Runs (c >>= k) steps (.error p) := by
  intro stages
  rw [ExceptT.run_bind, StateT.run_bind, hc stages]
  rfl

theorem Runs.resultOf_eq {y : Except Problem α} (h : Runs c steps y) : resultOf c = y :=
  congrArg Prod.fst (h [.idle])

theorem Runs.stagesOf_eq {y : Except Problem α} (h : Runs c steps y) : stagesOf c = .idle :: steps :=
  congrArg Prod.snd (h [.idle])

/-! ## Failing once -/

/-- A computation that enters no stage, unless it fails: then it enters `failed`, once. -/
def Guarded (c : Staged α) : Prop := (∃ a, Runs c [] (.ok a)) ∨ ∃ p, Runs c [.failed] (.error p)

theorem guarded_pure (a : α) : Guarded (pure a) := Or.inl ⟨a, runs_pure a⟩

theorem guarded_fail (p : Problem) : Guarded (fail p : Staged α) := Or.inr ⟨p, runs_fail p⟩

theorem guarded_attempt (x : Except Problem α) : Guarded (attempt x) := by
  cases x with
  | ok a => exact guarded_pure a
  | error p => exact guarded_fail p

/-- **Computations in a row** fail once, for the first one that fails is the last one. -/
theorem Guarded.bind (hc : Guarded c) (hk : ∀ a, Guarded (k a)) : Guarded (c >>= k) := by
  rcases hc with ⟨a, hc⟩ | ⟨p, hc⟩
  · rcases hk a with ⟨b, hb⟩ | ⟨p, hp⟩
    · exact Or.inl ⟨b, hc.bind hb⟩
    · exact Or.inr ⟨p, hc.bind hp⟩
  · exact Or.inr ⟨p, hc.stop⟩

variable (reader : Reader) (fixImports : Bool) (r : Rule)

theorem guarded_again (source : String) (fault : InvariantFault) : Guarded (reader.again source fault) := by
  refine (guarded_attempt _).bind fun read => ?_
  cases read with
  | none => exact guarded_fail (.invariant fault)
  | some t => exact guarded_pure t

theorem guarded_mendImports (before after : Tree) : Guarded (mendImports reader r before after) := by
  unfold mendImports
  cases Imports.fix? before after r.imports with
  | none => exact guarded_pure after
  | some source => exact guarded_again reader source _

/-- **Replacing occurrences** fails once, wherever it does. -/
theorem guarded_replaceAll (t : Tree) (os : List Occurrence) : Guarded (replaceAll reader fixImports r t os) := by
  refine (guarded_attempt _).bind fun source => ?_
  refine (guarded_again reader source _).bind fun after => ?_
  cases fixImports with
  | false => exact guarded_pure after
  | true => exact guarded_mendImports reader r t after

/-! ## Courses -/

/-- How a pass can go, and what it comes to. -/
inductive Course (collected : Prop) : List Stage → Except Problem Outcome → Prop
  /-- There is nothing to look for sites in. -/
  | unread (none : ¬collected) (p : Problem) : Course collected [.idle, .scanning, .failed] (.error p)
  /-- There are no sites. -/
  | unchanged (none : ¬collected) (o : Outcome) : Course collected [.idle, .scanning, .matching, .idle] (.ok o)
  /-- Sites cannot be replaced. -/
  | stopped (some : collected) (p : Problem) :
    Course collected [.idle, .scanning, .matching, .substituting, .failed] (.error p)
  /-- Sites are replaced. -/
  | replaced (some : collected) (o : Outcome) :
    Course collected [.idle, .scanning, .matching, .substituting, .reemitting, .idle] (.ok o)

/-- Behind the stage `scanning`, the course depends on whether there are occurrences. -/
theorem course_of_matchAndReplace {c : Staged Outcome} {t : Tree} {collected : Prop}
    (hc : ∀ steps x, Runs (matchAndReplace reader fixImports r t) steps x → Runs c (.scanning :: steps) x)
    (hcollected : collected ↔ occurrences r t (.ofTree t) ≠ []) : Course collected (stagesOf c) (resultOf c) := by
  by_cases hnone : occurrences r t (.ofTree t) = []
  · have hruns : Runs (matchAndReplace reader fixImports r t) [.matching, .idle] (.ok ⟨t.source, 0⟩) := by
      unfold matchAndReplace
      simp only [hnone, List.isEmpty_nil, if_true]
      exact (runs_enter .matching).bind ((runs_enter .idle).bind (runs_pure _))
    rw [(hc _ _ hruns).stagesOf_eq, (hc _ _ hruns).resultOf_eq]
    exact .unchanged (fun h => hcollected.mp h hnone) _
  · have hsome : (occurrences r t (.ofTree t)).isEmpty = false := by simpa using hnone
    rcases guarded_replaceAll reader fixImports r t (occurrences r t (.ofTree t)) with ⟨after, hafter⟩ | ⟨p, hp⟩
    · have hruns : Runs (matchAndReplace reader fixImports r t) [.matching, .substituting, .reemitting, .idle]
          (.ok ⟨after.print, (occurrences r t (.ofTree t)).length⟩) := by
        unfold matchAndReplace
        simp only [hsome, Bool.false_eq_true, if_false]
        exact (runs_enter .matching).bind ((runs_enter .substituting).bind
          (hafter.bind ((runs_enter .reemitting).bind ((runs_enter .idle).bind (runs_pure _)))))
      rw [(hc _ _ hruns).stagesOf_eq, (hc _ _ hruns).resultOf_eq]
      exact .replaced (hcollected.mpr hnone) _
    · have hruns : Runs (matchAndReplace reader fixImports r t) [.matching, .substituting, .failed] (.error p) := by
        unfold matchAndReplace
        simp only [hsome, Bool.false_eq_true, if_false]
        exact (runs_enter .matching).bind ((runs_enter .substituting).bind hp.stop)
      rw [(hc _ _ hruns).stagesOf_eq, (hc _ _ hruns).resultOf_eq]
      exact .stopped (hcollected.mpr hnone) p

/-- **A pass over a tree** takes one of the courses. -/
theorem course_rewriteTreeWith (t : Tree) :
    Course (reader.setUp = .ok () ∧ occurrences r t (.ofTree t) ≠ [])
      (stagesOf (rewriteTreeWith reader fixImports r t)) (resultOf (rewriteTreeWith reader fixImports r t)) := by
  cases hsetUp : reader.setUp with
  | error p =>
      have hruns : Runs (rewriteTreeWith reader fixImports r t) [.scanning, .failed] (.error p) := by
        unfold rewriteTreeWith
        rw [hsetUp]
        exact (runs_enter .scanning).bind (runs_fail p).stop
      rw [hruns.stagesOf_eq, hruns.resultOf_eq]
      exact .unread (by simp) p
  | ok _ =>
      refine course_of_matchAndReplace reader fixImports r (t := t) ?_ (by simp)
      intro steps x hruns
      unfold rewriteTreeWith
      rw [hsetUp]
      exact (runs_enter .scanning).bind ((runs_pure ()).bind hruns)

/-- **A pass over a text** takes one of the courses. -/
theorem course_rewriteWith (source : String) :
    Course (reader.setUp = .ok () ∧ ∃ t, reader.parse source = .ok t ∧ occurrences r t (.ofTree t) ≠ [])
      (stagesOf (rewriteWith reader fixImports r source)) (resultOf (rewriteWith reader fixImports r source)) := by
  cases hsetUp : reader.setUp with
  | error p =>
      have hruns : Runs (rewriteWith reader fixImports r source) [.scanning, .failed] (.error p) := by
        unfold rewriteWith
        rw [hsetUp]
        exact (runs_enter .scanning).bind (runs_fail p).stop
      rw [hruns.stagesOf_eq, hruns.resultOf_eq]
      exact .unread (by simp) p
  | ok _ =>
      cases hparse : reader.parse source with
      | error p =>
          have hruns : Runs (rewriteWith reader fixImports r source) [.scanning, .failed] (.error p) := by
            unfold rewriteWith
            rw [hsetUp, hparse]
            exact (runs_enter .scanning).bind ((runs_pure ()).bind (runs_fail p).stop)
          rw [hruns.stagesOf_eq, hruns.resultOf_eq]
          exact .unread (by simp) p
      | ok t =>
          refine course_of_matchAndReplace reader fixImports r (t := t) ?_ (by simp)
          intro steps x hruns
          unfold rewriteWith
          rw [hsetUp, hparse]
          exact (runs_enter .scanning).bind ((runs_pure ()).bind ((runs_pure t).bind hruns))

/-! ## Lifecycles -/

/-- What the stages of a pass are like, by its result and by whether sites have been collected. -/
structure Lifecycle (collected : Prop) (stages : List Stage) (x : Except Problem Outcome) : Prop where
  /-- It starts in `idle`. -/
  starts : stages.head? = some .idle
  /-- It takes no step that is not allowed. -/
  allowed : stages.IsChain fun s s' => s.canPrecede s' = true
  /-- It ends in `idle` if it succeeds, and in `failed` if it fails. -/
  succeeds : stages.getLast? = some .idle ↔ ∃ o, x = .ok o
  fails : stages.getLast? = some .failed ↔ ∃ p, x = .error p
  /-- It fails once, and from two stages only. -/
  once : stages.count .failed ≤ 1
  failsFrom : ∀ front s back, stages = front ++ s :: .failed :: back → s = .scanning ∨ s = .substituting
  /-- It replaces sites if there are any. -/
  replaces : .substituting ∈ stages ↔ collected

/-- Two stages may come right before `failed`. -/
theorem Stage.eq_of_canPrecede_failed {s : Stage} (h : s.canPrecede .failed = true) :
    s = .scanning ∨ s = .substituting := by
  cases s with
  | scanning => exact Or.inl rfl
  | substituting => exact Or.inr rfl
  | idle | matching | reemitting | failed => exact absurd h (by decide)

/-- **A course is a lifecycle.** -/
theorem Course.lifecycle {collected : Prop} {stages : List Stage} {x : Except Problem Outcome}
    (h : Course collected stages x) : Lifecycle collected stages x := by
  have hallowed : stages.IsChain fun s s' => s.canPrecede s' = true := by
    cases h <;> decide
  refine ⟨?starts, hallowed, ?succeeds, ?fails, ?once, ?failsFrom, ?replaces⟩
  case starts => cases h <;> rfl
  case succeeds => cases h <;> simp
  case fails => cases h <;> simp
  case once => cases h <;> decide
  case failsFrom =>
    intro front s back hsplit
    rw [hsplit, List.isChain_append_cons_cons] at hallowed
    exact Stage.eq_of_canPrecede_failed hallowed.2.1
  case replaces =>
    cases h with
    | unread none | unchanged none => simp [none]
    | stopped some | replaced some => simp [some]

/-- **The lifecycle of a pass**, over a text or over a tree, whatever it reads texts with; `apply` and `applyTree` are
the results of those that read with `Reader.java`. -/
theorem lifecycle_rewriteWith :
    (∀ source, Lifecycle
      (reader.setUp = .ok () ∧ ∃ t, reader.parse source = .ok t ∧ occurrences r t (.ofTree t) ≠ [])
      (stagesOf (rewriteWith reader fixImports r source)) (resultOf (rewriteWith reader fixImports r source))) ∧
    ∀ t, Lifecycle (reader.setUp = .ok () ∧ occurrences r t (.ofTree t) ≠ [])
      (stagesOf (rewriteTreeWith reader fixImports r t)) (resultOf (rewriteTreeWith reader fixImports r t)) :=
  ⟨fun source => (course_rewriteWith reader fixImports r source).lifecycle,
    fun t => (course_rewriteTreeWith reader fixImports r t).lifecycle⟩

/-- Without anything that reads texts, a tree is not looked at. -/
example (p : Problem) (t : Tree) :
    stagesOf (rewriteTreeWith { reader with setUp := .error p } fixImports r t) = [.idle, .scanning, .failed] := rfl

end JavaRefactor.Pass

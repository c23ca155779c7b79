import JavaRefactor.Proofs.Registry.Loading
import JavaRefactor.Proofs.Sorting

/-!
# `Proofs.Registry.Growth` — a registry only grows

Rules come one by one, by documents, and by the files of a path, and any of these calls may fail. What a call adds
stands under names that were free, so that a name keeps the rule it was given first, however many calls follow and
however they end. A document that fails leaves the rules in front of the draft that failed; one that loads has been
added as a whole, and it loads exactly if all its drafts can be built and all its names are free and differ.

## Contents
- **`Call`**, with `Registry.call` and `Registry.afterCalls`.
- **`Loadable`** drafts, and what it is that one registry `Adds` to another one.
- **Documents.** `adds_registerAll`, `registerAll_snd_eq_none_iff` and `registerAll_append`.
- **Files.** `loadFiles_eq_registerAll`: files that can be read are one document; `FilesOf` a path.
- **Names.** `get?_call_of_some`, what one call keeps; `get?_afterCalls_of_some`, what any calls keep.
- **`WritesOnce`**, what calls do to a registry, and **`write_once`**.
-/

namespace JavaRefactor.Registry

/-- A call that is to add rules. -/
inductive Call where
  /-- A single rule. -/
  | rule (name : String) (rule : Rule)
  /-- The drafts of a document. -/
  | document (drafts : List RuleDraft)
  /-- The documents of a path, on the disk as it is at that time. -/
  | path (disk : Disk) (path : String)

/-- What a call makes of a registry, and the problem it ends in. -/
def call (r : Registry) : Call → Registry × Option LoadProblem
  | .rule name rule =>
    match r.register name rule with
    | .ok r' => (r', none)
    | .error p => (r, some p)
  | .document drafts => r.registerAll drafts
  | .path disk path => r.loadPath disk path

/-- The registry behind some calls, whether they fail or not. -/
def afterCalls (r : Registry) (calls : List Call) : Registry := calls.foldl (fun r c => (r.call c).1) r

@[simp] theorem afterCalls_nil (r : Registry) : r.afterCalls [] = r := rfl

@[simp] theorem afterCalls_cons (r : Registry) (c : Call) (calls : List Call) :
    r.afterCalls (c :: calls) = (r.call c).1.afterCalls calls := rfl

/-- The drafts can be built, and their names are free and differ. -/
structure Loadable (r : Registry) (ds : List RuleDraft) : Prop where
  built : ∀ d ∈ ds, ∃ rule, d.build = .ok rule
  distinct : (ds.map (·.name)).Nodup
  free : ∀ d ∈ ds, r.rules.get? d.name = none

/-- One registry has what the other has, the rules of loadable drafts, and nothing else. -/
structure Adds (r : Registry) (ds : List RuleDraft) (r' : Registry) : Prop where
  loadable : r.Loadable ds
  kept : ∀ n rule, r.rules.get? n = some rule → r'.rules.get? n = some rule
  added : ∀ d ∈ ds, ∀ rule, d.build = .ok rule → r'.rules.get? d.name = some rule
  nothingElse : ∀ n rule, r'.rules.get? n = some rule →
    r.rules.get? n = some rule ∨ ∃ d ∈ ds, d.name = n ∧ d.build = .ok rule

variable {r r' : Registry} {d : RuleDraft} {ds es : List RuleDraft} {rule : Rule} {n : String} {p : LoadProblem}

/-! ## Single rules -/

/-- A rule is registered if its name is free. -/
theorem register_eq_ok : r.register n rule = .ok r' ↔
    r.rules.get? n = none ∧ r' = ⟨r.rules.insert n rule⟩ := by
  have htaken : r.rules.contains n = (r.rules.get? n).isSome := rfl
  unfold register
  rw [htaken]
  cases hget : r.rules.get? n with
  | none => simp [eq_comm]
  | some other => simp

/-- A rule that is refused has a name that is taken. -/
theorem register_eq_error : r.register n rule = .error p ↔
    (∃ other, r.rules.get? n = some other) ∧ p = .duplicateRule n := by
  have htaken : r.rules.contains n = (r.rules.get? n).isSome := rfl
  unfold register
  rw [htaken]
  cases hget : r.rules.get? n with
  | none => simp
  | some other => simp [eq_comm]

/-! ## Documents -/

theorem Adds.nil (r : Registry) : r.Adds [] r where
  loadable := ⟨by simp, List.nodup_nil, by simp⟩
  kept _ _ h := h
  added _ hd := absurd hd (by simp)
  nothingElse _ _ h := Or.inl h

/-- **A registered draft** in front of drafts that are added behind it. -/
theorem Adds.cons {r₁ : Registry} (hd : r.registerDraft d = .ok r₁) (h : r₁.Adds ds r') :
    r.Adds (d :: ds) r' := by
  obtain ⟨rule, hrule, hnew, hr₁⟩ := registerDraft_eq_ok.mp hd
  have hget : ∀ n, r₁.rules.get? n = (r.rules.get? n).or (if n = d.name then some rule else none) := by
    intro n
    rw [hr₁]
    exact Keyed.get?_insert ..
  have hown : r₁.rules.get? d.name = some rule := by
    rw [hget, hnew, Option.none_or, if_pos rfl]
  have hkept : ∀ n rule', r.rules.get? n = some rule' → r₁.rules.get? n = some rule' := by
    intro n rule' hn
    rw [hget, hn, Option.some_or]
  -- a name that is free behind the draft was free before, and is not that of the draft
  have hfree : ∀ e ∈ ds, r.rules.get? e.name = none ∧ e.name ≠ d.name := by
    intro e he
    have hnone := h.loadable.free e he
    constructor
    · rw [hget] at hnone
      exact (Option.or_eq_none_iff.mp hnone).1
    · intro hsame
      rw [hsame, hown] at hnone
      exact absurd hnone (by simp)
  refine ⟨⟨?built, ?distinct, ?free⟩, ?kept, ?added, ?nothingElse⟩
  case built =>
    intro e he
    rcases List.mem_cons.mp he with rfl | he
    · exact ⟨rule, hrule⟩
    · exact h.loadable.built e he
  case distinct =>
    rw [List.map_cons, List.nodup_cons]
    refine ⟨?_, h.loadable.distinct⟩
    intro hmem
    obtain ⟨e, he, hsame⟩ := List.mem_map.mp hmem
    exact (hfree e he).2 hsame
  case free =>
    intro e he
    rcases List.mem_cons.mp he with rfl | he
    · exact hnew
    · exact (hfree e he).1
  case kept =>
    intro n rule' hn
    exact h.kept n rule' (hkept n rule' hn)
  case added =>
    intro e he rule' hrule'
    rcases List.mem_cons.mp he with rfl | he
    · rw [hrule] at hrule'
      obtain rfl := Except.ok.inj hrule'
      exact h.kept _ _ hown
    · exact h.added e he rule' hrule'
  case nothingElse =>
    intro n rule' hn
    rcases h.nothingElse n rule' hn with hn | ⟨e, he, hname, hbuild⟩
    · rw [hget] at hn
      rcases Option.or_eq_some_iff.mp hn with hn | ⟨-, hn⟩
      · exact Or.inl hn
      · split at hn
        · rename_i hname
          obtain rfl := Option.some.inj hn
          exact Or.inr ⟨d, List.mem_cons_self .., hname.symm, hrule⟩
        · exact absurd hn (by simp)
    · exact Or.inr ⟨e, List.mem_cons_of_mem d he, hname, hbuild⟩

/-- **What loading drafts adds** are the drafts in front of the first one that fails, or all of them. -/
theorem adds_registerAll (r : Registry) (ds : List RuleDraft) :
    ((r.registerAll ds).2 = none ∧ r.Adds ds (r.registerAll ds).1) ∨
    ∃ front d rest p, ds = front ++ d :: rest ∧ (r.registerAll ds).2 = some p ∧
      r.Adds front (r.registerAll ds).1 ∧ (r.registerAll ds).1.registerDraft d = .error p := by
  induction ds generalizing r with
  | nil => exact Or.inl ⟨rfl, .nil r⟩
  | cons d ds ih =>
      rw [registerAll]
      cases hd : r.registerDraft d with
      | error p => exact Or.inr ⟨[], d, ds, p, rfl, rfl, .nil r, hd⟩
      | ok r₁ =>
          rcases ih r₁ with ⟨hnone, hadds⟩ | ⟨front, e, rest, p, rfl, hp, hadds, he⟩
          · exact Or.inl ⟨hnone, hadds.cons hd⟩
          · exact Or.inr ⟨d :: front, e, rest, p, rfl, hp, hadds.cons hd, he⟩

/-- **Drafts load** exactly if they are loadable. -/
theorem registerAll_snd_eq_none_iff : (r.registerAll ds).2 = none ↔ r.Loadable ds := by
  constructor
  · intro h
    rcases adds_registerAll r ds with ⟨-, hadds⟩ | ⟨_, _, _, p, -, hp, -⟩
    · exact hadds.loadable
    · rw [h] at hp
      exact absurd hp (by simp)
  · intro h
    exact registerAll_snd_eq_none h.built h.distinct h.free

/-- Drafts behind others are loaded if those have been. -/
theorem registerAll_append (r : Registry) (ds es : List RuleDraft) :
    r.registerAll (ds ++ es) =
      match r.registerAll ds with
      | (r', some p) => (r', some p)
      | (r', none) => r'.registerAll es := by
  induction ds generalizing r with
  | nil => rfl
  | cons d ds ih =>
      rw [List.cons_append, registerAll, registerAll]
      cases r.registerDraft d with
      | error p => rfl
      | ok r₁ => exact ih r₁

/-! ## Files -/

/-- **Files that can be read** are loaded as if they were one document. -/
theorem loadFiles_eq_registerAll {disk : Disk} {files : List String} {documents : List (List RuleDraft)}
    (h : files.mapM (Document.read disk) = .ok documents) (r : Registry) :
    loadFiles disk r files = r.registerAll documents.flatten := by
  have hall := Attempts.mapM_eq_ok.mp h
  clear h
  induction hall generalizing r with
  | nil => rfl
  | @cons file document files documents hread _ ih =>
      rw [loadFiles, hread, List.flatten_cons, registerAll_append]
      simp only
      cases r.registerAll document with
      | mk r₁ problem =>
          cases problem with
          | some p => rfl
          | none => exact ih r₁

/-- The files that are loaded for a path: the file itself, or those of a directory that are to hold rules, in the
order of their names. -/
inductive FilesOf (disk : Disk) (path : String) : List String → Prop where
  | itself : disk.isDirectory path = .ok false → FilesOf disk path [path]
  | directory (listed names : List String) : disk.isDirectory path = .ok true → disk.listing path = .ok listed →
    names.Pairwise (· ≤ ·) → names.Sublist listed →
    (∀ name, name ∈ names ↔
      name ∈ listed ∧ (Disk.extension? name = some "yaml" ∨ Disk.extension? name = some "yml")) →
    FilesOf disk path (names.map (Disk.join path))

/-- A directory lists its files in the order of their names. -/
theorem pairwise_listing {disk : Disk} {path : String} {names : List String} (h : disk.listing path = .ok names) :
    names.Pairwise (· ≤ ·) := by
  unfold Disk.listing at h
  split at h
  · exact absurd h (by simp)
  · exact absurd h (by simp)
  · obtain rfl := Except.ok.inj h
    refine (pairwise_le_sortWith ?total ?trans _).imp of_decide_eq_true
    case total =>
      intro a b
      simpa using String.le_total a b
    case trans =>
      intro a b c hab hbc
      simpa using String.le_trans (of_decide_eq_true hab) (of_decide_eq_true hbc)

theorem filesOf_ruleFiles {disk : Disk} {path : String} {files : List String}
    (h : ruleFiles disk path = .ok files) : FilesOf disk path files := by
  unfold ruleFiles at h
  cases hkind : disk.isDirectory path with
  | error f =>
      rw [hkind] at h
      exact absurd h (by simp)
  | ok isDirectory =>
      rw [hkind] at h
      cases isDirectory with
      | false =>
          obtain rfl := Except.ok.inj h
          exact .itself hkind
      | true =>
          simp only at h
          cases hlisted : disk.listing path with
          | error f =>
              rw [hlisted] at h
              exact absurd h (by simp)
          | ok listed =>
              rw [hlisted] at h
              obtain rfl := Except.ok.inj h
              apply FilesOf.directory listed _ hkind hlisted
              · exact (pairwise_listing hlisted).filter _
              · exact List.filter_sublist
              · intro name
                rw [List.mem_filter, Bool.or_eq_true, beq_iff_eq, beq_iff_eq]

/-! ## Names -/

/-- **Files keep every rule**, however far loading them gets. -/
theorem get?_loadFiles_of_some {disk : Disk} {files : List String} (h : r.rules.get? n = some rule) :
    (loadFiles disk r files).1.rules.get? n = some rule := by
  induction files generalizing r with
  | nil => exact h
  | cons file files ih =>
      rw [loadFiles]
      cases Document.read disk file with
      | error p => exact h
      | ok drafts =>
          have hkept : (r.registerAll drafts).1.rules.get? n = some rule := get?_registerAll_of_some h
          simp only
          cases hall : r.registerAll drafts with
          | mk r₁ problem =>
              rw [hall] at hkept
              cases problem with
              | some p => exact hkept
              | none => exact ih hkept

/-- **One call keeps every rule**, whether it fails or not. -/
theorem get?_call_of_some (h : r.rules.get? n = some rule) (c : Call) :
    (r.call c).1.rules.get? n = some rule := by
  cases c with
  | rule name other =>
      unfold call
      simp only
      cases hr : r.register name other with
      | error p => exact h
      | ok r' =>
          obtain ⟨-, rfl⟩ := register_eq_ok.mp hr
          show (r.rules.insert name other).get? n = some rule
          rw [Keyed.get?_insert, h, Option.some_or]
  | document drafts => exact get?_registerAll_of_some h
  | path disk path =>
      show (r.loadPath disk path).1.rules.get? n = some rule
      unfold loadPath
      cases ruleFiles disk path with
      | error p => exact h
      | ok files => exact get?_loadFiles_of_some h

/-- **Calls keep every rule.** -/
theorem get?_afterCalls_of_some (h : r.rules.get? n = some rule) (calls : List Call) :
    (r.afterCalls calls).rules.get? n = some rule := by
  induction calls generalizing r with
  | nil => exact h
  | cons c calls ih =>
      rw [afterCalls_cons]
      exact ih (get?_call_of_some h c)

/-! ## Writing once -/

/-- What calls do to a registry: they write a rule under a name once, and for good. -/
structure WritesOnce (r : Registry) : Prop where
  /-- A name keeps its rule, whatever is called, and whether it fails or not. -/
  kept : ∀ calls n rule, r.rules.get? n = some rule →
    (r.afterCalls calls).rules.get? n = some rule ∧ (r.afterCalls calls).lookup n = .ok rule
  /-- A rule is refused exactly if its name is taken, and nothing has changed then. -/
  refused : ∀ n rule, (r.call (.rule n rule)).2 ≠ none ↔ r.rules.get? n ≠ none
  unchanged : ∀ n rule p, (r.call (.rule n rule)).2 = some p →
    (r.call (.rule n rule)).1 = r ∧ p = .duplicateRule n
  /-- A rule that is not refused is found under its name. -/
  written : ∀ n rule, (r.call (.rule n rule)).2 = none →
    ∀ k, (r.call (.rule n rule)).1.rules.get? k = if k = n then some rule else r.rules.get? k
  /-- A document that fails has added what is in front of the draft that failed. -/
  stopped : ∀ ds p, (r.call (.document ds)).2 = some p → ∃ front d rest, ds = front ++ d :: rest ∧
    r.Adds front (r.call (.document ds)).1 ∧ (r.call (.document ds)).1.registerDraft d = .error p
  /-- A document that does not fail has been added as a whole. -/
  loaded : ∀ ds, (r.call (.document ds)).2 = none → r.Adds ds (r.call (.document ds)).1
  /-- A document loads exactly if its drafts can be built and their names are free and differ. -/
  loads : ∀ ds, (r.call (.document ds)).2 = none ↔ r.Loadable ds
  /-- Files that can be read are loaded like one document of all their drafts, in the order of their names. -/
  files : ∀ disk path files documents, ruleFiles disk path = .ok files →
    files.mapM (Document.read disk) = .ok documents →
    FilesOf disk path files ∧ r.call (.path disk path) = r.call (.document documents.flatten) ∧
      ((r.call (.path disk path)).2 = none ↔ r.Loadable documents.flatten)

theorem call_rule_of_none (h : r.rules.get? n = none) :
    r.call (.rule n rule) = (⟨r.rules.insert n rule⟩, none) := by
  unfold call
  simp only [register_eq_ok.mpr ⟨h, rfl⟩]

theorem call_rule_of_some {other : Rule} (h : r.rules.get? n = some other) :
    r.call (.rule n rule) = (r, some (.duplicateRule n)) := by
  unfold call
  simp only [register_eq_error.mpr ⟨⟨other, h⟩, rfl⟩]

/-- **A name is written once**: it keeps the rule that it was given first. -/
theorem write_once (r : Registry) : r.WritesOnce where
  kept calls n rule h := by
    have hkept := get?_afterCalls_of_some h calls
    refine ⟨hkept, ?_⟩
    unfold lookup
    rw [hkept]
  refused n rule := by
    cases h : r.rules.get? n with
    | none => simp [call_rule_of_none h]
    | some other => simp [call_rule_of_some h]
  unchanged n rule p hp := by
    cases h : r.rules.get? n with
    | none =>
        rw [call_rule_of_none h] at hp
        exact absurd hp (by simp)
    | some other =>
        rw [call_rule_of_some h] at hp ⊢
        exact ⟨rfl, (Option.some.inj hp).symm⟩
  written n rule hnone k := by
    cases h : r.rules.get? n with
    | some other =>
        rw [call_rule_of_some h] at hnone
        exact absurd hnone (by simp)
    | none =>
        rw [call_rule_of_none h]
        show (r.rules.insert n rule).get? k = _
        rw [Keyed.get?_insert]
        by_cases hk : k = n
        · rw [hk, h, Option.none_or, if_pos rfl]
        · rw [if_neg hk, if_neg hk, Option.or_none]
  stopped ds p hp := by
    rcases adds_registerAll r ds with ⟨hnone, -⟩ | ⟨front, d, rest, p', hds, hp', hadds, hd⟩
    · exact absurd (hnone.symm.trans hp) (by simp)
    · obtain rfl := Option.some.inj (hp'.symm.trans hp)
      exact ⟨front, d, rest, hds, hadds, hd⟩
  loaded ds hnone := by
    rcases adds_registerAll r ds with ⟨-, hadds⟩ | ⟨_, _, _, p, -, hp, -⟩
    · exact hadds
    · exact absurd (hp.symm.trans hnone) (by simp)
  loads ds := registerAll_snd_eq_none_iff
  files disk path files documents hfiles hread := by
    have hcall : r.call (.path disk path) = r.call (.document documents.flatten) := by
      show r.loadPath disk path = r.registerAll documents.flatten
      unfold loadPath
      rw [hfiles]
      exact loadFiles_eq_registerAll hread r
    refine ⟨filesOf_ruleFiles hfiles, hcall, ?_⟩
    rw [hcall]
    exact registerAll_snd_eq_none_iff

/-- A rule that is refused, and a document whose second draft cannot be built: the first draft stays. -/
theorem write_once_stopped : ∃ (r : Registry) (plain swapped : Rule) (swap unfinished : RuleDraft)
    (calls : List Call),
    r = ⟨Keyed.empty.insert "Sums.Plain" plain⟩ ∧
    swap = .simple "Sums.Swap" "a + b" "b + a" ∧ swap.build = .ok swapped ∧
    unfinished = { swap with name := "Sums.Unfinished", after := none } ∧
    calls = [.rule "Sums.Plain" swapped, .document [swap, unfinished, swap]] ∧
    (r.afterCalls calls).lookup "Sums.Plain" = .ok plain ∧
    r.Adds [swap] (r.afterCalls calls) := by
  have hsome : (RuleDraft.simple "Sums.Swap" "a + b" "b + a").build.toOption.isSome = true := by decide +kernel
  obtain ⟨swapped, hswapped⟩ := Option.isSome_iff_exists.mp hsome
  let r : Registry := ⟨Keyed.empty.insert "Sums.Plain" default⟩
  let swap : RuleDraft := .simple "Sums.Swap" "a + b" "b + a"
  let unfinished : RuleDraft := { swap with name := "Sums.Unfinished", after := none }
  have hswap : swap.build = .ok swapped := Attempts.toOption_eq_some.mp hswapped
  have hplain : r.rules.get? "Sums.Plain" = some default := rfl
  let calls : List Call := [.rule "Sums.Plain" swapped, .document [swap, unfinished, swap]]
  have hcalls : r.afterCalls calls = (r.call (.document [swap, unfinished, swap])).1 := by
    have hrefused : (r.call (.rule "Sums.Plain" swapped)).1 = r := by rw [call_rule_of_some hplain]
    rw [afterCalls_cons, hrefused, afterCalls_cons, afterCalls_nil]
  have hopen : ∀ rule, unfinished.build ≠ .ok rule := by
    intro rule hrule
    exact absurd hrule (by simp [unfinished, RuleDraft.build])
  obtain ⟨p, hfails⟩ : ∃ p, (r.call (.document [swap, unfinished, swap])).2 = some p := by
    rw [← Option.ne_none_iff_exists']
    intro hnone
    obtain ⟨rule, hrule⟩ := (((write_once r).loads _).mp hnone).built unfinished (by simp)
    exact hopen rule hrule
  refine ⟨r, default, swapped, swap, unfinished, calls, rfl, rfl, hswap, rfl, rfl, ?_, ?_⟩
  · exact ((write_once r).kept calls "Sums.Plain" default hplain).2
  · rw [hcalls]
    obtain ⟨front, d, rest, hds, hadds, hd⟩ := (write_once r).stopped _ _ hfails
    rcases front with _ | ⟨first, _ | ⟨second, front⟩⟩
    · -- the first draft can be built, and its name is free
      obtain ⟨rfl, -⟩ := List.cons.inj hds
      have hfree : (r.call (.document [swap, unfinished, swap])).1.rules.get? "Sums.Swap" = none := by
        rw [Option.eq_none_iff_forall_ne_some]
        intro rule hrule
        rcases hadds.nothingElse _ _ hrule with hrule | ⟨_, hnone, -⟩
        · exact absurd hrule (by simp [show r.rules.get? "Sums.Swap" = none from rfl])
        · exact absurd hnone (by simp)
      rw [registerDraft_eq_ok.mpr ⟨swapped, hswap, hfree, rfl⟩] at hd
      exact absurd hd (by simp)
    · obtain ⟨rfl, -⟩ := List.cons.inj hds
      exact hadds
    · obtain ⟨-, hds⟩ := List.cons.inj hds
      obtain ⟨rfl, -⟩ := List.cons.inj hds
      obtain ⟨rule, hrule⟩ := hadds.loadable.built unfinished (by simp)
      exact absurd hrule (hopen rule)

end JavaRefactor.Registry

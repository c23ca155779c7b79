import JavaRefactor.Proofs.Attempts
import JavaRefactor.Registry.Basic

/-!
# `Proofs.Registry.Loading` — what a registry holds after loading rules

A name keeps the rule that is first registered under it. So a registry into which drafts are loaded holds, under a name,
what it held before, or else what the first draft of this name is built to; and the drafts load without a problem if each of
them can be built and their names are new and differ.

## Contents
- **Values by name.** `Keyed.get?_insert`, and `Keyed.get?_of_mem_entries`.
- **Single rules.** `registerDraft_eq_ok`, and `get?_registerDraft`.
- **Several rules.** `get?_registerAll_of_some`, `exists_draft_of_get?_registerAll`, `registerAll_snd_eq_none` and
  `get?_registerAll_of_mem`.
- **Recipes.** `recipe_of_get?`, and `get?_of_mem_recipe`: the rules of a recipe are rules of the registry. Those of
  drafts are built from them (`exists_draft_of_mem_recipe`).
-/

namespace JavaRefactor

/-! ## Values by name -/

namespace Keyed

variable {α : Type}

/-- A name in front of all others is not among them. -/
theorem lookup_eq_none_of_lt {name : String} {entries : List (String × α)}
    (h : ∀ e ∈ entries, name < e.1) : entries.lookup name = none := by
  rw [List.lookup_eq_none_iff]
  intro e he
  have hne : name ≠ e.1 := fun hsame => String.lt_irrefl name (hsame ▸ h e he)
  simpa using hne

theorem lookup_insertEntry {entries : List (String × α)}
    (h : entries.Pairwise fun a b => a.1 < b.1) (name : String) (value : α) (n : String) :
    (insertEntry name value entries).lookup n =
      (entries.lookup n).or (if n = name then some value else none) := by
  induction entries with
  | nil =>
      rw [insertEntry, List.lookup_cons, List.lookup_nil, Option.none_or]
      by_cases hn : n = name
      · rw [beq_iff_eq.mpr hn, if_pos hn]
      · rw [beq_eq_false_iff_ne.mpr hn, if_neg hn]
  | cons first rest ih =>
      obtain ⟨known, v⟩ := first
      obtain ⟨hfirst, hrest⟩ := List.pairwise_cons.mp h
      rw [insertEntry]
      split
      · -- the new entry stands in front of all others
        rename_i hlt
        have hnew : ((known, v) :: rest).lookup name = none := by
          refine lookup_eq_none_of_lt ?_
          intro e he
          rcases List.mem_cons.mp he with rfl | he
          · exact hlt
          · exact String.lt_trans hlt (hfirst e he)
        by_cases hn : n = name
        · subst hn
          rw [List.lookup_cons_self, hnew, Option.none_or, if_pos rfl]
        · rw [List.lookup_cons, beq_eq_false_iff_ne.mpr hn, if_neg hn, Option.or_none]
      · split
        · rename_i hknown
          subst hknown
          by_cases hn : n = name
          · subst hn
            rw [List.lookup_cons_self, Option.some_or]
          · rw [if_neg hn, Option.or_none]
        · rw [List.lookup_cons, List.lookup_cons, ih hrest]
          split <;> simp

/-- **An added value** is found under its name, unless another one stands there. -/
theorem get?_insert (k : Keyed α) (name : String) (value : α) (n : String) :
    (k.insert name value).get? n = (k.get? n).or (if n = name then some value else none) :=
  lookup_insertEntry k.ascending name value n

@[simp] theorem get?_empty (n : String) : (empty : Keyed α).get? n = none := rfl

/-- **What stands under a name** is found there, for no name stands there twice. -/
theorem get?_of_mem_entries {k : Keyed α} {e : String × α} (he : e ∈ k.entries) :
    k.get? e.1 = some e.2 := by
  obtain ⟨front, rest, hsplit⟩ := List.append_of_mem he
  have hascending := k.ascending
  rw [hsplit, List.pairwise_append] at hascending
  obtain ⟨-, -, hfront⟩ := hascending
  unfold get?
  rw [List.lookup_eq_some_iff]
  refine ⟨front, rest, hsplit, ?_⟩
  intro e' he'
  have hlt : e'.1 < e.1 := hfront e' he' e (List.mem_cons_self ..)
  have hne : e.1 ≠ e'.1 := fun hsame => String.lt_irrefl e.1 (hsame ▸ hlt)
  simpa using hne

end Keyed

namespace Registry

variable {r r' : Registry} {d : RuleDraft} {ds : List RuleDraft} {rule : Rule} {n : String}

/-! ## Single rules -/

/-- A draft is registered if it can be built and its name is new. -/
theorem registerDraft_eq_ok :
    r.registerDraft d = .ok r' ↔
      ∃ rule, d.build = .ok rule ∧ r.rules.get? d.name = none ∧ r' = ⟨r.rules.insert d.name rule⟩ := by
  unfold registerDraft
  cases hd : d.build with
  | error p => simp
  | ok rule =>
      have htaken : r.rules.contains d.name = (r.rules.get? d.name).isSome := rfl
      simp only [register, htaken, Except.ok.injEq, exists_eq_left']
      split
      · rename_i hsome
        have hne : r.rules.get? d.name ≠ none := Option.isSome_iff_ne_none.mp hsome
        simp [hne]
      · rename_i hnone
        have hnew : r.rules.get? d.name = none := by simpa using hnone
        simp [hnew, eq_comm]

/-- **A registered draft** is found under its name, and all else is as before. -/
theorem get?_registerDraft (h : r.registerDraft d = .ok r') :
    ∃ rule, d.build = .ok rule ∧
      ∀ n, r'.rules.get? n = if n = d.name then some rule else r.rules.get? n := by
  obtain ⟨rule, hrule, hnew, rfl⟩ := registerDraft_eq_ok.mp h
  refine ⟨rule, hrule, ?_⟩
  intro n
  show (r.rules.insert d.name rule).get? n = _
  rw [Keyed.get?_insert]
  by_cases hn : n = d.name
  · rw [hn, hnew, Option.none_or, if_pos rfl]
  · rw [if_neg hn, if_neg hn, Option.or_none]

/-! ## Several rules -/

/-- **A name keeps its rule.** -/
theorem get?_registerAll_of_some (h : r.rules.get? n = some rule) :
    (r.registerAll ds).1.rules.get? n = some rule := by
  induction ds generalizing r with
  | nil => exact h
  | cons d ds ih =>
      rw [registerAll]
      cases hd : r.registerDraft d with
      | error p => exact h
      | ok r' =>
          refine ih ?_
          -- the name is not the one of the draft, for that name was new
          obtain ⟨_, _, hnew, rfl⟩ := registerDraft_eq_ok.mp hd
          show (r.rules.insert d.name _).get? n = some rule
          rw [Keyed.get?_insert, h, Option.some_or]

/-- **What is found under a name** was there before, or is built from a draft of this name. -/
theorem exists_draft_of_get?_registerAll (h : (r.registerAll ds).1.rules.get? n = some rule) :
    r.rules.get? n = some rule ∨ ∃ d ∈ ds, d.name = n ∧ d.build = .ok rule := by
  induction ds generalizing r with
  | nil => exact Or.inl h
  | cons d ds ih =>
      rw [registerAll] at h
      cases hd : r.registerDraft d with
      | error p =>
          rw [hd] at h
          exact Or.inl h
      | ok r' =>
          rw [hd] at h
          rcases ih h with hbefore | ⟨d', hd', hname, hbuild⟩
          · obtain ⟨built, hbuilt, hget⟩ := get?_registerDraft hd
            rw [hget] at hbefore
            split at hbefore
            · rename_i hname
              obtain rfl := Option.some.inj hbefore
              exact Or.inr ⟨d, List.mem_cons_self .., hname.symm, hbuilt⟩
            · exact Or.inl hbefore
          · exact Or.inr ⟨d', List.mem_cons_of_mem d hd', hname, hbuild⟩

/-- **Drafts load without a problem** if each of them can be built and their names are new and differ. -/
theorem registerAll_snd_eq_none (hbuild : ∀ d ∈ ds, ∃ rule, d.build = .ok rule)
    (hne : (ds.map (·.name)).Nodup) (hnew : ∀ d ∈ ds, r.rules.get? d.name = none) :
    (r.registerAll ds).2 = none := by
  induction ds generalizing r with
  | nil => rfl
  | cons d ds ih =>
      obtain ⟨rule, hrule⟩ := hbuild d (List.mem_cons_self ..)
      have hd : r.registerDraft d = .ok ⟨r.rules.insert d.name rule⟩ :=
        registerDraft_eq_ok.mpr ⟨rule, hrule, hnew d (List.mem_cons_self ..), rfl⟩
      rw [List.map_cons, List.nodup_cons] at hne
      obtain ⟨hname, hne⟩ := hne
      rw [registerAll, hd]
      refine ih (fun d' hd' => hbuild d' (List.mem_cons_of_mem d hd')) hne ?_
      intro d' hd'
      have hother : d'.name ≠ d.name := fun hsame => hname (hsame ▸ List.mem_map_of_mem hd')
      show (r.rules.insert d.name rule).get? d'.name = none
      rw [Keyed.get?_insert, hnew d' (List.mem_cons_of_mem d hd'), Option.none_or, if_neg hother]

/-- **Drafts that load without a problem** are all found under their names. -/
theorem get?_registerAll_of_mem (h : (r.registerAll ds).2 = none) (hd : d ∈ ds)
    (hrule : d.build = .ok rule) : (r.registerAll ds).1.rules.get? d.name = some rule := by
  induction ds generalizing r with
  | nil => exact absurd hd (by simp)
  | cons first ds ih =>
      rw [registerAll] at h ⊢
      cases hfirst : r.registerDraft first with
      | error p =>
          rw [hfirst] at h
          exact absurd h (by simp)
      | ok r' =>
          rw [hfirst] at h
          rcases List.mem_cons.mp hd with rfl | hd
          · obtain ⟨built, hbuilt, hget⟩ := get?_registerDraft hfirst
            rw [hrule] at hbuilt
            obtain rfl := Except.ok.inj hbuilt
            refine get?_registerAll_of_some ?_
            rw [hget, if_pos rfl]
          · exact ih h hd

/-! ## Recipes -/

/-- The recipe of a rule's name is this rule. -/
theorem recipe_of_get? (h : r.rules.get? n = some rule) : r.recipe n = .ok [rule] := by
  unfold recipe
  rw [h]

/-- **The rules of a recipe** are rules of the registry. -/
theorem get?_of_mem_recipe {name : String} {rules : List Rule} (h : r.recipe name = .ok rules)
    (hrule : rule ∈ rules) : ∃ n, r.rules.get? n = some rule := by
  unfold recipe at h
  split at h
  · rename_i only honly
    obtain rfl := Except.ok.inj h
    obtain rfl := List.mem_singleton.mp hrule
    exact ⟨name, honly⟩
  · split at h
    · exact absurd h (by simp)
    · obtain rfl := Except.ok.inj h
      obtain ⟨e, he, rfl⟩ := List.mem_map.mp hrule
      have hentry : e ∈ r.rules.entries :=
        (List.dropWhile_sublist _).subset ((List.takeWhile_sublist _).subset he)
      exact ⟨e.1, Keyed.get?_of_mem_entries hentry⟩

/-- **The rules of a recipe of drafts** are built from some of them. -/
theorem exists_draft_of_mem_recipe {name : String} {rules : List Rule}
    (h : (ofDrafts ds).recipe name = .ok rules) (hrule : rule ∈ rules) : ∃ d ∈ ds, d.build = .ok rule := by
  obtain ⟨n, hn⟩ := get?_of_mem_recipe h hrule
  unfold ofDrafts at hn
  rcases exists_draft_of_get?_registerAll hn with hnone | ⟨d, hd, -, hbuild⟩
  · have hempty : empty.rules.get? n = none := Keyed.get?_empty n
    rw [hempty] at hnone
    exact absurd hnone (by simp)
  · exact ⟨d, hd, hbuild⟩

/-- The name of a draft in front of all others is that of its rule. -/
theorem recipe_ofDrafts_cons (h : d.build = .ok rule) : (ofDrafts (d :: ds)).recipe d.name = .ok [rule] := by
  refine recipe_of_get? ?_
  have hfirst : empty.registerDraft d = .ok ⟨empty.rules.insert d.name rule⟩ :=
    registerDraft_eq_ok.mpr ⟨rule, h, Keyed.get?_empty d.name, rfl⟩
  unfold ofDrafts
  rw [registerAll, hfirst]
  refine get?_registerAll_of_some ?_
  show (empty.rules.insert d.name rule).get? d.name = some rule
  rw [Keyed.get?_insert, if_pos rfl]
  exact Option.none_or

end Registry

end JavaRefactor

import JavaRefactor.Proofs.Registry.Loading

/-!
# `Proofs.Registry.Recipes` — the rules of a group stand together

A recipe walks over the names in their order: it passes over those in front of the group's front and takes what starts
with it, up to the first name that does not. Nothing is lost on the way, for the names that start with one text are
neighbours: they begin with the text itself, and what stands behind a name that does not start with it has left the text
behind at the same character.

## Contents
- **Order of texts.** `append_lt_of_not_prefix`: a text behind another one that it does not start with stands behind all
  that do; so `not_prefix_of_lt`.
- **`group_eq_filter`**: the walk takes the entries whose names start with the group's front; so `mem_group`, and
  `group_isEmpty_iff`.
- **`recipe_resolves`**, what a recipe is for any name.
-/

namespace JavaRefactor

/-! ## Order of texts -/

section Order

variable {front a b : List Char}

/-- **Behind a text that it does not start with**, a text stands behind everything that starts with that. -/
theorem append_lt_of_not_prefix (hle : ¬ a < front) (hnot : ¬ front <+: a) (rest : List Char) :
    front ++ rest < a := by
  induction front generalizing a with
  | nil => exact absurd (List.nil_prefix) hnot
  | cons c cs ih =>
      cases a with
      | nil => exact absurd (List.nil_lt_cons c cs) hle
      | cons d ds =>
          rw [List.cons_append, List.cons_lt_cons_iff]
          by_cases hcd : c = d
          · -- the first characters agree, so the difference is behind them
            subst hcd
            refine Or.inr ⟨rfl, ih ?_ ?_⟩
            · intro hlt
              exact hle (List.cons_lt_cons_iff.mpr (Or.inr ⟨rfl, hlt⟩))
            · intro hprefix
              exact hnot (List.cons_prefix_cons.mpr ⟨rfl, hprefix⟩)
          · refine Or.inl (Char.not_le.mp ?_)
            intro hdc
            have hlt : d < c := Char.not_le.mp fun hcd' => hcd (Char.le_antisymm hcd' hdc)
            exact hle (List.cons_lt_cons_iff.mpr (Or.inl hlt))

/-- Behind the texts that start with a front there is none that does. -/
theorem not_prefix_of_lt (hle : ¬ a < front) (hnot : ¬ front <+: a) (hab : a < b) : ¬ front <+: b := by
  rintro ⟨rest, rfl⟩
  have hbehind := append_lt_of_not_prefix hle hnot rest
  exact List.lt_asymm hab hbehind

end Order

/-- **What is found under a name** is what stands there. -/
theorem Keyed.get?_eq_some_iff {α : Type} {k : Keyed α} {name : String} {value : α} :
    k.get? name = some value ↔ (name, value) ∈ k.entries := by
  constructor
  · intro h
    obtain ⟨front, rest, hsplit, -⟩ := List.lookup_eq_some_iff.mp h
    rw [hsplit]
    simp
  · intro h
    exact get?_of_mem_entries h

namespace Registry

variable {r : Registry} {name : String}

/-! ## Groups -/

/-- Whether a name is one of a group: the name of the group, a point, and anything. -/
theorem isPrefixOf_groupFront {key : String} :
    (groupFront name).toList.isPrefixOf key.toList = true ↔ ∃ rest, key = name ++ "." ++ rest := by
  rw [List.isPrefixOf_iff_prefix]
  constructor
  · rintro ⟨rest, hrest⟩
    refine ⟨String.ofList rest, String.toList_injective ?_⟩
    rw [String.toList_append, String.toList_ofList]
    exact hrest.symm
  · rintro ⟨rest, rfl⟩
    rw [String.toList_append]
    exact List.prefix_append _ _

/-- **The walk** through names in order takes all that start with the front of the group, and nothing else. -/
theorem group_eq_filter {entries : List (String × Rule)} (h : entries.Pairwise fun a b => a.1 < b.1) :
    group entries name = entries.filter fun e => (groupFront name).toList.isPrefixOf e.1.toList := by
  unfold group
  simp only
  induction entries with
  | nil => rfl
  | cons e rest ih =>
      obtain ⟨hfirst, hrest⟩ := List.pairwise_cons.mp h
      by_cases hbefore : e.1 < groupFront name
      · -- what starts with the front is not before it
        have hnot : ¬ (groupFront name).toList <+: e.1.toList := fun hprefix => hprefix.le hbefore
        rw [List.dropWhile_cons_of_pos (by simpa using hbefore),
          List.filter_cons_of_neg (by simpa using hnot)]
        exact ih hrest
      · -- from here on nothing is passed over
        have hbehind : ∀ e' ∈ rest, ¬ e'.1 < groupFront name := by
          intro e' he' hlt
          exact hbefore (String.lt_trans (hfirst e' he') hlt)
        have hkept : (rest.dropWhile fun e => decide (e.1 < groupFront name)) = rest := by
          cases rest with
          | nil => rfl
          | cons e' rest => exact List.dropWhile_cons_of_neg (by simpa using hbehind e' (List.mem_cons_self ..))
        have ih := ih hrest
        rw [hkept] at ih
        rw [List.dropWhile_cons_of_neg (by simpa using hbefore)]
        by_cases hprefix : (groupFront name).toList <+: e.1.toList
        · rw [List.takeWhile_cons_of_pos (by simpa using hprefix),
            List.filter_cons_of_pos (by simpa using hprefix), ih]
        · rw [List.takeWhile_cons_of_neg (by simpa using hprefix),
            List.filter_cons_of_neg (by simpa using hprefix)]
          symm
          rw [List.filter_eq_nil_iff]
          intro e' he'
          simpa using not_prefix_of_lt hbefore hprefix (hfirst e' he')

/-- **The members of a group** are the registered rules whose names say that they belong to it. -/
theorem mem_group {key : String} {rule : Rule} :
    (key, rule) ∈ group r.rules.entries name ↔
      r.rules.get? key = some rule ∧ ∃ rest, key = name ++ "." ++ rest := by
  rw [group_eq_filter r.rules.ascending, List.mem_filter, isPrefixOf_groupFront, Keyed.get?_eq_some_iff]

/-- A group without members is one whose names are all free. -/
theorem group_isEmpty_iff : (group r.rules.entries name).isEmpty = true ↔
    ∀ rest, r.rules.get? (name ++ "." ++ rest) = none := by
  rw [List.isEmpty_iff, List.eq_nil_iff_forall_not_mem]
  constructor
  · intro h rest
    rw [Option.eq_none_iff_forall_ne_some]
    intro rule hrule
    exact h _ (mem_group.mpr ⟨hrule, rest, rfl⟩)
  · rintro h ⟨key, rule⟩ hmem
    obtain ⟨hrule, rest, rfl⟩ := mem_group.mp hmem
    rw [h rest] at hrule
    exact absurd hrule (by simp)

theorem pairwise_group (r : Registry) (name : String) :
    (group r.rules.entries name).Pairwise fun a b => a.1 < b.1 := by
  rw [group_eq_filter r.rules.ascending]
  exact r.rules.ascending.sublist List.filter_sublist

/-! ## Recipes -/

/-- The recipe of a name without a rule of its own is that of its group. -/
theorem recipe_of_group (h : r.rules.get? name = none) : r.recipe name =
    if (group r.rules.entries name).isEmpty then .error (.unknownRule name)
    else .ok ((group r.rules.entries name).map (·.2)) := by
  unfold recipe
  rw [h]
  cases group r.rules.entries name with
  | nil => rfl
  | cons e rest => rfl

/-- **What a recipe is.** A name with a rule stands for this rule alone. Any other name stands for the rules of its
    group, each of them once and by ascending names, and for nothing if the group has no rule. -/
theorem recipe_resolves (r : Registry) (name : String) :
    (∀ rule, r.rules.get? name = some rule → r.recipe name = .ok [rule]) ∧
    (r.rules.get? name = none → ∃ members : List (String × Rule),
      (members.Pairwise fun a b => a.1 < b.1) ∧
      (∀ key rule, (key, rule) ∈ members ↔
        r.rules.get? key = some rule ∧ ∃ rest, key = name ++ "." ++ rest) ∧
      r.recipe name =
        if members.isEmpty then .error (.unknownRule name) else .ok (members.map (·.2))) ∧
    (∀ p, r.recipe name = .error p ↔ p = .unknownRule name ∧
      r.rules.get? name = none ∧ ∀ rest, r.rules.get? (name ++ "." ++ rest) = none) := by
  refine ⟨fun rule h => recipe_of_get? h, ?group, ?unknown⟩
  case group =>
    intro h
    exact ⟨_, pairwise_group r name, fun _ _ => mem_group, recipe_of_group h⟩
  case unknown =>
    intro p
    cases hown : r.rules.get? name with
    | some rule =>
        rw [recipe_of_get? hown]
        simp
    | none =>
        rw [recipe_of_group hown, ← group_isEmpty_iff]
        by_cases hempty : (group r.rules.entries name).isEmpty = true
        · simp [hempty, eq_comm]
        · simp [hempty]

/-- Rules with nothing but a name. -/
def ofNames (names : List String) : Registry :=
  ⟨.ofList (names.map fun name => (name, { (default : Rule) with name }))⟩

/-- Names around those of a group: characters in front of the point and behind it, and a longer name. -/
theorem recipe_resolves_neighbours : ∃ (r : Registry) (members : List (String × Rule)),
    r = ofNames ["MathRules/Old.Max", "MathRules.Min", "MathRulesExtra.Sum", "MathRules.Max", "MathRules-Old.Min"] ∧
    r.rules.get? "MathRules" = none ∧
    (∀ key rule, (key, rule) ∈ members ↔
      r.rules.get? key = some rule ∧ ∃ rest, key = "MathRules" ++ "." ++ rest) ∧
    r.recipe "MathRules" = .ok (members.map (·.2)) ∧
    members.map (·.2.name) = ["MathRules.Max", "MathRules.Min"] := by
  obtain ⟨r, hr⟩ : ∃ r, r = ofNames ["MathRules/Old.Max", "MathRules.Min", "MathRulesExtra.Sum", "MathRules.Max",
    "MathRules-Old.Min"] := ⟨_, rfl⟩
  have hnone : r.rules.get? "MathRules" = none := by
    rw [hr]
    rfl
  have hnames : (r.recipe "MathRules").toOption.map (·.map (·.name)) =
      some ["MathRules.Max", "MathRules.Min"] := by
    rw [hr]
    decide +kernel
  obtain ⟨members, -, hmem, hrecipe⟩ := (recipe_resolves r "MathRules").2.1 hnone
  rw [hrecipe] at hnames
  split at hnames
  · exact absurd hnames (by simp [Except.toOption])
  · rename_i hne
    refine ⟨r, members, hr, hnone, hmem, ?_, ?_⟩
    · rw [hrecipe, if_neg hne]
    · have hnames : (members.map (·.2)).map (·.name) = _ := Option.some.inj hnames
      rwa [List.map_map] at hnames

end Registry

end JavaRefactor

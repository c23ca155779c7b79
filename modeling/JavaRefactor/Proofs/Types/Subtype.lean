import Mathlib.Logic.Relation
import JavaRefactor.Types.Constraint

/-!
# `Proofs.Types.Subtype` — the known types are partially ordered

The search for a supertype goes down the table of known types. Since each type is listed above the supertypes it
names, it finds the same as a search that looks every supertype up in the whole table, and that one comes to an end.
What it finds are the chains of direct supertypes, and these only go down.

## Contents
- **Tables.** `Descending`, and what follows of a table that is: `supertypes_listed`, `height_lt` and
  **`isSubtypeIn_eq`**, the search in the whole table.
- **`Extends`**, from a type to its direct supertypes; `extends_wellFounded`.
- **`isSubtype_eq`**, and **`eq_isSubtype`**: the search is the only solution of its equation.
- **`isSubtype_iff`**: what is found are the chains of supertypes, arrays and unknown names included.
- **`isSubtype_partialOrder`**.
-/

namespace JavaRefactor.Types

/-! ## Tables -/

/-- The direct supertypes that a table lists for a name. -/
def supertypesIn (table : List (String × List String)) (name : String) : Option (List String) :=
  (table.find? (·.1 == name)).map (·.2)

/-- The names that a table lists. -/
def namesIn (table : List (String × List String)) : List String := table.map (·.1)

/-- Every name is listed once, and above the supertypes it names, which are all listed. -/
def Descending : List (String × List String) → Prop
  | [] => True
  | (known, supertypes) :: rest =>
    known ∉ namesIn rest ∧ (∀ parent ∈ supertypes, parent ∈ namesIn rest) ∧ Descending rest

instance decidableDescending : ∀ table, Decidable (Descending table)
  | [] => inferInstanceAs (Decidable True)
  | (known, supertypes) :: rest =>
    have := decidableDescending rest
    inferInstanceAs (Decidable (known ∉ namesIn rest ∧ (∀ parent ∈ supertypes, parent ∈ namesIn rest) ∧
      Descending rest))

/-- The number of rows from that of a name on. -/
def height : List (String × List String) → String → Nat
  | [], _ => 0
  | (known, _) :: rest, name => if known == name then rest.length + 1 else height rest name

theorem height_le (table : List (String × List String)) (name : String) : height table name ≤ table.length := by
  induction table with
  | nil => exact Nat.le_refl 0
  | cons row rest ih =>
      rw [height]
      split
      · exact Nat.le_refl _
      · exact Nat.le_succ_of_le ih

section

variable {table : List (String × List String)} {name parent expected : String} {supertypes : List String}

theorem supertypesIn_cons (row : String × List String) (rest : List (String × List String)) (name : String) :
    supertypesIn (row :: rest) name = if row.1 = name then some row.2 else supertypesIn rest name := by
  unfold supertypesIn
  by_cases h : row.1 = name
  · rw [List.find?_cons_of_pos (by simpa using h), if_pos h]
    rfl
  · rw [List.find?_cons_of_neg (by simpa using h), if_neg h]

theorem isSome_supertypesIn : (supertypesIn table name).isSome = true ↔ name ∈ namesIn table := by
  simp [supertypesIn, namesIn]

/-- The supertypes of a listed type are listed. -/
theorem Descending.supertypes_listed (h : Descending table) (hname : supertypesIn table name = some supertypes)
    (hparent : parent ∈ supertypes) : parent ∈ namesIn table := by
  induction table with
  | nil => exact absurd hname (by simp [supertypesIn])
  | cons row rest ih =>
      obtain ⟨-, hbelow, hrest⟩ := h
      apply List.mem_cons_of_mem
      rw [supertypesIn_cons] at hname
      split at hname
      · obtain rfl := Option.some.inj hname
        exact hbelow parent hparent
      · exact ih hrest hname

/-- No supertype is listed in the first row. -/
theorem Descending.ne_of_parent {row : String × List String} {rest : List (String × List String)}
    (h : Descending (row :: rest)) (hname : supertypesIn (row :: rest) name = some supertypes)
    (hparent : parent ∈ supertypes) : row.1 ≠ parent := by
  obtain ⟨hnew, hbelow, hrest⟩ := h
  rw [supertypesIn_cons] at hname
  rintro rfl
  split at hname
  · obtain rfl := Option.some.inj hname
    exact hnew (hbelow _ hparent)
  · exact hnew (hrest.supertypes_listed hname hparent)

/-- **A supertype stands lower** than the types that name it. -/
theorem Descending.height_lt (h : Descending table) (hname : supertypesIn table name = some supertypes)
    (hparent : parent ∈ supertypes) : height table parent < height table name := by
  induction table with
  | nil => exact absurd hname (by simp [supertypesIn])
  | cons row rest ih =>
      have hne := h.ne_of_parent hname hparent
      rw [height, if_neg (by simpa using hne), height]
      rw [supertypesIn_cons] at hname
      split at hname
      · rename_i hrow
        rw [if_pos (by simpa using hrow)]
        exact Nat.lt_succ_of_le (height_le rest parent)
      · rename_i hrow
        rw [if_neg (by simpa using hrow)]
        exact ih h.2.2 hname

/-- The search passes over rows of other names. -/
theorem isSubtypeIn_cons_of_ne {row : String × List String} {rest : List (String × List String)}
    (h : row.1 ≠ name) : isSubtypeIn (row :: rest) name expected = isSubtypeIn rest name expected := by
  have hrow : (row.1 == name) = false := by simpa using h
  rw [isSubtypeIn]
  split
  · rename_i htrue
    cases rest <;> rw [isSubtypeIn, if_pos htrue]
  · rename_i htrue
    split
    · rename_i harray
      cases rest <;> rw [isSubtypeIn, if_neg htrue, if_pos harray]
    · rw [hrow]
      rfl

end

/-- One round of the search: the answer for a name by those of `find` for its direct supertypes. -/
def searchRound (table : List (String × List String)) (find : String → String → Option Bool)
    (name expected : String) : Option Bool :=
  if name == expected || expected == "Object" then some true
  else if isArrayName name || isArrayName expected then some false
  else (supertypesIn table name).map fun supertypes =>
    supertypes.any fun parent => (find parent expected).getD false

/-- Rounds agree that ask for the same answers of the direct supertypes. -/
theorem searchRound_congr {table table' : List (String × List String)} {find find' : String → String → Option Bool}
    {name expected : String} (htable : supertypesIn table name = supertypesIn table' name)
    (h : ∀ supertypes, supertypesIn table name = some supertypes → ∀ parent ∈ supertypes,
      find parent expected = find' parent expected) :
    searchRound table find name expected = searchRound table' find' name expected := by
  unfold searchRound
  rw [← htable]
  cases hname : supertypesIn table name with
  | none => rfl
  | some supertypes =>
      have hany : (supertypes.any fun parent => (find parent expected).getD false) =
          supertypes.any fun parent => (find' parent expected).getD false := by
        rw [Bool.eq_iff_iff, List.any_eq_true, List.any_eq_true]
        refine exists_congr fun parent => and_congr_right fun hparent => ?_
        rw [h supertypes hname parent hparent]
      rw [Option.map_some, Option.map_some, hany]

/-- **The search goes by the whole table** though it looks for supertypes below a type only. -/
theorem isSubtypeIn_eq {table : List (String × List String)} (h : Descending table) (name expected : String) :
    isSubtypeIn table name expected = searchRound table (isSubtypeIn table) name expected := by
  induction table with
  | nil => rw [isSubtypeIn]; rfl
  | cons row rest ih =>
      have hbelow : ∀ supertypes, supertypesIn (row :: rest) name = some supertypes → ∀ parent ∈ supertypes,
          isSubtypeIn (row :: rest) parent expected = isSubtypeIn rest parent expected := by
        intro supertypes hname parent hparent
        exact isSubtypeIn_cons_of_ne (h.ne_of_parent hname hparent)
      rw [searchRound_congr rfl hbelow]
      by_cases hrow : row.1 = name
      · have hfirst : (row.1 == name) = true := by simpa using hrow
        rw [isSubtypeIn, searchRound, supertypesIn_cons, if_pos hrow, hfirst]
        rfl
      · have hrest : supertypesIn (row :: rest) name = supertypesIn rest name := by
          rw [supertypesIn_cons, if_neg hrow]
        rw [isSubtypeIn_cons_of_ne hrow, ih h.2.2]
        exact searchRound_congr hrest.symm fun _ _ _ _ => rfl

/-! ## The known types -/

theorem hierarchy_descending : Descending hierarchy := by decide

/-- No array is among the known types. -/
theorem isArrayName_of_listed : ∀ name ∈ namesIn hierarchy, isArrayName name = false := by decide

/-- `Object` is one of them, with no supertypes. -/
theorem supertypesIn_object : supertypesIn hierarchy "Object" = some [] := rfl

/-- The second type is a direct supertype of the first. -/
def Extends (name parent : String) : Prop :=
  ∃ supertypes, supertypesIn hierarchy name = some supertypes ∧ parent ∈ supertypes

namespace Extends

variable {name parent : String}

theorem listed (h : Extends name parent) : name ∈ namesIn hierarchy := by
  obtain ⟨supertypes, hname, -⟩ := h
  rw [← isSome_supertypesIn, hname]
  rfl

theorem parent_listed (h : Extends name parent) : parent ∈ namesIn hierarchy := by
  obtain ⟨supertypes, hname, hparent⟩ := h
  exact hierarchy_descending.supertypes_listed hname hparent

theorem height_lt (h : Extends name parent) : height hierarchy parent < height hierarchy name := by
  obtain ⟨supertypes, hname, hparent⟩ := h
  exact hierarchy_descending.height_lt hname hparent

end Extends

/-- **From supertype to supertype** one comes to an end. -/
theorem extends_wellFounded : WellFounded fun parent name => Extends name parent :=
  Subrelation.wf Extends.height_lt (measure (height hierarchy)).wf

/-- Nothing is above `Object`. -/
theorem not_extends_object {parent : String} : ¬ Extends "Object" parent := by
  rintro ⟨supertypes, hname, hparent⟩
  obtain rfl := Option.some.inj (supertypesIn_object.symm.trans hname)
  exact absurd hparent List.not_mem_nil

/-! ## The search -/

/-- **The search** asks for the direct supertypes of a name and for what is above them. -/
theorem isSubtype_eq (name expected : String) :
    isSubtype name expected = searchRound hierarchy isSubtype name expected :=
  isSubtypeIn_eq hierarchy_descending name expected

/-- **Nothing else solves its equation.** -/
theorem eq_isSubtype {find : String → String → Option Bool}
    (h : ∀ name expected, find name expected = searchRound hierarchy find name expected) : find = isSubtype := by
  funext name expected
  induction name using extends_wellFounded.induction with
  | _ name ih =>
      rw [h, isSubtype_eq]
      exact searchRound_congr rfl fun supertypes hname parent hparent => ih parent ⟨supertypes, hname, hparent⟩

theorem isSubtype_self (name : String) : isSubtype name name = some true := by
  rw [isSubtype_eq, searchRound, if_pos (by simp)]

theorem isSubtype_object (name : String) : isSubtype name "Object" = some true := by
  rw [isSubtype_eq, searchRound, if_pos (by simp)]

variable {a b c name parent expected : String}

/-- What is above a direct supertype is above the type. -/
theorem isSubtype_of_extends (h : Extends name parent) (hparent : isSubtype parent expected = some true)
    (hlisted : expected ∈ namesIn hierarchy) : isSubtype name expected = some true := by
  obtain ⟨supertypes, hname, hmem⟩ := id h
  rw [isSubtype_eq, searchRound]
  split
  · rfl
  · rw [isArrayName_of_listed name h.listed, isArrayName_of_listed expected hlisted, hname]
    have hany : (supertypes.any fun p => (isSubtype p expected).getD false) = true :=
      List.any_eq_true.mpr ⟨parent, hmem, by rw [hparent]; rfl⟩
    rw [Option.map_some, hany]
    rfl

/-- **What the search finds**: `Object`, and what chains of direct supertypes lead to. -/
theorem isSubtype_iff :
    isSubtype a b = some true ↔ b = "Object" ∨ Relation.ReflTransGen Extends a b := by
  constructor
  · intro h
    induction a using extends_wellFounded.induction with
    | _ a ih =>
        rw [isSubtype_eq, searchRound] at h
        split at h
        · rename_i htrue
          rcases (Bool.or_eq_true _ _).mp htrue with hab | hb
          · rw [beq_iff_eq.mp hab]
            exact Or.inr .refl
          · exact Or.inl (beq_iff_eq.mp hb)
        · split at h
          · exact absurd h (by simp)
          · obtain ⟨supertypes, hname, hany⟩ := Option.map_eq_some_iff.mp h
            obtain ⟨parent, hparent, hfound⟩ := List.any_eq_true.mp hany
            have habove : isSubtype parent b = some true := by
              cases hsub : isSubtype parent b with
              | none => rw [hsub] at hfound; exact absurd hfound (by simp)
              | some found => rw [hsub] at hfound; exact congrArg some hfound
            have hstep : Extends a parent := ⟨supertypes, hname, hparent⟩
            exact (ih parent hstep habove).imp id (.head hstep)
  · rintro (rfl | h)
    · exact isSubtype_object a
    · rcases Relation.ReflTransGen.cases_tail h with rfl | ⟨last, -, hlast⟩
      · exact isSubtype_self b
      · have hlisted := hlast.parent_listed
        clear hlast
        induction h using Relation.ReflTransGen.head_induction_on with
        | refl => exact isSubtype_self b
        | head hstep _ ih => exact isSubtype_of_extends hstep ih hlisted

/-! ## The order -/

/-- A chain of supertypes goes down. -/
theorem height_of_chain (h : Relation.ReflTransGen Extends a b) :
    a = b ∨ height hierarchy b < height hierarchy a := by
  induction h with
  | refl => exact Or.inl rfl
  | tail _ hstep ih =>
      rcases ih with rfl | hlower
      · exact Or.inr hstep.height_lt
      · exact Or.inr (Nat.lt_trans hstep.height_lt hlower)

/-- No chain leads on from `Object`. -/
theorem eq_of_object_chain (h : Relation.ReflTransGen Extends "Object" b) : b = "Object" := by
  rcases Relation.ReflTransGen.cases_head h with rfl | ⟨parent, hstep, -⟩
  · rfl
  · exact absurd hstep not_extends_object

theorem isSubtype_object_iff : isSubtype "Object" b = some true ↔ b = "Object" := by
  rw [isSubtype_iff]
  constructor
  · rintro (hb | hchain)
    · exact hb
    · exact eq_of_object_chain hchain
  · exact Or.inl

theorem isSubtype_trans (hab : isSubtype a b = some true) (hbc : isSubtype b c = some true) :
    isSubtype a c = some true := by
  rcases isSubtype_iff.mp hab with rfl | hab
  · rw [isSubtype_object_iff.mp hbc]
    exact isSubtype_object a
  · exact isSubtype_iff.mpr ((isSubtype_iff.mp hbc).imp id hab.trans)

theorem isSubtype_antisymm (hab : isSubtype a b = some true) (hba : isSubtype b a = some true) : a = b := by
  rcases isSubtype_iff.mp hab with rfl | hab
  · exact isSubtype_object_iff.mp hba
  · rcases isSubtype_iff.mp hba with rfl | hba
    · exact (eq_of_object_chain hab).symm
    · rcases height_of_chain hab with heq | hlower
      · exact heq
      · rcases height_of_chain hba with heq | hhigher
        · exact heq.symm
        · exact absurd hlower (Nat.lt_asymm hhigher)

/-- **A type of which nothing is known** is above itself alone. -/
theorem eq_of_isSubtype_unknown (hab : isSubtype a b = some true) (hb : isSubtype b expected = none) : a = b := by
  have hunlisted : b ∉ namesIn hierarchy := by
    rw [← isSome_supertypesIn]
    intro hsome
    obtain ⟨supertypes, hname⟩ := Option.isSome_iff_exists.mp hsome
    rw [isSubtype_eq, searchRound, hname] at hb
    split at hb
    · exact absurd hb (by simp)
    · split at hb <;> exact absurd hb (by simp)
  rcases isSubtype_iff.mp hab with rfl | hchain
  · exact absurd (isSome_supertypesIn.mp (by rw [supertypesIn_object]; rfl)) hunlisted
  · rcases Relation.ReflTransGen.cases_tail hchain with rfl | ⟨last, -, hstep⟩
    · rfl
    · exact absurd hstep.parent_listed hunlisted

/-- **What is below an admitted type is admitted.** -/
theorem admits_of_isSubtype (hab : isSubtype a b = some true)
    (hb : (Constraint.reference expected).admits (some (.reference b)) = true) :
    (Constraint.reference expected).admits (some (.reference a)) = true := by
  show (isSubtype a expected).getD true = true
  replace hb : (isSubtype b expected).getD true = true := hb
  cases hfound : isSubtype b expected with
  | none =>
      obtain rfl := eq_of_isSubtype_unknown hab hfound
      exact hb
  | some found =>
      rw [hfound] at hb
      obtain rfl : found = true := hb
      rw [isSubtype_trans hab hfound]
      rfl

/-- **What is known of subtypes is a partial order.** From supertype to supertype the search comes to an end, and
    its answers are the only ones that go by its rule. Over all names, known and unknown ones, `Object` and
    arrays, being a known subtype is reflexive, transitive and antisymmetric; and a constraint that admits a type
    admits all that are known to be below it. -/
theorem isSubtype_partialOrder :
    WellFounded (fun parent name => Extends name parent) ∧
    (∀ find : String → String → Option Bool,
      (∀ name expected, find name expected = searchRound hierarchy find name expected) ↔ find = isSubtype) ∧
    (∀ a, isSubtype a a = some true) ∧
    (∀ a b c, isSubtype a b = some true → isSubtype b c = some true → isSubtype a c = some true) ∧
    (∀ a b, isSubtype a b = some true → isSubtype b a = some true → a = b) ∧
    ∀ a b expected, isSubtype a b = some true →
      (Constraint.reference expected).admits (some (.reference b)) = true →
      (Constraint.reference expected).admits (some (.reference a)) = true := by
  refine ⟨extends_wellFounded, ?_, isSubtype_self, fun _ _ _ => isSubtype_trans, fun _ _ => isSubtype_antisymm,
    fun _ _ _ => admits_of_isSubtype⟩
  intro find
  constructor
  · exact eq_isSubtype
  · rintro rfl
    exact isSubtype_eq

/-- What is known of lists: an `ArrayList` is something to iterate over and is admitted where that is asked for, and
    not the other way round. -/
theorem isSubtype_partialOrder_lists :
    isSubtype "ArrayList" "Iterable" = some true ∧
    isSubtype "Iterable" "ArrayList" ≠ some true ∧
    (Constraint.reference "Iterable").admits (some (.reference "List")) = true ∧
    (Constraint.reference "Iterable").admits (some (.reference "ArrayList")) = true := by
  obtain ⟨hlist, hlists, hadmits⟩ : isSubtype "ArrayList" "List" = some true ∧
      isSubtype "List" "Iterable" = some true ∧
      (Constraint.reference "Iterable").admits (some (.reference "List")) = true := by decide
  obtain ⟨-, -, -, htrans, hantisymm, hbelow⟩ := isSubtype_partialOrder
  have habove := htrans _ _ _ hlist hlists
  refine ⟨habove, ?_, hadmits, hbelow _ _ _ hlist hadmits⟩
  intro hback
  exact absurd (hantisymm _ _ habove hback) (by decide)

/-- Of arrays it is known that they are below themselves and `Object` alone, of other names that are not listed not
    even that. -/
example : isSubtype "String[]" "Object[]" = some false ∧ isSubtype "Matrix" "Iterable" = none := by
  decide

end JavaRefactor.Types

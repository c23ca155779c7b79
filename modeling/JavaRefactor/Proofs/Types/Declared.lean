import JavaRefactor.Proofs.Syntax.Listing
import JavaRefactor.Types.Oracle

/-!
# `Proofs.Types.Declared` — which names have a type

The oracle goes through the nodes of a file and keeps one entry for each declared name, which loses its type with
the first declaration of another one. So in the end a name has a type if it is declared and all its declarations
agree.

## Contents
- **One declaration.** `lookup_declare_self` and `lookup_declare_other`.
- **Several.** `settle`, what further types for a name leave of its entry, and `lookup_foldl_declare`.
- **`declaredType_ofTree`**, for the declarations of a file.
-/

namespace JavaRefactor.Types.Oracle

open Syntax (Node Tree)

/-! ## One declaration -/

/-- What an entry becomes that meets a declaration of its name. -/
def merge (type : JavaType) : Option (Option JavaType) → Option JavaType
  | none => some type
  | some known => if known == some type then known else none

theorem lookup_declare_self (name : String) (type : JavaType) : ∀ d : List (String × Option JavaType),
    (declare name type d).lookup name = some (merge type (d.lookup name))
  | [] => by simp [declare, merge]
  | (known, t) :: rest => by
      unfold declare
      by_cases hknown : (known == name) = true
      · have hname : (name == known) = true := BEq.comm.trans hknown
        rw [if_pos hknown, List.lookup_cons, List.lookup_cons, hname]
        rfl
      · have hname : (name == known) = false := BEq.comm.trans (Bool.eq_false_iff.mpr hknown)
        rw [if_neg hknown, List.lookup_cons, List.lookup_cons, hname]
        exact lookup_declare_self name type rest

theorem lookup_declare_other {name other : String} (hne : other ≠ name) (type : JavaType) :
    ∀ d : List (String × Option JavaType), (declare name type d).lookup other = d.lookup other
  | [] => by
      have hother : (other == name) = false := by simpa using hne
      simp [declare, List.lookup_cons, hother]
  | (known, t) :: rest => by
      unfold declare
      by_cases hknown : (known == name) = true
      · -- the entry that changes is that of another name
        have hother : (other == known) = false := by
          rw [beq_iff_eq] at hknown
          simpa [hknown] using hne
        rw [if_pos hknown, List.lookup_cons, List.lookup_cons, hother]
      · rw [if_neg hknown, List.lookup_cons, List.lookup_cons, lookup_declare_other hne type rest]

/-! ## Several -/

/-- The types that some declarations give to a name. -/
def typesFor (name : String) (ds : List (String × JavaType)) : List JavaType :=
  (ds.filter (·.1 == name)).map (·.2)

theorem mem_typesFor {name : String} {type : JavaType} {ds : List (String × JavaType)} :
    type ∈ typesFor name ds ↔ (name, type) ∈ ds := by
  unfold typesFor
  simp only [List.mem_map, List.mem_filter, beq_iff_eq, Prod.exists]
  constructor
  · rintro ⟨n, t, ⟨hmem, rfl⟩, rfl⟩
    exact hmem
  · intro hmem
    exact ⟨name, type, ⟨hmem, rfl⟩, rfl⟩

/-- The entry that is left of one for a name by further types for it. -/
def settle : Option (Option JavaType) → List JavaType → Option (Option JavaType)
  | entry, [] => entry
  | entry, type :: types => settle (some (merge type entry)) types

theorem lookup_foldl_declare (name : String) : ∀ (ds : List (String × JavaType))
    (d : List (String × Option JavaType)),
    (ds.foldl (fun d (e : String × JavaType) => declare e.1 e.2 d) d).lookup name =
      settle (d.lookup name) (typesFor name ds)
  | [], d => rfl
  | (n, type) :: ds, d => by
      rw [List.foldl_cons, lookup_foldl_declare name ds]
      by_cases hn : n = name
      · subst hn
        have htypes : typesFor n ((n, type) :: ds) = type :: typesFor n ds := by simp [typesFor]
        rw [htypes, lookup_declare_self]
        rfl
      · have htypes : typesFor name ((n, type) :: ds) = typesFor name ds := by simp [typesFor, hn]
        rw [htypes, lookup_declare_other (fun h => hn h.symm)]

/-- An entry that has lost its type stays without one. -/
theorem settle_conflict : ∀ types : List JavaType, settle (some none) types = some none
  | [] => rfl
  | type :: types => by
      show settle (some (merge type (some none))) types = some none
      have hmerge : merge type (some none) = none := by simp [merge]
      rw [hmerge]
      exact settle_conflict types

/-- An entry keeps its type if all further ones are the same. -/
theorem settle_known (known : JavaType) : ∀ types : List JavaType,
    settle (some (some known)) types = some (if ∀ type ∈ types, type = known then some known else none)
  | [] => by simp [settle]
  | type :: types => by
      show settle (some (merge type (some (some known)))) types = _
      by_cases htype : type = known
      · subst htype
        have hmerge : merge type (some (some type)) = some type := by simp [merge]
        rw [hmerge, settle_known type types]
        simp
      · have hmerge : merge type (some (some known)) = none := by
          have hne : (some known == some type) = false := by simpa using fun h => htype (Eq.symm h)
          simp [merge, hne]
        rw [hmerge, settle_conflict]
        simp [htype]

/-- A name that had no entry has a type if there are types for it and they are all the same. -/
theorem settle_eq_some {types : List JavaType} {type : JavaType} :
    (settle none types).getD none = some type ↔ type ∈ types ∧ ∀ other ∈ types, other = type := by
  cases types with
  | nil => simp [settle]
  | cons first types =>
      have hfirst : settle none (first :: types) = settle (some (some first)) types := rfl
      rw [hfirst, settle_known, Option.getD_some]
      constructor
      · intro h
        by_cases hall : ∀ other ∈ types, other = first
        · rw [if_pos hall] at h
          obtain rfl := Option.some.inj h
          exact ⟨by simp, by simpa using hall⟩
        · rw [if_neg hall] at h
          exact absurd h (by simp)
      · rintro ⟨-, hall⟩
        obtain ⟨rfl, hrest⟩ : first = type ∧ ∀ other ∈ types, other = type := by simpa using hall
        rw [if_pos hrest]

/-! ## Files -/

/-- **A name has a type** if a node of the file declares it with that type and no node does with another one. -/
theorem declaredType_ofTree {t : Tree} {name : String} {type : JavaType} :
    (ofTree t).declaredType name = some type ↔
      (∃ n ∈ t.root.listing, (name, type) ∈ declarationsOf n) ∧
      ∀ n ∈ t.root.listing, ∀ other, (name, other) ∈ declarationsOf n → other = type := by
  have hlookup : (ofTree t).declared.lookup name =
      settle none (typesFor name (t.root.listing.flatMap declarationsOf)) := by
    rw [← Node.preorder_eq_listing]
    exact lookup_foldl_declare name _ []
  unfold declaredType
  rw [hlookup, settle_eq_some]
  simp only [mem_typesFor, List.mem_flatMap]
  constructor
  · rintro ⟨hsome, hall⟩
    exact ⟨hsome, fun n hn other hother => hall other ⟨n, hn, hother⟩⟩
  · rintro ⟨hsome, hall⟩
    exact ⟨hsome, fun other ⟨n, hn, hother⟩ => hall n hn other hother⟩

end JavaRefactor.Types.Oracle

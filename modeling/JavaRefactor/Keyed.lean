/-!
# `Keyed` — values by name

## Contents
- **`Keyed`**: values with distinct names, in ascending order of the names.
- **`Keyed.insert`**, which never changes a value that is there; **`Keyed.get?`**.
-/

namespace JavaRefactor

/-- Puts an entry in its place among ascending ones; an entry of its name stays as it is. -/
def insertEntry {α : Type} (name : String) (value : α) : List (String × α) → List (String × α)
  | [] => [(name, value)]
  | (known, v) :: rest =>
    if name < known then (name, value) :: (known, v) :: rest
    else if name = known then (known, v) :: rest
    else (known, v) :: insertEntry name value rest

theorem mem_insertEntry {α : Type} {name : String} {value : α} {e : String × α}
    {entries : List (String × α)} (h : e ∈ insertEntry name value entries) :
    e = (name, value) ∨ e ∈ entries := by
  induction entries with
  | nil => simpa [insertEntry] using h
  | cons first rest ih =>
    obtain ⟨known, v⟩ := first
    rw [insertEntry] at h
    split at h
    · simpa using h
    · split at h
      · exact Or.inr h
      · rcases List.mem_cons.mp h with h | h
        · exact Or.inr (h ▸ List.mem_cons_self)
        · exact (ih h).imp id (List.mem_cons_of_mem _)

theorem lt_of_not_lt_of_ne {a b : String} (h : ¬a < b) (hne : ¬a = b) : b < a :=
  Classical.byContradiction fun hba =>
    hne (String.le_antisymm (String.not_lt.mp hba) (String.not_lt.mp h))

theorem insertEntry_ascending {α : Type} (name : String) (value : α) {entries : List (String × α)}
    (h : entries.Pairwise fun a b => a.1 < b.1) :
    (insertEntry name value entries).Pairwise fun a b => a.1 < b.1 := by
  induction entries with
  | nil => simp [insertEntry]
  | cons first rest ih =>
    obtain ⟨known, v⟩ := first
    obtain ⟨hfirst, hrest⟩ := List.pairwise_cons.mp h
    rw [insertEntry]
    split
    · rename_i hlt
      refine List.pairwise_cons.mpr ⟨fun e he => ?_, h⟩
      rcases List.mem_cons.mp he with rfl | he
      · exact hlt
      · exact String.lt_trans hlt (hfirst e he)
    · split
      · exact h
      · rename_i hnlt hne
        refine List.pairwise_cons.mpr ⟨fun e he => ?_, ih hrest⟩
        rcases mem_insertEntry he with rfl | he
        · exact lt_of_not_lt_of_ne hnlt hne
        · exact hfirst e he

/-- Values with distinct names, in ascending order of the names. -/
structure Keyed (α : Type) where
  entries : List (String × α)
  ascending : entries.Pairwise fun a b => a.1 < b.1

namespace Keyed

variable {α : Type}

/-- No values. -/
def empty : Keyed α := ⟨[], List.Pairwise.nil⟩

instance : Inhabited (Keyed α) := ⟨empty⟩

/-- Adds a value; if its name is taken, nothing changes. -/
def insert (k : Keyed α) (name : String) (value : α) : Keyed α :=
  ⟨insertEntry name value k.entries, insertEntry_ascending name value k.ascending⟩

/-- The value of a name. -/
def get? (k : Keyed α) (name : String) : Option α := k.entries.lookup name

/-- Whether a name is taken. -/
def contains (k : Keyed α) (name : String) : Bool := (k.get? name).isSome

/-- The number of values. -/
def size (k : Keyed α) : Nat := k.entries.length

/-- Collects entries; of two with one name the first counts. -/
def ofList (entries : List (String × α)) : Keyed α :=
  entries.foldl (fun k (name, value) => k.insert name value) empty

end Keyed

end JavaRefactor

import JavaRefactor.Proofs.Syntax.Same

/-!
# `Proofs.Match.Binding` — bindings that grow by what placeholders face

A match binds its placeholders one after the other. `Facing` is one placeholder with the value it is
laid over, and `Binding.extend?` binds a whole list of them. What the resulting binding knows is told
from the list alone: which names it has, that every value agrees with the one that is kept, and that
the kept values are among those faced.

## Contents
- **One step.** `insert?_cases`, the three ways a name can be bound.
- **`Facing`** and **`Binding.extend?`**.
- **Whole lists.** `agrees_of_extend?`, `faced_of_extend?`, `find?_of_extend?`, `get?_isSome_iff_of_extend?`.
-/

namespace JavaRefactor

open Syntax (Node)

/-- A placeholder of a template with the value it is laid over. -/
structure Facing where
  placeholder : Metavariable
  value : Bound

/-- The name of the placeholder. -/
def Facing.name (f : Facing) : String := f.placeholder.name

namespace Binding

/-! ## One step -/

@[simp] theorem get?_empty (name : String) : empty.get? name = none := rfl

theorem node?_eq_some {b : Binding} {name : String} {n : Node} :
    b.node? name = some n ↔ b.get? name = some (.node n) := by
  unfold node?
  cases b.get? name with
  | none => simp
  | some x => cases x <;> simp

/-- **The ways a name is bound.** The wildcard leaves no trace, a new name is added behind the others,
    and a known name keeps its value, which the new one has to agree with. -/
theorem insert?_cases {b b' : Binding} {name : String} {x : Bound}
    (h : b.insert? name x = some b') :
    (name = Metavariable.wildcard ∧ b' = b) ∨
    (name ≠ Metavariable.wildcard ∧ b.get? name = none ∧ b' = ⟨b.entries ++ [(name, x)]⟩) ∨
    (name ≠ Metavariable.wildcard ∧ b' = b ∧ ∃ y, b.get? name = some y ∧ y.same x = true) := by
  unfold insert? at h
  by_cases hw : name = Metavariable.wildcard
  · rw [if_pos (by simpa using hw)] at h
    exact Or.inl ⟨hw, (Option.some.inj h).symm⟩
  · rw [if_neg (by simpa using hw)] at h
    cases hg : b.get? name with
    | none =>
        rw [hg] at h
        exact Or.inr (Or.inl ⟨hw, rfl, (Option.some.inj h).symm⟩)
    | some y =>
        rw [hg] at h
        by_cases hy : y.same x = true
        · simp only [hy, if_true] at h
          exact Or.inr (Or.inr ⟨hw, (Option.some.inj h).symm, y, rfl, hy⟩)
        · simp [hy] at h

/-- Look-up behind an added entry: earlier entries come first. -/
theorem get?_append (b : Binding) (name key : String) (x : Bound) :
    (Binding.mk (b.entries ++ [(name, x)])).get? key
      = (b.get? key).or (if key = name then some x else none) := by
  unfold get?
  rw [List.lookup_append]
  by_cases hk : key = name
  · subst hk; simp
  · have hb : (key == name) = false := by simpa using hk
    simp [List.lookup_cons, hb, hk]

/-- What is bound stays bound. -/
theorem get?_insert?_mono {b b' : Binding} {name key : String} {x y : Bound}
    (h : b.insert? name x = some b') (hk : b.get? key = some y) : b'.get? key = some y := by
  rcases insert?_cases h with ⟨_, rfl⟩ | ⟨_, _, rfl⟩ | ⟨_, rfl, _⟩
  · exact hk
  · rw [get?_append, hk]; rfl
  · exact hk

/-- A bound name other than the wildcard has a value behind the step that agrees with the given one. -/
theorem get?_insert?_self {b b' : Binding} {name : String} {x : Bound}
    (h : b.insert? name x = some b') (hw : name ≠ Metavariable.wildcard) :
    ∃ y, b'.get? name = some y ∧ y.same x = true := by
  rcases insert?_cases h with ⟨hn, _⟩ | ⟨_, hn, rfl⟩ | ⟨_, rfl, hy⟩
  · exact absurd hn hw
  · refine ⟨x, ?_, Bound.same_refl x⟩
    rw [get?_append, hn]; simp
  · exact hy

/-- A value behind the step was there before, or it is the new one. -/
theorem get?_insert?_inv {b b' : Binding} {name key : String} {x y : Bound}
    (h : b.insert? name x = some b') (hk : b'.get? key = some y) :
    b.get? key = some y ∨ (key = name ∧ y = x ∧ name ≠ Metavariable.wildcard) := by
  rcases insert?_cases h with ⟨_, rfl⟩ | ⟨hw, hn, rfl⟩ | ⟨_, rfl, _⟩
  · exact Or.inl hk
  · rw [get?_append] at hk
    by_cases hkn : key = name
    · subst hkn
      rw [hn] at hk
      simp only [if_true, Option.none_or, Option.some.injEq] at hk
      exact Or.inr ⟨rfl, hk.symm, hw⟩
    · rw [if_neg hkn, Option.or_none] at hk
      exact Or.inl hk
  · exact Or.inl hk

/-! ## Lists of facings -/

/-- Binds placeholders one after the other. -/
def extend? : List Facing → Binding → Option Binding
  | [], b => some b
  | f :: fs, b => (b.insert? f.name f.value).bind (extend? fs)

theorem extend?_append (fs gs : List Facing) (b : Binding) :
    extend? (fs ++ gs) b = (extend? fs b).bind (extend? gs) := by
  induction fs generalizing b with
  | nil => rfl
  | cons f fs ih =>
      show (b.insert? f.name f.value).bind (extend? (fs ++ gs)) = _
      cases h : b.insert? f.name f.value with
      | none => simp [extend?, h]
      | some b' => simp [extend?, h, ih b']

/-- Two lists bound in turn are bound as one. -/
theorem extend?_trans {fs gs : List Facing} {b b' b'' : Binding} (h : extend? fs b = some b')
    (h' : extend? gs b' = some b'') : extend? (fs ++ gs) b = some b'' := by
  rw [extend?_append, h]; exact h'

/-- The first step of a list, and the rest of it. -/
theorem extend?_cons_inv {f : Facing} {fs : List Facing} {b b'' : Binding}
    (h : extend? (f :: fs) b = some b'') :
    ∃ b', b.insert? f.name f.value = some b' ∧ extend? fs b' = some b'' :=
  Option.bind_eq_some_iff.mp h

/-- What is bound stays bound. -/
theorem get?_of_extend?_mono {fs : List Facing} {b b' : Binding} {key : String} {y : Bound}
    (h : extend? fs b = some b') (hk : b.get? key = some y) : b'.get? key = some y := by
  induction fs generalizing b with
  | nil => exact Option.some.inj h ▸ hk
  | cons f fs ih =>
      obtain ⟨b₁, hf, hfs⟩ := extend?_cons_inv h
      exact ih hfs (get?_insert?_mono hf hk)

/-- **Agreement.** Every faced value agrees with the one its name is bound to. -/
theorem agrees_of_extend? {fs : List Facing} {b b' : Binding} (h : extend? fs b = some b') :
    ∀ f ∈ fs, f.name ≠ Metavariable.wildcard →
      ∃ y, b'.get? f.name = some y ∧ y.same f.value = true := by
  induction fs generalizing b with
  | nil => intro f hf; exact absurd hf (by simp)
  | cons g fs ih =>
      intro f hf hw
      obtain ⟨b₁, hg, hfs⟩ := extend?_cons_inv h
      rcases List.mem_cons.mp hf with rfl | hf
      · obtain ⟨y, hy, hs⟩ := get?_insert?_self hg hw
        exact ⟨y, get?_of_extend?_mono hfs hy, hs⟩
      · exact ih hfs f hf hw

/-- **Origin.** A value behind the steps was there before, or a placeholder other than the wildcard
    faces it. -/
theorem faced_of_extend? {fs : List Facing} {b b' : Binding} (h : extend? fs b = some b')
    {key : String} {y : Bound} (hk : b'.get? key = some y) :
    b.get? key = some y ∨
      (key ≠ Metavariable.wildcard ∧ ∃ f ∈ fs, f.name = key ∧ f.value = y) := by
  induction fs generalizing b with
  | nil => exact Or.inl (Option.some.inj h ▸ hk)
  | cons g fs ih =>
      obtain ⟨b₁, hg, hfs⟩ := extend?_cons_inv h
      rcases ih hfs with hb | ⟨hw, f, hf, hn⟩
      · rcases get?_insert?_inv hg hb with hb | ⟨rfl, rfl, hw⟩
        · exact Or.inl hb
        · exact Or.inr ⟨hw, g, by simp, rfl, rfl⟩
      · exact Or.inr ⟨hw, f, by simp [hf], hn⟩

/-- **A value that is new** is the first one that is faced under its name. -/
theorem find?_of_extend? {fs : List Facing} {b b' : Binding} {key : String} {y : Bound}
    (h : extend? fs b = some b') (hnew : b.get? key = none) (hk : b'.get? key = some y) :
    ∃ f, fs.find? (·.name == key) = some f ∧ f.value = y := by
  induction fs generalizing b with
  | nil =>
      obtain rfl := Option.some.inj h
      exact absurd hk (by simp [hnew])
  | cons g fs ih =>
      obtain ⟨b₁, hg, hfs⟩ := extend?_cons_inv h
      by_cases hname : g.name = key
      · subst hname
        refine ⟨g, List.find?_cons_of_pos (beq_self_eq_true _), ?_⟩
        rcases insert?_cases hg with ⟨hwild, -⟩ | ⟨-, -, rfl⟩ | ⟨-, -, z, hz, -⟩
        · -- the wildcard would not be bound at all
          rcases faced_of_extend? h hk with hb | ⟨hne, -⟩
          · exact absurd hb (by simp [hnew])
          · exact absurd hwild hne
        · have hfirst : (Binding.mk (b.entries ++ [(g.name, g.value)])).get? g.name = some g.value := by
            rw [get?_append, hnew, Option.none_or, if_pos rfl]
          exact Option.some.inj ((get?_of_extend?_mono hfs hfirst).symm.trans hk)
        · exact absurd hz (by simp [hnew])
      · rw [List.find?_cons_of_neg (by simpa using hname)]
        refine ih hfs (Option.eq_none_iff_forall_ne_some.mpr ?_)
        intro z hz
        rcases get?_insert?_inv hg hz with hb | ⟨hsame, -⟩
        · exact absurd hb (by simp [hnew])
        · exact hname hsame.symm

/-- **The names of a binding** that grew from nothing are those of the placeholders, but for the
    wildcard. -/
theorem get?_isSome_iff_of_extend? {fs : List Facing} {b : Binding}
    (h : extend? fs empty = some b) (key : String) :
    (b.get? key).isSome = true ↔ key ≠ Metavariable.wildcard ∧ key ∈ fs.map Facing.name := by
  constructor
  · intro hk
    -- nothing was bound at the start, so the value is one that is faced
    obtain ⟨y, hy⟩ := Option.isSome_iff_exists.mp hk
    rcases faced_of_extend? h hy with hb | ⟨hw, f, hf, hn, _⟩
    · simp at hb
    · exact ⟨hw, List.mem_map.mpr ⟨f, hf, hn⟩⟩
  · rintro ⟨hw, hk⟩
    obtain ⟨f, hf, rfl⟩ := List.mem_map.mp hk
    obtain ⟨y, hy, _⟩ := agrees_of_extend? h f hf hw
    rw [hy]; rfl

end Binding

end JavaRefactor

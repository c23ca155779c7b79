import JavaRefactor.Proofs.Attempts
import JavaRefactor.Proofs.Template.Placeholders

/-!
# `Proofs.Pass.Instance` — when an after-template can be filled in

Filling in asks the binding for every placeholder of the template, and for nothing else. So it fails for
lack of a value exactly if a placeholder has none.
-/

namespace JavaRefactor.Pass

open Syntax (Node)

variable {text source : String} {b : Binding} {stop : Nat}

/-- Filling in slots, of which one is the first. -/
theorem fillSlots_cons {place : Nat} {s : Slot} {slots : List Slot} {out : String} :
    fillSlots text source b stop place (s :: slots) = .ok out ↔
      ∃ v tail, b.get? s.name = some v ∧ fillSlots text source b stop s.node.span.stop slots = .ok tail ∧
        out = Text.slice text ⟨place, s.node.span.start⟩ ++ s.fill source v ++ tail := by
  rw [fillSlots]
  cases b.get? s.name with
  | none => simp
  | some v =>
      constructor
      · intro h
        obtain ⟨tail, htail, he⟩ := Attempts.map_eq_ok.mp h
        exact ⟨v, tail, rfl, htail, he.symm⟩
      · rintro ⟨v', tail, hv, htail, he⟩
        obtain rfl := Option.some.inj hv
        exact Attempts.map_eq_ok.mpr ⟨tail, htail, he.symm⟩

/-- Filling slots fails for the lack of a value only. -/
theorem unbound_of_fillSlots {place : Nat} {slots : List Slot} {p : Problem}
    (h : fillSlots text source b stop place slots = .error p) :
    ∃ s ∈ slots, b.get? s.name = none ∧ p = .invariant (.unbound s.name) := by
  induction slots generalizing place with
  | nil => exact absurd h (by simp [fillSlots])
  | cons s slots ih =>
      unfold fillSlots at h
      cases hb : b.get? s.name with
      | none =>
          rw [hb] at h
          exact ⟨s, by simp, hb, (Except.error.inj h).symm⟩
      | some v =>
          rw [hb] at h
          obtain ⟨s', hs', hn⟩ := ih (Attempts.map_eq_error.mp h)
          exact ⟨s', by simp [hs'], hn⟩

/-- Filling slots fails if one of them lacks a value. -/
theorem fillSlots_unbound {place : Nat} {slots : List Slot} {s : Slot} (hs : s ∈ slots)
    (hb : b.get? s.name = none) :
    ∃ name, fillSlots text source b stop place slots = .error (.invariant (.unbound name)) := by
  cases h : fillSlots text source b stop place slots with
  | error p =>
      obtain ⟨s', _, _, rfl⟩ := unbound_of_fillSlots h
      exact ⟨s'.name, rfl⟩
  | ok filled =>
      exfalso
      induction slots generalizing place filled with
      | nil => exact absurd hs (by simp)
      | cons s' slots ih =>
          obtain ⟨v, tail, hv, htail, -⟩ := fillSlots_cons.mp h
          rcases List.mem_cons.mp hs with rfl | hs
          · rw [hb] at hv
            exact absurd hv (by simp)
          · exact ih hs tail htail

/-- A name has a slot exactly if it is the name of a placeholder. -/
theorem exists_slot_iff {t : Template} {parent : Option Node} {ps : List Node} {name : String} :
    (∃ s ∈ slotsOfAll t parent ps, s.name = name) ↔
      name ∈ (t.placeholdersOfAll ps).map (·.name) := by
  rw [← Template.placeholdersOfAll_slots parent ps, List.mem_map]

/-- **Filling in fails for the lack of a root or of a value.** -/
theorem instantiate_error {t : Template} {p : Problem} (h : instantiate t b source = .error p) :
    (t.roots = [] ∧ p = .invariant .noRoot) ∨ ∃ name, p = .invariant (.unbound name) := by
  unfold instantiate at h
  split at h
  · rename_i hr
    exact Or.inl ⟨hr, (Except.error.inj h).symm⟩
  · obtain ⟨s, _, _, hp⟩ := unbound_of_fillSlots h
    exact Or.inr ⟨s.name, hp⟩

/-- **Filling in fails for the lack of a value** exactly if a placeholder of the template has none. -/
theorem instantiate_unbound_iff {t : Template} :
    (∃ name, instantiate t b source = .error (.invariant (.unbound name))) ↔
      ∃ name ∈ t.placeholderNames, b.get? name = none := by
  unfold instantiate Template.placeholderNames Template.placeholders
  cases hr : t.roots with
  | nil => simp
  | cons root roots =>
      constructor
      · rintro ⟨name, h⟩
        obtain ⟨s, hs, hb, _⟩ := unbound_of_fillSlots h
        exact ⟨s.name, exists_slot_iff.mp ⟨s, hs, rfl⟩, hb⟩
      · rintro ⟨name, hn, hb⟩
        have hslot : ∃ s ∈ slotsOfAll t none (root :: roots), s.name = name :=
          exists_slot_iff.mpr hn
        obtain ⟨s, hs, rfl⟩ := hslot
        exact fillSlots_unbound hs hb

end JavaRefactor.Pass

import JavaRefactor.Text.Span

/-!
# `Proofs.Text.Order` — ranges inside one another, and ranges one behind the other

## Contents
- **`Inside`** and **`Meets`**: how one range stands to another; `overlaps_eq_false_of_le`.
- **`InOrder`**: ranges with a byte at least, in order, between two bytes.
- **Parts.** `InOrder.mono`, `InOrder.append_iff` and `InOrder.of_mem`.
- **`InOrder.pairwise_behind`** and **`InOrder.pairwise`**: each ends before the next one starts, and no two overlap;
  `either_of_pairwise`, for any two of them.
- **`Successive`**: ranges in order of which some may be empty; `Successive.pairwise_behind`.
-/

namespace JavaRefactor.Text

namespace Span

/-- The one range lies within the other. -/
def Inside (inner outer : Span) : Prop := outer.start ≤ inner.start ∧ inner.stop ≤ outer.stop

/-- The two ranges share a byte, or are the same empty one. -/
def Meets (s t : Span) : Prop := s.overlaps t = true ∨ s = t

instance (inner outer : Span) : Decidable (Inside inner outer) :=
  inferInstanceAs (Decidable (outer.start ≤ inner.start ∧ inner.stop ≤ outer.stop))

instance (s t : Span) : Decidable (Meets s t) :=
  inferInstanceAs (Decidable (s.overlaps t = true ∨ s = t))

variable {a b c : Span}

theorem Inside.refl (s : Span) : Inside s s := ⟨Nat.le_refl _, Nat.le_refl _⟩

theorem Inside.trans (h : Inside a b) (h' : Inside b c) : Inside a c :=
  ⟨Nat.le_trans h'.1 h.1, Nat.le_trans h.2 h'.2⟩

/-- Two ranges with a range in common that is not empty overlap. -/
theorem overlaps_of_inside (ha : Inside c a) (hb : Inside c b) (hc : c.start < c.stop) :
    a.overlaps b = true := by
  obtain ⟨ha₁, ha₂⟩ := ha
  obtain ⟨hb₁, hb₂⟩ := hb
  unfold overlaps
  rw [Bool.and_eq_true, Nat.blt_eq, Nat.blt_eq]
  omega

theorem overlaps_comm (s t : Span) : s.overlaps t = t.overlaps s := Bool.and_comm ..

/-- A range does not overlap one that it ends in front of. -/
theorem overlaps_eq_false_of_le {s t : Span} (h : s.stop ≤ t.start) : s.overlaps t = false := by
  have hnot : Nat.blt t.start s.stop = false := by
    rw [← Bool.not_eq_true, Nat.blt_eq]
    exact Nat.not_lt.mpr h
  unfold overlaps
  rw [hnot, Bool.and_false]

end Span

/-- The ranges stand in order between two bytes, apart from each other, and none of them is empty. -/
def InOrder : Nat → List Span → Nat → Prop
  | first, [], last => first ≤ last
  | first, s :: ss, last => first ≤ s.start ∧ s.start < s.stop ∧ InOrder s.stop ss last

namespace InOrder

variable {first last : Nat} {s : Span} {ss ts : List Span}

theorem le (h : InOrder first ss last) : first ≤ last := by
  induction ss generalizing first with
  | nil => exact h
  | cons s ss ih =>
      obtain ⟨hstart, hne, hrest⟩ := h
      have := ih hrest
      omega

theorem mono {first' last' : Nat} (h : InOrder first ss last) (hfirst : first' ≤ first)
    (hlast : last ≤ last') : InOrder first' ss last' := by
  induction ss generalizing first first' with
  | nil => exact Nat.le_trans (Nat.le_trans hfirst h) hlast
  | cons s ss ih =>
      obtain ⟨hstart, hne, hrest⟩ := h
      exact ⟨Nat.le_trans hfirst hstart, hne, ih hrest (Nat.le_refl _)⟩

/-- Ranges in order are some that end where the others begin. -/
theorem append_iff : InOrder first (ss ++ ts) last ↔
    ∃ middle, InOrder first ss middle ∧ InOrder middle ts last := by
  induction ss generalizing first with
  | nil =>
      constructor
      · intro h
        exact ⟨first, Nat.le_refl _, h⟩
      · rintro ⟨middle, hle, h⟩
        exact h.mono hle (Nat.le_refl _)
  | cons s ss ih =>
      constructor
      · rintro ⟨hstart, hne, hrest⟩
        obtain ⟨middle, hss, hts⟩ := ih.mp hrest
        exact ⟨middle, ⟨hstart, hne, hss⟩, hts⟩
      · rintro ⟨middle, ⟨hstart, hne, hss⟩, hts⟩
        exact ⟨hstart, hne, ih.mpr ⟨middle, hss, hts⟩⟩

/-- Each range lies between the two bytes and has a byte. -/
theorem of_mem (h : InOrder first ss last) (hs : s ∈ ss) :
    first ≤ s.start ∧ s.start < s.stop ∧ s.stop ≤ last := by
  obtain ⟨front, rest, rfl⟩ := List.append_of_mem hs
  obtain ⟨middle, hfront, hstart, hne, hrest⟩ := append_iff.mp h
  exact ⟨Nat.le_trans hfront.le hstart, hne, hrest.le⟩

/-- Of ranges in order each ends before the next one starts. -/
theorem pairwise_behind (h : InOrder first ss last) : ss.Pairwise fun s t => s.stop ≤ t.start := by
  induction ss generalizing first with
  | nil => exact .nil
  | cons s ss ih =>
      obtain ⟨-, -, hrest⟩ := h
      have hbehind : ∀ t ∈ ss, s.stop ≤ t.start := by
        intro t ht
        exact (hrest.of_mem ht).1
      exact .cons hbehind (ih hrest)

/-- **Ranges in order do not overlap.** -/
theorem pairwise (h : InOrder first ss last) : ss.Pairwise fun s t => s.overlaps t = false := by
  apply h.pairwise_behind.imp
  intro s t hbehind
  exact Span.overlaps_eq_false_of_le hbehind

end InOrder

/-- The ranges stand in order between two bytes, apart from each other; some may be empty. -/
def Successive : Nat → List Span → Nat → Prop
  | first, [], last => first ≤ last
  | first, s :: ss, last => first ≤ s.start ∧ s.start ≤ s.stop ∧ Successive s.stop ss last

namespace Successive

variable {first middle last : Nat} {s : Span} {ss ts : List Span}

theorem mono (h : Successive first ss last) {first' : Nat} (hfirst : first' ≤ first) : Successive first' ss last := by
  cases ss with
  | nil => exact Nat.le_trans hfirst h
  | cons s ss => exact ⟨Nat.le_trans hfirst h.1, h.2⟩

theorem le (h : Successive first ss last) : first ≤ last := by
  induction ss generalizing first with
  | nil => exact h
  | cons s ss ih => exact Nat.le_trans h.1 (Nat.le_trans h.2.1 (ih h.2.2))

theorem append (h : Successive first ss middle) (h' : Successive middle ts last) :
    Successive first (ss ++ ts) last := by
  induction ss generalizing first with
  | nil => exact h'.mono h
  | cons s ss ih => exact ⟨h.1, h.2.1, ih h.2.2⟩

/-- The ranges lie between the two bytes. -/
theorem of_mem (h : Successive first ss last) (hs : s ∈ ss) : s.Inside ⟨first, last⟩ ∧ s.start ≤ s.stop := by
  induction ss generalizing first with
  | nil => exact absurd hs List.not_mem_nil
  | cons t ss ih =>
      obtain ⟨hstart, hle, hrest⟩ := h
      rcases List.mem_cons.mp hs with rfl | hs
      · exact ⟨⟨hstart, hrest.le⟩, hle⟩
      · obtain ⟨⟨hstart', hstop⟩, hle'⟩ := ih hrest hs
        exact ⟨⟨Nat.le_trans hstart (Nat.le_trans hle hstart'), hstop⟩, hle'⟩

/-- Of ranges in order each ends before the next one starts. -/
theorem pairwise_behind (h : Successive first ss last) : ss.Pairwise fun s t => s.stop ≤ t.start := by
  induction ss generalizing first with
  | nil => exact .nil
  | cons s ss ih =>
      refine .cons ?_ (ih h.2.2)
      intro t ht
      exact (h.2.2.of_mem ht).1.1

end Successive

/-- **Of two elements of a list** one stands in front of the other. -/
theorem either_of_pairwise {α : Type} {r : α → α → Prop} {xs : List α} (h : xs.Pairwise r) {a b : α} (ha : a ∈ xs)
    (hb : b ∈ xs) (hne : a ≠ b) : r a b ∨ r b a := by
  induction h with
  | nil => exact absurd ha List.not_mem_nil
  | @cons x xs hx _ ih =>
      rcases List.mem_cons.mp ha with rfl | hain
      · rcases List.mem_cons.mp hb with rfl | hbin
        · exact absurd rfl hne
        · exact Or.inl (hx b hbin)
      · rcases List.mem_cons.mp hb with rfl | hbin
        · exact Or.inr (hx a hain)
        · exact ih hain hbin

end JavaRefactor.Text

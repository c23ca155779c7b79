import JavaRefactor.Proofs.Text.Edit
import JavaRefactor.Proofs.Text.Order
import Mathlib.Algebra.GroupWithZero.Nat

/-!
# `Proofs.Text.Weight` — texts weighed by their characters

Each character weighs something, and a text weighs as much as its characters. A piece of a text is no heavier than
what it is a piece of, and an edit changes the weight by the difference between the new text and the old one.

## Contents
- **`weight`**, of characters, and **`spanWeight`**, of a range of a text.
- **Pieces.** `spanWeight_of_cuts`, `spanWeight_le_of_inside`, and `Span.Cuts.split_inside`.
- **Edits.** `weight_applyAtOnce`: edits that each make a text lighter; `weight_applyWhereFits`: edits that put
  something in.
-/

namespace JavaRefactor.Text

variable {w : Char → Nat}

/-! ## Characters -/

/-- What some characters weigh together, each as much as `w` says. -/
def weight (w : Char → Nat) : List Char → Nat
  | [] => 0
  | c :: cs => w c + weight w cs

@[simp] theorem weight_nil : weight w [] = 0 := rfl

@[simp] theorem weight_cons (c : Char) (cs : List Char) : weight w (c :: cs) = w c + weight w cs := rfl

@[simp] theorem weight_append (xs ys : List Char) : weight w (xs ++ ys) = weight w xs + weight w ys := by
  induction xs with
  | nil => simp
  | cons c cs ih => simp [ih, Nat.add_assoc]

theorem weight_eq_zero_iff {cs : List Char} : weight w cs = 0 ↔ ∀ c ∈ cs, w c = 0 := by
  induction cs with
  | nil => simp
  | cons c cs ih => simp [ih]

theorem weight_le_of_infix {xs ys : List Char} (h : xs <:+: ys) : weight w xs ≤ weight w ys := by
  obtain ⟨front, rest, rfl⟩ := h
  rw [weight_append, weight_append]
  omega

/-- Where no character is heavier than `k`, the weight is bounded by the length. -/
theorem weight_le_mul {k : Nat} (h : ∀ c, w c ≤ k) (cs : List Char) : weight w cs ≤ k * cs.length := by
  induction cs with
  | nil => simp
  | cons c cs ih =>
      have hc : w c ≤ k := h c
      rw [weight_cons, List.length_cons, Nat.mul_succ]
      omega

/-! ## Pieces -/

/-- What a range of a text weighs; nothing where there is no such range. -/
def spanWeight (w : Char → Nat) (s : String) (span : Span) : Nat := weight w (slice s span).toList

theorem spanWeight_of_cuts {s : String} {span : Span} {middle : List Char}
    (h : span.Cuts s.toList middle) : spanWeight w s span = weight w middle := by
  unfold spanWeight
  rw [slice_of_cuts h, String.toList_ofList]

/-- An empty range weighs nothing, wherever it stands. -/
theorem spanWeight_self (s : String) (place : Nat) : spanWeight w s ⟨place, place⟩ = 0 := by
  unfold spanWeight
  rw [slice_self]
  rfl

/-- Of two pieces of a text, the one whose range lies within that of the other is a piece of it. -/
theorem Span.Cuts.infix_of_inside {inner outer : Span} {cs middle middle' : List Char}
    (h : inner.Cuts cs middle) (h' : outer.Cuts cs middle') (hinside : inner.Inside outer) :
    middle <:+: middle' := by
  obtain ⟨front, rest, htext, rfl⟩ := h
  obtain ⟨front', rest', htext', rfl⟩ := h'
  obtain ⟨hstart, hstop⟩ := hinside
  -- the inner piece starts behind the outer one, and ends in front of its end
  have hsame : front' ++ (middle' ++ rest') = front ++ (middle ++ rest) := by
    rw [← List.append_assoc, ← List.append_assoc, ← htext, ← htext']
  obtain ⟨before, rfl, hrest⟩ := append_inv hsame hstart
  have hsame' : before ++ middle ++ rest = middle' ++ rest' := by
    rw [hrest, List.append_assoc]
  have hle : byteLength (before ++ middle) ≤ byteLength middle' := by
    simp only [byteLength_append] at hstop ⊢
    omega
  obtain ⟨behind, rfl, -⟩ := append_inv hsame' hle
  exact ⟨before, behind, rfl⟩

theorem spanWeight_le_of_inside {s : String} {inner outer : Span} {middle middle' : List Char}
    (h : inner.Cuts s.toList middle) (h' : outer.Cuts s.toList middle') (hinside : inner.Inside outer) :
    spanWeight w s inner ≤ spanWeight w s outer := by
  rw [spanWeight_of_cuts h, spanWeight_of_cuts h']
  exact weight_le_of_infix (h.infix_of_inside h' hinside)

/-- **A range that stands in another one** leaves two pieces beside it. -/
theorem Span.Cuts.split_inside {cs : List Char} {place stop : Nat} {inner : Span}
    {whole middle : List Char} (h : (⟨place, stop⟩ : Span).Cuts cs whole) (hinner : inner.Cuts cs middle)
    (hstart : place ≤ inner.start) (hstop : inner.stop ≤ stop) :
    ∃ before behind, (⟨place, inner.start⟩ : Span).Cuts cs before ∧
      (⟨inner.stop, stop⟩ : Span).Cuts cs behind ∧ whole = before ++ middle ++ behind := by
  obtain ⟨front, rest, rfl, hspan⟩ := h
  obtain ⟨rfl, rfl⟩ := Span.mk.inj hspan
  rw [List.append_assoc] at hinner
  obtain ⟨before, behind, hrest, rfl⟩ := hinner.behind hstart
  -- what is behind the inner range ends with what is behind the outer one
  have hsame : whole ++ rest = before ++ middle ++ behind := hrest
  have hle : byteLength (before ++ middle) ≤ byteLength whole := by
    simp only [byteLength_append] at hstop ⊢
    omega
  obtain ⟨behind, rfl, -⟩ := append_inv hsame.symm hle
  refine ⟨before, behind, ⟨front, middle ++ behind ++ rest, ?_, rfl⟩, ⟨front ++ before ++ middle, rest, ?_, ?_⟩, rfl⟩
  all_goals simp only [List.append_assoc]

/-! ## Edits -/

/-- **Edits that make a text lighter**, each of them by `d` at least, make it lighter by as much together. -/
theorem weight_applyAtOnce {d : Nat} {edits : List Edit} {front cs out : List Char}
    (h : applyAtOnce (byteLength front) edits cs = some out)
    (hlighter : ∀ e ∈ edits, ∃ middle, e.span.Cuts (front ++ cs) middle ∧
      weight w e.text + d ≤ weight w middle) :
    weight w out + d * edits.length ≤ weight w cs := by
  induction edits generalizing front cs out with
  | nil =>
      obtain rfl : cs = out := Option.some.inj h
      simp
  | cons e es ih =>
      obtain ⟨middle, hcuts, he⟩ := hlighter e (by simp)
      have hplace : byteLength front ≤ e.span.start := by
        rw [applyAtOnce] at h
        split at h
        · rename_i hplaces
          exact hplaces.1
        · exact absurd h (by simp)
      obtain ⟨before, behind, rfl, hspan⟩ := hcuts.behind hplace
      have hspan' : e.span =
          ⟨byteLength front + byteLength before, byteLength front + byteLength (before ++ middle)⟩ := by
        rw [hspan]
        simp only [byteLength_append, Nat.add_assoc]
      rw [applyAtOnce_append hspan'] at h
      obtain ⟨r, hr, rfl⟩ := Option.map_eq_some_iff.mp h
      have hstop : e.span.stop = byteLength (front ++ before ++ middle) := by rw [hspan]
      have htext : front ++ (before ++ middle ++ behind) = front ++ before ++ middle ++ behind := by
        simp only [List.append_assoc]
      rw [hstop] at hr
      rw [htext] at hlighter
      have hrest := ih hr (fun e' he' => hlighter e' (by simp [he']))
      rw [List.length_cons, Nat.mul_succ]
      simp only [weight_append]
      omega

/-- An edit puts in its new text, and what it takes out makes a text no heavier. -/
theorem weight_applied? {e : Edit} {cs out : List Char} (h : e.applied? cs = some out) :
    weight w out ≤ weight w cs + weight w e.text := by
  unfold Edit.applied? at h
  split at h
  · rename_i hle
    split at h
    · rename_i before behind htake hdrop
      obtain rfl := Option.some.inj h
      obtain ⟨rest, htext, hbefore⟩ := takeBytes_inv htake
      obtain ⟨front, htext', hfront⟩ := dropBytes_inv hdrop
      have hsame : before ++ rest = front ++ behind := by rw [← htext, ← htext']
      obtain ⟨between, rfl, -⟩ := append_inv hsame (by omega)
      rw [htext']
      simp only [weight_append]
      omega
    · exact absurd h (by simp)
  · exact absurd h (by simp)

/-- **Edits that are made where they fit** put in their new texts at most. -/
theorem weight_applyWhereFits (edits : List Edit) (cs : List Char) :
    weight w (applyWhereFits edits cs) ≤ weight w cs + (edits.map fun e => weight w e.text).sum := by
  unfold applyWhereFits
  induction edits generalizing cs with
  | nil => simp
  | cons e es ih =>
      have hstep : weight w ((e.applied? cs).getD cs) ≤ weight w cs + weight w e.text := by
        cases he : e.applied? cs with
        | none => exact Nat.le_add_right _ _
        | some out => exact weight_applied? he
      have hrest := ih ((e.applied? cs).getD cs)
      rw [List.foldl_cons, List.map_cons, List.sum_cons]
      omega

end JavaRefactor.Text

import JavaRefactor.Text.Span

/-!
# `Proofs.Text.Pieces` — pieces of a text by their bytes

A place between two characters of a text is told by the number of bytes in front of it. The operations
that count bytes find the place again at which a text was put together.

## Contents
- **`utf8ByteSize_eq`**: `byteLength` measures what the size of a string does.
- **`takeBytes_append`**, **`dropBytes_append`**: a text put together, taken apart; `takeBytes_inv`, `dropBytes_inv`.
- **`Span.Cuts`**, a range that ends between characters, and **`slice?_of_cuts`**.
-/

namespace JavaRefactor.Text

theorem utf8ByteSize_ofList (cs : List Char) : (String.ofList cs).utf8ByteSize = byteLength cs := by
  induction cs with
  | nil => rfl
  | cons c cs ih =>
      have hcons : String.ofList (c :: cs) = String.singleton c ++ String.ofList cs := by
        apply String.toList_injective
        simp
      rw [hcons, String.utf8ByteSize_append, String.utf8ByteSize_singleton, ih, byteLength_cons]

theorem utf8ByteSize_eq (s : String) : s.utf8ByteSize = byteLength s.toList := by
  rw [← utf8ByteSize_ofList, String.ofList_toList]

/-- Every character takes a byte. -/
theorem byteLength_pos {cs : List Char} (h : cs ≠ []) : 0 < byteLength cs := by
  cases cs with
  | nil => exact absurd rfl h
  | cons c cs =>
      have hc : 0 < c.utf8Size := c.utf8Size_pos
      rw [byteLength_cons]
      omega

theorem dropBytes_append (front rest : List Char) :
    dropBytes (front ++ rest) (byteLength front) = some rest := by
  induction front with
  | nil => cases rest <;> rfl
  | cons c cs ih =>
      -- the measure of the front is a successor, as the definition asks for
      obtain ⟨n, hn⟩ : ∃ n, byteLength (c :: cs) = n + 1 :=
        Nat.exists_eq_succ_of_ne_zero (Nat.ne_of_gt (byteLength_pos (by simp)))
      have hsize : n + 1 = c.utf8Size + byteLength cs := by rw [← hn, byteLength_cons]
      rw [hn, List.cons_append, dropBytes, if_pos (by omega), hsize, Nat.add_sub_cancel_left]
      exact ih

theorem takeBytes_append (front rest : List Char) :
    takeBytes (front ++ rest) (byteLength front) = some front := by
  induction front with
  | nil => cases rest <;> rfl
  | cons c cs ih =>
      obtain ⟨n, hn⟩ : ∃ n, byteLength (c :: cs) = n + 1 :=
        Nat.exists_eq_succ_of_ne_zero (Nat.ne_of_gt (byteLength_pos (by simp)))
      have hsize : n + 1 = c.utf8Size + byteLength cs := by rw [← hn, byteLength_cons]
      rw [hn, List.cons_append, takeBytes, if_pos (by omega), hsize, Nat.add_sub_cancel_left, ih]
      rfl

/-- What is left behind some bytes is an end of the text, and the bytes are those in front of it. -/
theorem dropBytes_inv {cs rest : List Char} {n : Nat} (h : dropBytes cs n = some rest) :
    ∃ front, cs = front ++ rest ∧ byteLength front = n := by
  induction cs generalizing n with
  | nil =>
      cases n with
      | zero => exact ⟨[], Option.some.inj h, rfl⟩
      | succ n => exact absurd h (by simp [dropBytes])
  | cons c cs ih =>
      cases n with
      | zero => exact ⟨[], Option.some.inj h, rfl⟩
      | succ n =>
          rw [dropBytes] at h
          by_cases hsize : c.utf8Size ≤ n + 1
          · rw [if_pos hsize] at h
            obtain ⟨front, rfl, hfront⟩ := ih h
            refine ⟨c :: front, rfl, ?_⟩
            rw [byteLength_cons, hfront]
            omega
          · rw [if_neg hsize] at h
            exact absurd h (by simp)

/-- The first bytes of a text are a beginning of it. -/
theorem takeBytes_inv {cs front : List Char} {n : Nat} (h : takeBytes cs n = some front) :
    ∃ rest, cs = front ++ rest ∧ byteLength front = n := by
  induction cs generalizing n front with
  | nil =>
      cases n with
      | zero =>
          obtain rfl : [] = front := Option.some.inj h
          exact ⟨[], rfl, rfl⟩
      | succ n => exact absurd h (by simp [takeBytes])
  | cons c cs ih =>
      cases n with
      | zero =>
          obtain rfl : [] = front := Option.some.inj h
          exact ⟨c :: cs, rfl, rfl⟩
      | succ n =>
          rw [takeBytes] at h
          by_cases hsize : c.utf8Size ≤ n + 1
          · rw [if_pos hsize] at h
            obtain ⟨front', hfront', rfl⟩ := Option.map_eq_some_iff.mp h
            obtain ⟨rest, rfl, hlength⟩ := ih hfront'
            refine ⟨rest, rfl, ?_⟩
            rw [byteLength_cons, hlength]
            omega
          · rw [if_neg hsize] at h
            exact absurd h (by simp)

/-- A piece without a byte is empty. -/
theorem slice_self (text : String) (place : Nat) : slice text ⟨place, place⟩ = "" := by
  unfold slice slice? sliceChars?
  cases dropBytes text.toList place with
  | none => simp
  | some cs => simp [takeBytes]

/-! ## Ranges between characters -/

/-- The range takes `middle` out of the characters. -/
def Span.Cuts (span : Span) (cs middle : List Char) : Prop :=
  ∃ front rest, cs = front ++ middle ++ rest ∧
    span = ⟨byteLength front, byteLength (front ++ middle)⟩

/-- The place at the start of a range. -/
theorem Span.Cuts.start {span : Span} {cs middle : List Char} (h : span.Cuts cs middle) :
    (⟨span.start, span.start⟩ : Span).Cuts cs [] := by
  obtain ⟨front, rest, rfl, rfl⟩ := h
  exact ⟨front, middle ++ rest, by simp, by simp⟩

/-- The place at the end of a range. -/
theorem Span.Cuts.stop {span : Span} {cs middle : List Char} (h : span.Cuts cs middle) :
    (⟨span.stop, span.stop⟩ : Span).Cuts cs [] := by
  obtain ⟨front, rest, rfl, rfl⟩ := h
  exact ⟨front ++ middle, rest, by simp, by simp⟩

/-- **What a range takes out of a text** is the piece of the text in it. -/
theorem slice?_of_cuts {s : String} {span : Span} {middle : List Char}
    (h : span.Cuts s.toList middle) : slice? s span = some (String.ofList middle) := by
  obtain ⟨front, rest, hs, rfl⟩ := h
  have hle : byteLength front ≤ byteLength (front ++ middle) := by
    rw [byteLength_append]; omega
  have hlen : byteLength (front ++ middle) - byteLength front = byteLength middle := by
    rw [byteLength_append]; omega
  unfold slice? sliceChars?
  rw [if_pos hle, hs, List.append_assoc, dropBytes_append, Option.bind_some, hlen, takeBytes_append]
  rfl

theorem slice_of_cuts {s : String} {span : Span} {middle : List Char} (h : span.Cuts s.toList middle) :
    slice s span = String.ofList middle := by
  unfold slice
  rw [slice?_of_cuts h, Option.getD_some]

end JavaRefactor.Text

import JavaRefactor.Text.Lines

/-!
# `Proofs.Text.Lines` — what a difference of lines shows

Two lists of lines are taken apart from both ends. The lines they share in front are counted first; at the back no
more are counted than both lists have left, so that a line that stands several times is counted at one end only.

## Contents
- **`commonFront_spec`**: the shared front of two lists, and no common element behind it.
- **`exists_split`**: both lists by their shared ends and what is between them.
- **Checks.** **`changedLines?`**, which gives up where a number falls below zero or a piece does not lie in its list,
  and `changedLines?_eq`.
- **`exists_changedLines`** and `lineDiff_eq_empty_iff`.
- **`lineDiff_split`**.
-/

namespace JavaRefactor.Text

/-! ## Both ends -/

section

variable {α : Type} {xs ys : List α}

/-- The lists do not begin with one and the same element. -/
def ApartInFront (xs ys : List α) : Prop := ¬ ∃ x, xs.head? = some x ∧ ys.head? = some x

/-- The lists do not end with one and the same element. -/
def ApartAtBack (xs ys : List α) : Prop := ¬ ∃ x, xs.getLast? = some x ∧ ys.getLast? = some x

theorem ApartInFront.of_append {zs : List α} (h : ApartInFront (xs ++ zs) (ys ++ zs)) : ApartInFront xs ys := by
  rintro ⟨x, hx, hy⟩
  exact h ⟨x, by rw [List.head?_append, hx]; rfl, by rw [List.head?_append, hy]; rfl⟩

theorem apartAtBack_reverse : ApartAtBack xs.reverse ys.reverse ↔ ApartInFront xs ys := by
  simp only [ApartAtBack, ApartInFront, List.getLast?_reverse]

/-- Equal lists are apart in front only if they are empty. -/
theorem ApartInFront.eq_nil (h : ApartInFront xs xs) : xs = [] := by
  cases xs with
  | nil => rfl
  | cons x xs => exact absurd ⟨x, rfl, rfl⟩ h

section

variable {front rest shared other : List α} {k : Nat}

/-- The last elements of a list that ends with `rest`, where the list backwards begins with `shared`. -/
theorem eq_append_of_reverse (h : (front ++ rest).reverse = shared ++ other) (hrest : k ≤ rest.length)
    (hshared : k ≤ shared.length) : rest = (rest.reverse.drop k).reverse ++ (shared.take k).reverse := by
  have htake := congrArg (List.take k) h
  rw [List.reverse_append, List.take_append_of_le_length (by simpa using hrest),
    List.take_append_of_le_length hshared] at htake
  rw [← htake, ← List.reverse_append, List.take_append_drop, List.reverse_reverse]

/-- The element in front of those. -/
theorem head?_drop_of_reverse (h : (front ++ rest).reverse = shared ++ other) (hrest : shared.length < rest.length) :
    (rest.reverse.drop shared.length).head? = other.head? := by
  have hdrop := congrArg (List.drop shared.length) h
  rw [List.reverse_append, List.drop_append_of_le_length (by simpa using Nat.le_of_lt hrest),
    List.drop_left] at hdrop
  have hne : rest.reverse.drop shared.length ≠ [] := by simpa using hrest
  rw [← hdrop, List.head?_append, List.head?_eq_some_head hne]
  rfl

end

variable [BEq α] [LawfulBEq α]

/-- **The shared front** of two lists is as long as it is counted, and behind it they are apart. -/
theorem commonFront_spec (xs ys : List α) : ∃ front xs' ys', xs = front ++ xs' ∧ ys = front ++ ys' ∧
    front.length = commonFront xs ys ∧ ApartInFront xs' ys' := by
  induction xs generalizing ys with
  | nil => exact ⟨[], [], ys, rfl, rfl, rfl, by simp [ApartInFront]⟩
  | cons x xs ih =>
      cases ys with
      | nil => exact ⟨[], x :: xs, [], rfl, rfl, rfl, by simp [ApartInFront]⟩
      | cons y ys =>
          by_cases hxy : x = y
          · subst hxy
            obtain ⟨front, xs', ys', rfl, rfl, hlength, hapart⟩ := ih ys
            exact ⟨x :: front, xs', ys', rfl, rfl, by simp [commonFront, hlength], hapart⟩
          · refine ⟨[], x :: xs, y :: ys, rfl, rfl, by simp [commonFront, hxy], ?_⟩
            rintro ⟨z, hx, hy⟩
            exact hxy ((Option.some.inj hx).trans (Option.some.inj hy).symm)

/-- **Two lists by their shared ends.** The one at the back is counted in what is left behind the one in front. -/
theorem exists_split (old new : List α) : ∃ front removed added back,
    old = front ++ removed ++ back ∧ new = front ++ added ++ back ∧ front.length = commonFront old new ∧
    back.length = min (commonFront old.reverse new.reverse) (min old.length new.length - commonFront old new) ∧
    ApartInFront removed added ∧ ApartAtBack removed added := by
  obtain ⟨front, old', new', hold, hnew, hfront, hapart⟩ := commonFront_spec old new
  obtain ⟨shared, oldRest, newRest, holdBack, hnewBack, hshared, hbehind⟩ :=
    commonFront_spec old.reverse new.reverse
  obtain ⟨k, hk⟩ : ∃ k, k = min shared.length (min old'.length new'.length) := ⟨_, rfl⟩
  subst hold hnew
  have hold := eq_append_of_reverse (k := k) holdBack (by omega) (by omega)
  have hnew := eq_append_of_reverse (k := k) hnewBack (by omega) (by omega)
  refine ⟨front, (old'.reverse.drop k).reverse, (new'.reverse.drop k).reverse, (shared.take k).reverse,
    ?_, ?_, hfront, ?_, ?_, ?_⟩
  · rw [List.append_assoc, ← hold]
  · rw [List.append_assoc, ← hnew]
  · rw [List.length_reverse, List.length_take, ← hshared, ← hfront, List.length_append, List.length_append]
    omega
  · rw [hold, hnew] at hapart
    exact hapart.of_append
  · rw [apartAtBack_reverse]
    rintro ⟨x, hx, hy⟩
    have hlt : ∀ {zs : List α}, (zs.reverse.drop k).head? = some x → k < zs.length := by
      intro zs hz
      rw [List.head?_drop] at hz
      simpa using (List.getElem?_eq_some_iff.mp hz).1
    -- an element is left on both sides, so the back is all that is shared
    have hall : k = shared.length := by
      have := hlt hx
      have := hlt hy
      omega
    subst hall
    rw [head?_drop_of_reverse holdBack (hlt hx)] at hx
    rw [head?_drop_of_reverse hnewBack (hlt hy)] at hy
    exact hbehind ⟨x, hx, hy⟩

end

/-! ## Checks -/

/-- The difference of two numbers, where there is one. -/
def sub? (m n : Nat) : Option Nat := if n ≤ m then some (m - n) else none

/-- The elements from one index up to another, where the list has them. -/
def range? {α : Type} (xs : List α) (start stop : Nat) : Option (List α) :=
  if start ≤ stop ∧ stop ≤ xs.length then some ((xs.take stop).drop start) else none

/-- The changed lines; none if a number falls below zero or a piece does not lie in its list. -/
def changedLines? (old new : List String) : Option (List String × List String) := do
  let front := commonFront old new
  let left ← sub? (min old.length new.length) front
  let back := min (commonFront old.reverse new.reverse) left
  let oldStop ← sub? old.length back
  let newStop ← sub? new.length back
  let removed ← range? old front oldStop
  let added ← range? new front newStop
  return (removed, added)

theorem sub?_of_le {m n : Nat} (h : n ≤ m) : sub? m n = some (m - n) := if_pos h

theorem range?_of_le {α : Type} {xs : List α} {start stop : Nat} (h : start ≤ stop) (hstop : stop ≤ xs.length) :
    range? xs start stop = some ((xs.take stop).drop start) := if_pos ⟨h, hstop⟩

/-- **No check fails**: what two lists share in front is in both, and at the back no more is taken than is left. -/
theorem changedLines?_eq (old new : List String) : changedLines? old new = some (changedLines old new) := by
  have hfront : commonFront old new ≤ min old.length new.length := by
    obtain ⟨front, old', new', rfl, rfl, hlength, -⟩ := commonFront_spec old new
    rw [← hlength, List.length_append, List.length_append]
    omega
  obtain ⟨back, hback⟩ : ∃ back, back =
    min (commonFront old.reverse new.reverse) (min old.length new.length - commonFront old new) := ⟨_, rfl⟩
  have holdStop : sub? old.length back = some (old.length - back) := sub?_of_le (by omega)
  have hnewStop : sub? new.length back = some (new.length - back) := sub?_of_le (by omega)
  have hremoved : range? old (commonFront old new) (old.length - back) =
      some ((old.take (old.length - back)).drop (commonFront old new)) := range?_of_le (by omega) (by omega)
  have hadded : range? new (commonFront old new) (new.length - back) =
      some ((new.take (new.length - back)).drop (commonFront old new)) := range?_of_le (by omega) (by omega)
  simp only [changedLines?, changedLines, sub?_of_le hfront, Option.bind_eq_bind, Option.bind_some, ← hback,
    holdStop, hnewStop, hremoved, hadded]
  rfl

/-! ## The difference -/

/-- What stands between the ends of a list. -/
theorem drop_take_append {α : Type} (front middle back : List α) :
    ((front ++ middle ++ back).take ((front ++ middle ++ back).length - back.length)).drop front.length = middle := by
  rw [List.length_append, Nat.add_sub_cancel, List.take_left, List.drop_left]

/-- **The changed lines** are what stands between the shared ends, which reach as far as they can. -/
theorem exists_changedLines (old new : List String) : ∃ front removed added back,
    old = front ++ removed ++ back ∧ new = front ++ added ++ back ∧ changedLines old new = (removed, added) ∧
    ApartInFront removed added ∧ ApartAtBack removed added := by
  obtain ⟨front, removed, added, back, hold, hnew, hfront, hback, hapart, hbehind⟩ := exists_split old new
  refine ⟨front, removed, added, back, hold, hnew, ?_, hapart, hbehind⟩
  have hremoved := drop_take_append front removed back
  have hadded := drop_take_append front added back
  rw [← hold, hfront] at hremoved
  rw [← hnew, hfront] at hadded
  simp only [changedLines, ← hback, hremoved, hadded]

/-- Texts put together are empty if all of them are. -/
theorem join_eq_empty_iff {texts : List String} : String.join texts = "" ↔ ∀ t ∈ texts, t = "" := by
  induction texts with
  | nil => simp
  | cons t texts ih => rw [String.join_cons, String.append_eq_empty_iff, ih, List.forall_mem_cons]

/-- The text of a difference is empty only where no line is changed. -/
theorem lineDiff_eq_empty_iff (old new : String) :
    lineDiff old new = "" ↔ changedLines (lines old) (lines new) = ([], []) := by
  have hmarked : ∀ (mark : String) (ls : List String), mark ≠ "" →
      ((∀ t ∈ ls.map (fun l => mark ++ l ++ "\n"), t = "") ↔ ls = []) := by
    intro mark ls hmark
    cases ls with
    | nil => simp
    | cons l ls => simp [String.append_eq_empty_iff]
  unfold lineDiff
  obtain ⟨removed, added⟩ := changedLines (lines old) (lines new)
  simp only [join_eq_empty_iff, List.forall_mem_append, hmarked "-" removed (by decide),
    hmarked "+" added (by decide), Prod.mk.injEq]

/-- **A difference of lines.** Both texts have the lines of the difference between lines that they share: those that
    go stand in the old text and those that come in the new one. What goes and what comes begin with different
    lines and end with different lines. Nothing is shown exactly if the texts have the same lines, and no number
    and no piece of the lines is out of bounds. -/
theorem lineDiff_split (old new : String) :
    changedLines? (lines old) (lines new) = some (changedLines (lines old) (lines new)) ∧
    (∃ front removed added back : List String,
      lines old = front ++ removed ++ back ∧ lines new = front ++ added ++ back ∧
      lineDiff old new =
        String.join (removed.map (fun l => "-" ++ l ++ "\n") ++ added.map (fun l => "+" ++ l ++ "\n")) ∧
      (¬ ∃ line, removed.head? = some line ∧ added.head? = some line) ∧
      ¬ ∃ line, removed.getLast? = some line ∧ added.getLast? = some line) ∧
    (lineDiff old new = "" ↔ lines old = lines new) := by
  obtain ⟨front, removed, added, back, hold, hnew, hchanged, hapart, hbehind⟩ :=
    exists_changedLines (lines old) (lines new)
  refine ⟨changedLines?_eq _ _, ⟨front, removed, added, back, hold, hnew, ?_, hapart, hbehind⟩, ?_⟩
  · rw [lineDiff, hchanged]
  · rw [lineDiff_eq_empty_iff, hchanged, Prod.mk.injEq]
    constructor
    · rintro ⟨rfl, rfl⟩
      rw [hold, hnew]
    · intro hsame
      -- the same lines between the same ends are apart only if there are none
      rw [hold, hnew] at hsame
      have heq : removed = added := by simpa using hsame
      subst heq
      exact ⟨hapart.eq_nil, hapart.eq_nil⟩

/-- Of lines that repeat one is left over, and it is shown once. -/
example : lineDiff "a\na\n" "a\na\na\n" = "+a\n" := by decide

end JavaRefactor.Text

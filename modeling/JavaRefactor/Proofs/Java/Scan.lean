import JavaRefactor.Java.Scan

/-!
# `Proofs.Java.Scan` — a scan loses no character

What a scan takes and what it leaves are together the text that it was given.

## Contents
- **`Splits`** and **`Takes`**, for the ways to build a scan and for numbers.
- **Literals.** `append_of_charBody`, `append_of_stringBody`, `append_of_blockBody`.
- **Trivia.** `append_of_trivia`, `isBlank_of_trivia`, and `head_of_trivia`.
-/

namespace JavaRefactor.Java.Scan

/-- The two parts of a text are the text. -/
def Splits (s : Scan) : Prop := ∀ ⦃cs x rest⦄, s cs = some (x, rest) → x ++ rest = cs

/-- What is taken has a character. -/
def Takes (s : Scan) : Prop := ∀ ⦃cs x rest⦄, s cs = some (x, rest) → x ≠ []

variable {a b : Scan} {p : Char → Bool}

/-! ## Ways to build a scan -/

theorem one_eq_some {cs x rest : List Char} (h : one p cs = some (x, rest)) :
    ∃ c, x = [c] ∧ cs = c :: rest := by
  unfold one at h
  split at h
  · rename_i c cs
    split at h
    · obtain ⟨rfl, rfl⟩ : [c] = x ∧ cs = rest := by simpa using h
      exact ⟨c, rfl, rfl⟩
    · exact absurd h (by simp)
  · exact absurd h (by simp)

theorem splits_one : Splits (one p) := by
  intro cs x rest h
  obtain ⟨c, rfl, rfl⟩ := one_eq_some h
  rfl

theorem takes_one : Takes (one p) := by
  intro cs x rest h
  obtain ⟨c, rfl, -⟩ := one_eq_some h
  simp

/-- The two steps of one scan after another. -/
theorem andThen_eq_some {cs x rest : List Char} (h : andThen a b cs = some (x, rest)) :
    ∃ y mid z, a cs = some (y, mid) ∧ b mid = some (z, rest) ∧ x = y ++ z := by
  unfold andThen at h
  cases ha : a cs with
  | none => rw [ha] at h; exact absurd h (by simp)
  | some r =>
      obtain ⟨y, mid⟩ := r
      rw [ha] at h
      obtain ⟨⟨z, rest'⟩, hb, hz⟩ := Option.map_eq_some_iff.mp h
      obtain ⟨rfl, rfl⟩ : y ++ z = x ∧ rest' = rest := by simpa using hz
      exact ⟨y, mid, z, rfl, hb, rfl⟩

theorem Splits.andThen (ha : Splits a) (hb : Splits b) : Splits (andThen a b) := by
  intro cs x rest h
  obtain ⟨y, mid, z, hy, hz, rfl⟩ := andThen_eq_some h
  rw [List.append_assoc, hb hz, ha hy]

theorem Takes.andThen (ha : Takes a) : Takes (andThen a b) := by
  intro cs x rest h
  obtain ⟨y, mid, z, hy, -, rfl⟩ := andThen_eq_some h
  exact List.append_ne_nil_of_left_ne_nil (ha hy) z

theorem Splits.optional (ha : Splits a) : Splits (optional a) := by
  intro cs x rest h
  unfold Scan.optional at h
  cases hs : a cs with
  | none =>
      rw [hs] at h
      obtain ⟨rfl, rfl⟩ : [] = x ∧ cs = rest := by simpa using h
      rfl
  | some r =>
      rw [hs] at h
      exact ha (hs.trans h)

/-- The scan that reaches further is one of the two. -/
theorem of_longer {cs : List Char} {r : List Char × List Char} (h : longer a b cs = some r) :
    a cs = some r ∨ b cs = some r := by
  unfold longer at h
  split at h
  · rename_i ha hb
    split at h
    · exact Or.inr (hb.trans h)
    · exact Or.inl (ha.trans h)
  · rename_i ha _
    exact Or.inl (ha.trans h)
  · exact Or.inr h

theorem Splits.longer (ha : Splits a) (hb : Splits b) : Splits (longer a b) := by
  intro cs x rest h
  rcases of_longer h with h | h
  · exact ha h
  · exact hb h

theorem Takes.longer (ha : Takes a) (hb : Takes b) : Takes (longer a b) := by
  intro cs x rest h
  rcases of_longer h with h | h
  · exact ha h
  · exact hb h

/-! ## Numbers -/

theorem append_digitTail (many : Bool) (cs : List Char) :
    (digitTail p many cs).1 ++ (digitTail p many cs).2 = cs := by
  induction cs with
  | nil => rfl
  | cons c cs ih =>
      unfold digitTail
      split
      · simp [ih]
      · rfl

theorem splits_digits : Splits (digits p) := by
  intro cs x rest h
  unfold digits at h
  split at h
  · rename_i c cs
    split at h
    · rw [← append_digitTail (p := p) false (c :: cs), Option.some.inj h]
    · exact absurd h (by simp)
  · exact absurd h (by simp)

theorem takes_digits : Takes (digits p) := by
  intro cs x rest h
  unfold digits at h
  split at h
  · rename_i c cs
    split at h
    · rename_i hc
      unfold digitTail at h
      simp only [hc, Bool.true_or, if_true, Option.some.injEq, Prod.mk.injEq] at h
      rw [← h.1]
      simp
    · exact absurd h (by simp)
  · exact absurd h (by simp)

/-- A decimal number, with all that a text begins with if it begins with one. -/
theorem plainDecimal_spec {cs x rest : List Char} (h : plainDecimal cs = some (x, rest)) :
    x ++ rest = cs ∧ x ≠ [] := by
  have htail := append_digitTail (p := isDecimal) true
  unfold plainDecimal at h
  split at h
  · obtain ⟨rfl, rfl⟩ := by simpa using h
    simp
  · split at h
    · split at h
      · split at h
        · obtain ⟨rfl, rfl⟩ := by simpa using h
          simp [htail]
        · obtain ⟨rfl, rfl⟩ := by simpa using h
          simp
      · split at h
        · obtain ⟨rfl, rfl⟩ := by simpa using h
          simp [htail]
        · obtain ⟨rfl, rfl⟩ := by simpa using h
          simp
      · obtain ⟨rfl, rfl⟩ := by simpa using h
        simp
    · exact absurd h (by simp)
  · exact absurd h (by simp)

theorem splits_plainDecimal : Splits plainDecimal := fun _ _ _ h => (plainDecimal_spec h).1

theorem takes_plainDecimal : Takes plainDecimal := fun _ _ _ h => (plainDecimal_spec h).2

theorem splits_longMark : Splits longMark := splits_one.optional

theorem splits_exponent : Splits exponent :=
  splits_one.andThen (splits_one.optional.andThen splits_digits)

theorem splits_binaryExponent : Splits binaryExponent :=
  splits_one.andThen
    (splits_one.optional.andThen (splits_plainDecimal.andThen splits_one.optional))

theorem splits_hexMark : Splits hexMark := splits_one.andThen splits_one

theorem splits_octalInteger : Splits octalInteger :=
  (splits_one.andThen (splits_digits.andThen splits_longMark)).longer
    (splits_one.andThen (splits_one.andThen (splits_digits.andThen splits_longMark)))

theorem splits_decimalFloating : Splits decimalFloating := by
  have htail : Splits (andThen (optional exponent) (optional floatMark)) :=
    splits_exponent.optional.andThen splits_one.optional
  refine Splits.longer (Splits.longer ?_ ?_) (Splits.longer ?_ ?_)
  · exact splits_digits.andThen (splits_one.andThen (splits_digits.optional.andThen htail))
  · exact splits_one.andThen (splits_digits.andThen htail)
  · exact splits_plainDecimal.andThen (splits_exponent.andThen splits_one.optional)
  · exact splits_plainDecimal.andThen (splits_exponent.optional.andThen splits_one)

theorem takes_decimalFloating : Takes decimalFloating :=
  (takes_digits.andThen.longer takes_one.andThen).longer
    (takes_plainDecimal.andThen.longer takes_plainDecimal.andThen)

theorem splits_hexFloating : Splits hexFloating := by
  have htail : Splits (optional binaryExponent) := splits_binaryExponent.optional
  refine Splits.longer ?_ ?_
  · exact splits_hexMark.andThen (splits_digits.andThen (splits_one.optional.andThen htail))
  · exact splits_hexMark.andThen
      (splits_digits.optional.andThen (splits_one.andThen (splits_digits.andThen htail)))

/-- Every kind of number has a scan that splits the text and takes some of it. -/
theorem splits_takes_of_mem_numbers {kind : String} {s : Scan} (h : (kind, s) ∈ numbers) :
    Splits s ∧ Takes s := by
  have hhex : Takes hexMark := takes_one.andThen
  simp only [numbers, List.mem_cons, Prod.mk.injEq, List.not_mem_nil, or_false] at h
  rcases h with ⟨-, rfl⟩ | ⟨-, rfl⟩ | ⟨-, rfl⟩ | ⟨-, rfl⟩ | ⟨-, rfl⟩ | ⟨-, rfl⟩
  · exact ⟨splits_plainDecimal.andThen splits_longMark, takes_plainDecimal.andThen⟩
  · exact ⟨splits_hexMark.andThen (splits_digits.andThen splits_longMark), hhex.andThen⟩
  · exact ⟨splits_octalInteger, takes_one.andThen.longer takes_one.andThen⟩
  · exact ⟨splits_one.andThen (splits_one.andThen (splits_digits.andThen splits_longMark)),
      takes_one.andThen⟩
  · exact ⟨splits_decimalFloating, takes_decimalFloating⟩
  · exact ⟨splits_hexFloating, hhex.andThen.longer hhex.andThen⟩

/-- A number is taken by the scan of its kind. -/
theorem exists_scan_of_number {cs x rest : List Char} {kind : String} (h : number cs = some (kind, x, rest)) :
    ∃ s, (kind, s) ∈ numbers ∧ s cs = some (x, rest) := by
  -- the best number so far was taken by one of the scans
  refine List.foldlRecOn (motive := fun best => ∀ kind x rest, best = some (kind, x, rest) →
    ∃ s, (kind, s) ∈ numbers ∧ s cs = some (x, rest)) numbers _ (by simp) ?_ kind x rest h
  intro best hbest ⟨kind', s⟩ hmem kind x rest he
  have htaken : ∀ r, s cs = some r → some (kind', r) = some (kind, x, rest) →
      ∃ s, (kind, s) ∈ numbers ∧ s cs = some (x, rest) := by
    intro r hs he
    obtain ⟨rfl, rfl⟩ : kind' = kind ∧ r = (x, rest) := by simpa using he
    exact ⟨s, hmem, hs⟩
  simp only at he
  split at he
  · exact htaken _ ‹_› he
  · split at he
    · exact htaken _ ‹_› he
    · exact hbest kind x rest he
  · exact hbest kind x rest he

/-- **A number** is a beginning of the text. -/
theorem number_spec {cs x rest : List Char} {kind : String}
    (h : number cs = some (kind, x, rest)) : x ++ rest = cs ∧ x ≠ [] := by
  obtain ⟨s, hmem, hs⟩ := exists_scan_of_number h
  obtain ⟨hsplits, htakes⟩ := splits_takes_of_mem_numbers hmem
  exact ⟨hsplits hs, htakes hs⟩

/-! ## Literals -/

theorem push_eq_some {c : Char} {r : Option (List Char × List Char)} {x rest : List Char}
    (h : push c r = some (x, rest)) : ∃ y, r = some (y, rest) ∧ x = c :: y := by
  obtain ⟨⟨y, rest'⟩, hr, he⟩ := Option.map_eq_some_iff.mp h
  obtain ⟨rfl, rfl⟩ : c :: y = x ∧ rest' = rest := by simpa using he
  exact ⟨y, hr, rfl⟩

theorem pushAll_eq_some {cs : List Char} {r : Option (List Char × List Char × StringEnd)}
    {x rest : List Char} {e : StringEnd} (h : pushAll cs r = some (x, rest, e)) :
    ∃ y, r = some (y, rest, e) ∧ x = cs ++ y := by
  obtain ⟨⟨y, rest', e'⟩, hr, he⟩ := Option.map_eq_some_iff.mp h
  obtain ⟨rfl, rfl, rfl⟩ : cs ++ y = x ∧ rest' = rest ∧ e' = e := by simpa using he
  exact ⟨y, hr, rfl⟩

theorem append_of_charBody {cs x rest : List Char} (h : charBody cs = some (x, rest)) :
    x ++ rest = cs := by
  fun_induction charBody cs generalizing x rest with
  | case1 => exact absurd h (by simp)
  | case2 cs =>
      obtain ⟨rfl, rfl⟩ := by simpa using h
      rfl
  | case3 c cs ih =>
      obtain ⟨y, hy, rfl⟩ := push_eq_some h
      obtain ⟨z, hz, rfl⟩ := push_eq_some hy
      rw [List.cons_append, List.cons_append, ih hz]
  | case4 => exact absurd h (by simp)
  | case5 c cs _ _ _ ih =>
      obtain ⟨y, hy, rfl⟩ := push_eq_some h
      rw [List.cons_append, ih hy]

theorem append_of_stringBody {cs x rest : List Char} {e : StringEnd}
    (h : stringBody cs = some (x, rest, e)) : x ++ rest = cs := by
  fun_induction stringBody cs generalizing x rest with
  | case1 => exact absurd h (by simp)
  | case2 cs =>
      obtain ⟨rfl, rfl, -⟩ := by simpa using h
      rfl
  | case3 cs =>
      obtain ⟨rfl, rfl, -⟩ := by simpa using h
      rfl
  | case4 c cs _ _ ih =>
      obtain ⟨y, hy, rfl⟩ := pushAll_eq_some h
      rw [List.append_assoc, ih hy]
      rfl
  | case5 => exact absurd h (by simp)
  | case6 => exact absurd h (by simp)
  | case7 c cs _ _ _ _ ih =>
      obtain ⟨y, hy, rfl⟩ := pushAll_eq_some h
      rw [List.append_assoc, ih hy]
      rfl

theorem append_of_blockBody {cs x rest : List Char} {e : StringEnd}
    (h : blockBody cs = some (x, rest, e)) : x ++ rest = cs := by
  fun_induction blockBody cs generalizing x rest with
  | case1 => exact absurd h (by simp)
  | case2 cs =>
      obtain ⟨rfl, rfl, -⟩ := by simpa using h
      rfl
  | case3 cs =>
      obtain ⟨rfl, rfl, -⟩ := by simpa using h
      rfl
  | case4 c cs _ ih =>
      obtain ⟨y, hy, rfl⟩ := pushAll_eq_some h
      rw [List.append_assoc, ih hy]
      rfl
  | case5 => exact absurd h (by simp)
  | case6 c cs _ _ _ _ ih =>
      obtain ⟨y, hy, rfl⟩ := pushAll_eq_some h
      rw [List.append_assoc, ih hy]
      rfl

/-! ## Trivia -/

/-- **Blanks and comments** are a beginning of the text. -/
theorem append_of_trivia {state : TriviaState} {cs x rest : List Char}
    (h : trivia state cs = some (x, rest)) : x ++ rest = cs := by
  fun_induction trivia state cs generalizing x rest with
  | case1 =>
      obtain ⟨rfl, rfl⟩ := by simpa using h
      rfl
  | case2 =>
      obtain ⟨rfl, rfl⟩ := by simpa using h
      rfl
  | case3 => exact absurd h (by simp)
  | case4 => exact absurd h (by simp)
  | case5 cs ih =>
      obtain ⟨y, hy, rfl⟩ := push_eq_some h
      obtain ⟨z, hz, rfl⟩ := push_eq_some hy
      rw [List.cons_append, List.cons_append, ih hz]
  | case6 cs ih =>
      obtain ⟨y, hy, rfl⟩ := push_eq_some h
      obtain ⟨z, hz, rfl⟩ := push_eq_some hy
      rw [List.cons_append, List.cons_append, ih hz]
  | case7 c cs _ _ _ ih =>
      obtain ⟨y, hy, rfl⟩ := push_eq_some h
      rw [List.cons_append, ih hy]
  | case8 c cs =>
      obtain ⟨rfl, rfl⟩ := by simpa using h
      rfl
  | case9 c cs ih =>
      obtain ⟨y, hy, rfl⟩ := push_eq_some h
      rw [List.cons_append, ih hy]
  | case10 c cs ih =>
      obtain ⟨y, hy, rfl⟩ := push_eq_some h
      rw [List.cons_append, ih hy]
  | case11 c cs ih =>
      obtain ⟨y, hy, rfl⟩ := push_eq_some h
      rw [List.cons_append, ih hy]

/-- **Where there is no slash** there is no comment, only blanks. -/
theorem isBlank_of_trivia {state : TriviaState} {cs x rest : List Char} (hstate : state = .blank)
    (h : trivia state cs = some (x, rest)) (hslash : '/' ∉ x) : ∀ c ∈ x, Text.isBlank c = true := by
  fun_induction trivia state cs generalizing x rest with
  | case1 =>
      obtain ⟨rfl, rfl⟩ := by simpa using h
      simp
  | case5 cs ih =>
      obtain ⟨y, -, rfl⟩ := push_eq_some h
      exact absurd (List.mem_cons_self ..) hslash
  | case6 cs ih =>
      obtain ⟨y, -, rfl⟩ := push_eq_some h
      exact absurd (List.mem_cons_self ..) hslash
  | case7 c cs _ _ hblank ih =>
      obtain ⟨y, hy, rfl⟩ := push_eq_some h
      intro d hd
      rcases List.mem_cons.mp hd with rfl | hd
      · exact hblank
      · exact ih rfl hy (fun hmem => hslash (List.mem_cons_of_mem c hmem)) d hd
  | case8 c cs =>
      obtain ⟨rfl, rfl⟩ := by simpa using h
      simp
  | _ => exact absurd hstate (by simp)

/-- Trivia ends where no blank follows. -/
theorem head_of_trivia {state : TriviaState} {cs x rest : List Char} (h : trivia state cs = some (x, rest)) :
    ∀ c ∈ rest.head?, Text.isBlank c = false := by
  fun_induction trivia state cs generalizing x rest with
  | case1 | case2 =>
      obtain ⟨rfl, rfl⟩ := by simpa using h
      simp
  | case3 | case4 => exact absurd h (by simp)
  | case5 cs ih | case6 cs ih =>
      obtain ⟨y, hy, rfl⟩ := push_eq_some h
      obtain ⟨z, hz, rfl⟩ := push_eq_some hy
      exact ih hz
  | case7 c cs _ _ _ ih | case9 c cs ih | case10 c cs ih | case11 c cs ih =>
      obtain ⟨y, hy, rfl⟩ := push_eq_some h
      exact ih hy
  | case8 c cs _ _ hblank =>
      obtain ⟨rfl, rfl⟩ := by simpa using h
      simpa using hblank

end JavaRefactor.Java.Scan

import JavaRefactor.Proofs.Java.Nested
import Mathlib.Data.List.Basic

/-!
# `Proofs.Java.Words` — no word is cut

Lexemes and the trivia between them cut a text into pieces. A word is read up to its end; a literal, and a comment, end in
a character of no word; and where a number ends in front of a word, it has no underscore at its end. So a word that starts
with underscores and a letter is never cut: it is in one piece, wherever it starts.

## Contents
- **Characters.** `isWordChar`, and `EndsApart`, texts that end in no such character.
- **`Joined`**, texts in which a digit or another underscore is behind every underscore; `joined_of_number`.
- **`Parted`**, texts behind which no word goes on, **`Compact`**, words that are not cut there, and `Parted.ends_in`.
- **`Lexeme.Apart`**, what this says of one lexeme, and **`apartAll_of_ofText?`**.
- **`exists_lexeme_of_compact`** and **`CoversAll.exists_of_compact`**: the lexeme, and the node, with a word in it.
-/

namespace JavaRefactor.Java

open Lexeme (spelling Laid)
open Syntax (Node)
open Text (byteLength)

/-! ## Characters -/

/-- A letter, a digit or an underscore. -/
def isWordChar (c : Char) : Bool := c.isAlphanum || c == '_'

theorem toNat_of_isWordChar {c : Char} (h : isWordChar c = true) :
    48 ≤ c.toNat ∧ c.toNat ≤ 57 ∨ 65 ≤ c.toNat ∧ c.toNat ≤ 90 ∨ c.toNat = 95 ∨ 97 ≤ c.toNat ∧ c.toNat ≤ 122 := by
  unfold isWordChar Char.isAlphanum Char.isAlpha Char.isUpper Char.isLower Char.isDigit at h
  simp only [Bool.or_eq_true, Bool.and_eq_true, decide_eq_true_eq, beq_iff_eq, ge_iff_le,
    UInt32.le_iff_toNat_le] at h
  have hval : c.toNat = c.val.toNat := rfl
  rcases h with ((h | h) | h) | rfl
  · exact Or.inr (Or.inl h)
  · exact Or.inr (Or.inr (Or.inr h))
  · exact Or.inl h
  · decide

/-- A name may go on with any of them. -/
theorem isNamePart_of_isWordChar {c : Char} (h : isWordChar c = true) : Text.isNamePart c = true := by
  have hlow : c.toNat < 128 := by
    have := toNat_of_isWordChar h
    omega
  unfold isWordChar at h
  unfold Text.isNamePart
  rw [if_pos hlow, h, Bool.true_or]

theorem isWordChar_of_isBlank {c : Char} (h : Text.isBlank c = true) : isWordChar c = false := by
  rw [Bool.eq_false_iff]
  intro hword
  have hrange := toNat_of_isWordChar hword
  unfold Text.isBlank at h
  simp only [Bool.or_eq_true, Bool.and_eq_true, decide_eq_true_eq, beq_iff_eq] at h
  omega

/-- The last character is no character of a word. -/
def EndsApart (cs : List Char) : Prop := ∃ c ∈ cs.getLast?, isWordChar c = false

theorem EndsApart.append {ys : List Char} (h : EndsApart ys) (xs : List Char) : EndsApart (xs ++ ys) := by
  obtain ⟨c, hc, hapart⟩ := h
  refine ⟨c, ?_, hapart⟩
  rw [List.getLast?_append, Option.mem_def.mp hc]
  rfl

theorem endsApart_singleton {c : Char} (h : isWordChar c = false) : EndsApart [c] := ⟨c, rfl, h⟩

/-- One character more in front of a text that is empty or ends in no character of a word. -/
theorem endsApart_cons {c : Char} {cs : List Char} (h : cs = [] → isWordChar c = false)
    (hcs : cs = [] ∨ EndsApart cs) : EndsApart (c :: cs) := by
  rcases hcs with rfl | hcs
  · exact endsApart_singleton (h rfl)
  · exact hcs.append [c]

/-! ## Joined texts -/

/-- Behind every underscore there is a digit of some kind or another underscore. -/
def Joined (cs : List Char) : Prop :=
  ∀ front rest, cs = front ++ '_' :: rest → ∃ c ∈ rest.head?, c = '_' ∨ Scan.isHex c = true

theorem joined_of_not_mem {cs : List Char} (h : '_' ∉ cs) : Joined cs := by
  rintro front rest rfl
  exact absurd (List.mem_append_right front (List.mem_cons_self ..)) h

theorem joined_nil : Joined [] := joined_of_not_mem List.not_mem_nil

theorem Joined.cons {c : Char} {cs : List Char} (h : Joined cs)
    (hc : c = '_' → ∃ d ∈ cs.head?, d = '_' ∨ Scan.isHex d = true) : Joined (c :: cs) := by
  intro front rest heq
  cases front with
  | nil =>
      obtain ⟨rfl, rfl⟩ := List.cons.inj heq
      exact hc rfl
  | cons d front =>
      obtain ⟨-, rfl⟩ := List.cons.inj heq
      exact h front rest rfl

theorem Joined.append {xs ys : List Char} (hx : Joined xs) (hy : Joined ys) : Joined (xs ++ ys) := by
  induction xs with
  | nil => exact hy
  | cons c xs ih =>
      have hxs : Joined xs := by
        rintro front rest rfl
        exact hx (c :: front) rest rfl
      refine (ih hxs).cons ?_
      rintro rfl
      obtain ⟨d, hd, hgood⟩ := hx [] xs rfl
      refine ⟨d, ?_, hgood⟩
      rw [List.head?_append, Option.mem_def.mp hd]
      rfl

theorem Joined.of_append {front cs : List Char} (h : Joined (front ++ cs)) : Joined cs := by
  rintro before rest rfl
  exact h (front ++ before) rest (List.append_assoc ..).symm

namespace Scan

/-- What is taken is joined. -/
def Joins (s : Scan) : Prop := ∀ ⦃cs x rest⦄, s cs = some (x, rest) → Joined x

variable {a b : Scan} {p : Char → Bool}

theorem joins_one (h : p '_' = false) : Joins (one p) := by
  intro cs x rest hs
  obtain ⟨c, rfl, rfl⟩ := one_eq_some hs
  refine joined_of_not_mem ?_
  intro hmem
  obtain rfl := List.mem_singleton.mp hmem
  rw [one, h] at hs
  exact absurd hs (by simp)

theorem Joins.andThen (ha : Joins a) (hb : Joins b) : Joins (andThen a b) := by
  intro cs x rest h
  obtain ⟨y, mid, z, hy, hz, rfl⟩ := andThen_eq_some h
  exact (ha hy).append (hb hz)

theorem Joins.optional (ha : Joins a) : Joins (optional a) := by
  intro cs x rest h
  unfold Scan.optional at h
  cases hs : a cs with
  | none =>
      rw [hs] at h
      obtain ⟨rfl, rfl⟩ : [] = x ∧ cs = rest := by simpa using h
      exact joined_nil
  | some r =>
      rw [hs] at h
      exact ha (hs.trans h)

theorem Joins.longer (ha : Joins a) (hb : Joins b) : Joins (longer a b) := by
  intro cs x rest h
  rcases of_longer h with h | h
  · exact ha h
  · exact hb h

/-- Where digits go on behind an underscore, they start with a digit or another underscore. -/
theorem head_digitTail {many : Bool} {cs : List Char} (h : goesOn p many cs = true) :
    ∃ c ∈ (digitTail p many cs).1.head?, c = '_' ∨ p c = true := by
  cases cs with
  | nil => cases many <;> exact absurd h (by simp [goesOn])
  | cons c cs =>
      by_cases hc : p c = true
      · refine ⟨c, ?_, Or.inr hc⟩
        rw [digitTail, hc, Bool.true_or, if_pos rfl]
        rfl
      · cases many with
        | false => exact absurd h hc
        | true =>
            by_cases hunder : c = '_'
            · subst hunder
              have hrest : goesOn p true cs = true := by simpa [goesOn] using h
              refine ⟨'_', ?_, Or.inl rfl⟩
              rw [digitTail, hrest, beq_self_eq_true, Bool.and_self, Bool.or_true, if_pos rfl]
              rfl
            · have hstart : p c = true := by simpa [goesOn, hunder] using h
              exact absurd hstart hc

section

variable (hp : ∀ c, p c = true → isHex c = true)
include hp

theorem joined_digitTail (many : Bool) (cs : List Char) : Joined (digitTail p many cs).1 := by
  have hunder : isHex '_' = false := rfl
  induction cs with
  | nil => exact joined_nil
  | cons c cs ih =>
      unfold digitTail
      split
      · rename_i hc
        refine ih.cons ?_
        rintro rfl
        have hnone : p '_' = false := by
          rw [Bool.eq_false_iff]
          intro hdigit
          rw [hp '_' hdigit] at hunder
          exact absurd hunder (by simp)
        rw [hnone, Bool.false_or, beq_self_eq_true, Bool.true_and] at hc
        obtain ⟨d, hd, hgood⟩ := head_digitTail hc
        exact ⟨d, hd, hgood.imp_right (hp d)⟩
      · exact joined_nil

theorem joins_digits : Joins (digits p) := by
  intro cs x rest h
  unfold digits at h
  split at h
  · split at h
    · have htail := joined_digitTail hp false
      rename_i c cs _
      have hx := htail (c :: cs)
      rw [Option.some.inj h] at hx
      exact hx
    · exact absurd h (by simp)
  · exact absurd h (by simp)

end

theorem isHex_of_isDecimal (c : Char) (h : isDecimal c = true) : isHex c = true := by
  unfold isDecimal at h
  unfold isHex
  rw [h, Bool.true_or]

theorem isHex_of_isOctal (c : Char) (h : isOctal c = true) : isHex c = true := by
  refine isHex_of_isDecimal c ?_
  unfold isOctal at h
  unfold isDecimal Char.isDigit
  simp only [Bool.and_eq_true, decide_eq_true_eq, ge_iff_le] at h ⊢
  exact ⟨h.1, Nat.le_trans h.2 (by decide)⟩

theorem isHex_of_isBinary (c : Char) (h : isBinary c = true) : isHex c = true := by
  unfold isBinary at h
  rcases (Bool.or_eq_true _ _).mp h with h | h
  · rw [beq_iff_eq.mp h]
    rfl
  · rw [beq_iff_eq.mp h]
    rfl

theorem joins_plainDecimal : Joins plainDecimal := by
  have htail := joined_digitTail isHex_of_isDecimal true
  have hfirst : ∀ d ds, isDecimal d = true → ∃ c ∈ (digitTail isDecimal true (d :: ds)).1.head?,
      c = '_' ∨ isHex c = true := by
    intro d ds hd
    refine ⟨d, ?_, Or.inr (isHex_of_isDecimal d hd)⟩
    rw [digitTail, hd, Bool.true_or, if_pos rfl]
    rfl
  have hdigit : ∀ c, isDecimal c = true → ∀ cs, Joined cs → Joined (c :: cs) := by
    intro c hc cs hcs
    refine hcs.cons ?_
    rintro rfl
    exact absurd hc (by decide)
  intro cs x rest h
  unfold plainDecimal at h
  split at h
  · obtain ⟨rfl, rfl⟩ := by simpa using h
    exact hdigit '0' rfl [] joined_nil
  · split at h
    · rename_i hc
      split at h
      · split at h
        · rename_i d ds hd
          obtain ⟨rfl, rfl⟩ := by simpa using h
          exact hdigit _ hc _ ((htail (d :: ds)).cons fun _ => hfirst d ds hd)
        · obtain ⟨rfl, rfl⟩ := by simpa using h
          exact hdigit _ hc _ joined_nil
      · split at h
        · obtain ⟨rfl, rfl⟩ := by simpa using h
          exact hdigit _ hc _ (htail _)
        · obtain ⟨rfl, rfl⟩ := by simpa using h
          exact hdigit _ hc _ joined_nil
      · obtain ⟨rfl, rfl⟩ := by simpa using h
        exact hdigit _ hc _ joined_nil
    · exact absurd h (by simp)
  · exact absurd h (by simp)

/-- One of some characters that are no underscores. -/
theorem joins_oneOf {allowed : List Char} (h : '_' ∉ allowed) : Joins (oneOf allowed) :=
  joins_one (by simpa using h)

theorem joins_longMark : Joins longMark := (joins_oneOf (by simp)).optional

theorem joins_floatMark : Joins floatMark := joins_oneOf (by simp)

theorem joins_exponent : Joins exponent :=
  (joins_oneOf (by simp)).andThen
    ((joins_oneOf (by simp)).optional.andThen (joins_digits isHex_of_isDecimal))

theorem joins_binaryExponent : Joins binaryExponent :=
  (joins_oneOf (by simp)).andThen
    ((joins_oneOf (by simp)).optional.andThen (joins_plainDecimal.andThen joins_floatMark.optional))

theorem joins_hexMark : Joins hexMark :=
  (joins_oneOf (by simp)).andThen (joins_oneOf (by simp))

theorem joins_octalInteger : Joins octalInteger := by
  have hzero : Joins (oneOf ['0']) := joins_oneOf (by simp)
  have hdigits : Joins (andThen (digits isOctal) longMark) := (joins_digits isHex_of_isOctal).andThen joins_longMark
  exact (hzero.andThen hdigits).longer (hzero.andThen ((joins_oneOf (by simp)).andThen hdigits))

theorem joins_decimalFloating : Joins decimalFloating := by
  have hdigits : Joins (digits isDecimal) := joins_digits isHex_of_isDecimal
  have hpoint : Joins (oneOf ['.']) := joins_oneOf (by simp)
  have htail : Joins (andThen (optional exponent) (optional floatMark)) :=
    joins_exponent.optional.andThen joins_floatMark.optional
  refine Joins.longer (Joins.longer ?_ ?_) (Joins.longer ?_ ?_)
  · exact hdigits.andThen (hpoint.andThen (hdigits.optional.andThen htail))
  · exact hpoint.andThen (hdigits.andThen htail)
  · exact joins_plainDecimal.andThen (joins_exponent.andThen joins_floatMark.optional)
  · exact joins_plainDecimal.andThen (joins_exponent.optional.andThen joins_floatMark)

theorem joins_hexFloating : Joins hexFloating := by
  have hdigits : Joins (digits isHex) := joins_digits fun _ h => h
  have hpoint : Joins (oneOf ['.']) := joins_oneOf (by simp)
  refine Joins.longer ?_ ?_
  · exact joins_hexMark.andThen (hdigits.andThen (hpoint.optional.andThen joins_binaryExponent.optional))
  · exact joins_hexMark.andThen
      (hdigits.optional.andThen (hpoint.andThen (hdigits.andThen joins_binaryExponent.optional)))

theorem joins_of_mem_numbers {kind : String} {s : Scan} (h : (kind, s) ∈ numbers) : Joins s := by
  simp only [numbers, List.mem_cons, Prod.mk.injEq, List.not_mem_nil, or_false] at h
  rcases h with ⟨-, rfl⟩ | ⟨-, rfl⟩ | ⟨-, rfl⟩ | ⟨-, rfl⟩ | ⟨-, rfl⟩ | ⟨-, rfl⟩
  · exact joins_plainDecimal.andThen joins_longMark
  · exact joins_hexMark.andThen ((joins_digits fun _ h => h).andThen joins_longMark)
  · exact joins_octalInteger
  · exact (joins_oneOf (by simp)).andThen ((joins_oneOf (by simp)).andThen
      ((joins_digits isHex_of_isBinary).andThen joins_longMark))
  · exact joins_decimalFloating
  · exact joins_hexFloating

/-- **A number** is joined. -/
theorem joined_of_number {cs x rest : List Char} {kind : String} (h : number cs = some (kind, x, rest)) :
    Joined x := by
  obtain ⟨s, hmem, hs⟩ := exists_scan_of_number h
  exact joins_of_mem_numbers hmem hs

/-! ## Literals and trivia -/

theorem endsApart_of_charBody {cs x rest : List Char} (h : charBody cs = some (x, rest)) : EndsApart x := by
  fun_induction charBody cs generalizing x rest with
  | case1 => exact absurd h (by simp)
  | case2 cs =>
      obtain ⟨rfl, rfl⟩ := by simpa using h
      exact endsApart_singleton rfl
  | case3 c cs ih =>
      obtain ⟨y, hy, rfl⟩ := push_eq_some h
      obtain ⟨z, hz, rfl⟩ := push_eq_some hy
      exact (ih hz).append ['\\', c]
  | case4 => exact absurd h (by simp)
  | case5 c cs _ _ _ ih =>
      obtain ⟨y, hy, rfl⟩ := push_eq_some h
      exact (ih hy).append [c]

theorem endsApart_of_stringBody {cs x rest : List Char} {e : StringEnd}
    (h : stringBody cs = some (x, rest, e)) : EndsApart x := by
  fun_induction stringBody cs generalizing x rest with
  | case1 => exact absurd h (by simp)
  | case2 cs =>
      obtain ⟨rfl, rfl, -⟩ := by simpa using h
      exact endsApart_singleton rfl
  | case3 cs =>
      obtain ⟨rfl, rfl, -⟩ := by simpa using h
      exact (endsApart_singleton rfl).append ['\\']
  | case4 c cs _ _ ih =>
      obtain ⟨y, hy, rfl⟩ := pushAll_eq_some h
      exact (ih hy).append _
  | case5 => exact absurd h (by simp)
  | case6 => exact absurd h (by simp)
  | case7 c cs _ _ _ _ ih =>
      obtain ⟨y, hy, rfl⟩ := pushAll_eq_some h
      exact (ih hy).append _

theorem endsApart_of_blockBody {cs x rest : List Char} {e : StringEnd}
    (h : blockBody cs = some (x, rest, e)) : EndsApart x := by
  fun_induction blockBody cs generalizing x rest with
  | case1 => exact absurd h (by simp)
  | case2 cs =>
      obtain ⟨rfl, rfl, -⟩ := by simpa using h
      exact (endsApart_singleton rfl).append ['"', '"']
  | case3 cs =>
      obtain ⟨rfl, rfl, -⟩ := by simpa using h
      exact (endsApart_singleton rfl).append ['\\']
  | case4 c cs _ ih =>
      obtain ⟨y, hy, rfl⟩ := pushAll_eq_some h
      exact (ih hy).append _
  | case5 => exact absurd h (by simp)
  | case6 c cs _ _ _ _ ih =>
      obtain ⟨y, hy, rfl⟩ := pushAll_eq_some h
      exact (ih hy).append _

/-- **Trivia in front of a lexeme** ends in a blank or with a comment, and in a comment it does not end at once. -/
theorem endsApart_of_trivia {state : TriviaState} {cs x rest : List Char} (h : trivia state cs = some (x, rest))
    (hrest : rest ≠ []) : (x = [] ∨ EndsApart x) ∧ (x = [] → state = .blank) := by
  have hslash : isWordChar '/' = false := rfl
  fun_induction trivia state cs generalizing x rest with
  | case1 | case2 =>
      obtain ⟨-, rfl⟩ := by simpa using h
      exact absurd rfl hrest
  | case3 | case4 => exact absurd h (by simp)
  | case5 cs ih | case6 cs ih =>
      obtain ⟨y, hy, rfl⟩ := push_eq_some h
      obtain ⟨z, hz, rfl⟩ := push_eq_some hy
      obtain ⟨hends, hnext⟩ := ih hz hrest
      refine ⟨Or.inr (endsApart_cons (by simp) (Or.inr (endsApart_cons ?_ hends))), by simp⟩
      intro hnil
      exact absurd (hnext hnil) (by simp)
  | case7 c cs _ _ hblank ih =>
      obtain ⟨y, hy, rfl⟩ := push_eq_some h
      exact ⟨Or.inr (endsApart_cons (fun _ => isWordChar_of_isBlank hblank) (ih hy hrest).1), by simp⟩
  | case8 c cs =>
      obtain ⟨rfl, rfl⟩ := by simpa using h
      exact ⟨Or.inl rfl, fun _ => rfl⟩
  | case9 c cs ih =>
      obtain ⟨y, hy, rfl⟩ := push_eq_some h
      obtain ⟨hends, hnext⟩ := ih hy hrest
      refine ⟨Or.inr (endsApart_cons ?_ hends), by simp⟩
      -- a comment up to the end of the line ends behind the line break
      intro hnil
      by_cases hc : c = '\n'
      · subst hc
        rfl
      · have := hnext hnil
        simp [hc] at this
  | case10 c cs ih =>
      obtain ⟨y, hy, rfl⟩ := push_eq_some h
      obtain ⟨hends, hnext⟩ := ih hy hrest
      refine ⟨Or.inr (endsApart_cons ?_ hends), by simp⟩
      intro hnil
      have := hnext hnil
      split at this <;> exact absurd this (by simp)
  | case11 c cs ih =>
      obtain ⟨y, hy, rfl⟩ := push_eq_some h
      obtain ⟨hends, hnext⟩ := ih hy hrest
      refine ⟨Or.inr (endsApart_cons ?_ hends), by simp⟩
      -- a bracketed comment ends with a slash
      intro hnil
      by_cases hc : c = '/'
      · rw [hc]
        exact hslash
      · have := hnext hnil
        by_cases hstar : c = '*'
        · simp [hstar] at this
        · simp [hc, hstar] at this

end Scan

/-! ## Where words end -/

/-- No word goes on behind a text: the text ends in no character of a word, or no such character follows, or the text is
    joined. -/
def Parted (cs next : List Char) : Prop :=
  EndsApart cs ∨ (∀ c ∈ next.head?, isWordChar c = false) ∨ Joined cs

/-- A word that no joined text ends in the middle of. -/
structure Compact (word : List Char) : Prop where
  ne_nil : word ≠ []
  chars : ∀ c ∈ word, isWordChar c = true
  apart : ∀ front rest, word = front ++ rest → front ≠ [] → rest ≠ [] → ¬Joined front

/-- **A word that starts in a text** ends in it, if no word goes on behind the text. -/
theorem Parted.ends_in {cs next word front behind : List Char} (h : Parted cs next) (hword : Compact word)
    (htext : cs ++ next = front ++ (word ++ behind)) (hstart : byteLength front < byteLength cs) :
    byteLength front + byteLength word ≤ byteLength cs := by
  by_contra hover
  obtain ⟨part, rfl, hrest⟩ := Text.append_inv htext.symm (Nat.le_of_lt hstart)
  rw [Text.byteLength_append] at hover hstart
  obtain ⟨more, rfl, hnext⟩ := Text.append_inv hrest.symm (by omega)
  have hpart : part ≠ [] := by
    rintro rfl
    simp at hstart
  have hmore : more ≠ [] := by
    rintro rfl
    simp at hover
  rcases h with ⟨c, hc, hapart⟩ | hhead | hjoined
  · rw [List.getLast?_append_of_ne_nil _ hpart] at hc
    have hchar := hword.chars c (List.mem_append_left _ (List.mem_of_getLast? hc))
    rw [hapart] at hchar
    exact absurd hchar (by simp)
  · obtain ⟨d, more, rfl⟩ := List.exists_cons_of_ne_nil hmore
    have hchar := hword.chars d (List.mem_append_right _ (List.mem_cons_self ..))
    rw [hhead d (by rw [hnext]; rfl)] at hchar
    exact absurd hchar (by simp)
  · exact hword.apart part more rfl hpart hmore hjoined.of_append

/-- Two underscores and then a character that is neither one nor a digit start a word that is never cut. -/
theorem compact_of_underscores {c : Char} {rest : List Char} (hc : c ≠ '_') (hhex : Scan.isHex c = false)
    (hall : ∀ d ∈ '_' :: '_' :: c :: rest, isWordChar d = true) : Compact ('_' :: '_' :: c :: rest) := by
  refine ⟨by simp, hall, fun front more hword hfront _ hjoined => ?_⟩
  -- the first underscore asks for the second one, and that for a digit
  obtain ⟨x, xs, rfl⟩ := List.exists_cons_of_ne_nil hfront
  obtain ⟨rfl, hsecond⟩ := List.cons.inj hword
  obtain ⟨y, hy, -⟩ := hjoined [] xs rfl
  obtain ⟨ys, rfl⟩ := List.head?_eq_some_iff.mp hy
  obtain ⟨rfl, hthird⟩ := List.cons.inj hsecond
  obtain ⟨z, hz, hgood⟩ := hjoined ['_'] ys rfl
  obtain ⟨zs, rfl⟩ := List.head?_eq_some_iff.mp hz
  obtain ⟨rfl, -⟩ := List.cons.inj hthird
  rcases hgood with rfl | hgood
  · exact hc rfl
  · rw [hhex] at hgood
    exact absurd hgood (by simp)

namespace Lexeme

/-! ## Lexemes -/

/-- No word goes on behind the trivia in front of a lexeme, and none behind the lexeme itself, which `next` follows; and
    what is no word does not start as one. -/
structure Apart (l : Lexeme) (next : List Char) : Prop where
  trivia : l.trivia.toList = [] ∨ EndsApart l.trivia.toList
  text : Parted l.text.toList next
  opens : l.form ≠ .word → ∀ c ∈ l.text.toList.head?, Text.isNameStart c = false

/-- This holds of every lexeme of some, which `next` follows. -/
def ApartAll : List Lexeme → List Char → Prop
  | [], _ => True
  | l :: ls, next => l.Apart (spelling ls ++ next) ∧ ApartAll ls next

theorem apartAll_append {ls ms : List Lexeme} {next : List Char} :
    ApartAll (ls ++ ms) next ↔ ApartAll ls (spelling ms ++ next) ∧ ApartAll ms next := by
  induction ls with
  | nil => exact ⟨fun h => ⟨trivial, h⟩, fun h => h.2⟩
  | cons l ls ih =>
      rw [List.cons_append, ApartAll, ApartAll, ih, spelling_append, List.append_assoc, and_assoc]

/-- A symbol has no underscore. -/
theorem joined_of_symbol? {cs x rest : List Char} (h : symbol? cs = some (x, rest)) : Joined x := by
  unfold symbol? at h
  split at h
  · rename_i s hs
    obtain ⟨rfl, rfl⟩ := by simpa using h
    have hlong : ∀ s ∈ longSymbols, '_' ∉ s.toList := by decide +kernel
    exact joined_of_not_mem (hlong s (List.mem_of_find?_eq_some hs))
  · exact Scan.joins_one (by decide +kernel) h

theorem endsApart_of_stringStep {opening cs : List Char} {block : Bool} {whole cut : Form} {nesting : Nesting}
    {s : Step} (h : stringStep opening block whole cut nesting cs = some s) : EndsApart s.text := by
  have hbody : ∀ x rest e, (if block then Scan.blockBody cs else Scan.stringBody cs) =
      some (x, rest, e) → EndsApart x := by
    intro x rest e hx
    split at hx
    · exact Scan.endsApart_of_blockBody hx
    · exact Scan.endsApart_of_stringBody hx
  unfold stringStep at h
  split at h
  · exact absurd h (by simp)
  · rename_i x rest hx
    obtain rfl := Option.some.inj h
    exact (hbody _ _ _ hx).append opening
  · rename_i x rest hx
    obtain rfl := Option.some.inj h
    exact (hbody _ _ _ hx).append opening

/-- **Behind one lexeme** no word goes on. -/
theorem parted_of_step {nesting : Nesting} {cs : List Char} {s : Step} (h : step nesting cs = some s) :
    Parted s.text s.rest := by
  unfold step at h
  split at h
  · exact absurd h (by simp)
  · exact Or.inl (endsApart_of_stringStep h)
  · exact Or.inl (endsApart_of_stringStep h)
  · exact absurd h (by simp)
  · obtain ⟨⟨x, rest⟩, hx, rfl⟩ := Option.map_eq_some_iff.mp h
    exact Or.inl ((Scan.endsApart_of_charBody hx).append ['\''])
  · rename_i c cs _ _ _ _
    split at h
    · rw [List.span_eq_takeWhile_dropWhile] at h
      obtain rfl := Option.some.inj h
      refine Or.inr (Or.inl ?_)
      intro d hd
      have hpart := Text.head_dropWhile Text.isNamePart cs d hd
      rw [Bool.eq_false_iff]
      intro hword
      rw [isNamePart_of_isWordChar hword] at hpart
      exact absurd hpart (by simp)
    · split at h
      · rename_i kind x rest hx
        obtain rfl := Option.some.inj h
        exact Or.inr (Or.inr (Scan.joined_of_number hx))
      · split at h
        · exact Or.inl (endsApart_of_stringStep h)
        · obtain ⟨⟨x, rest⟩, hx, rfl⟩ := Option.map_eq_some_iff.mp h
          exact Or.inr (Or.inr (joined_of_symbol? hx))

/-- **A lexeme that is no word** does not start as one. -/
theorem head_of_step {nesting : Nesting} {cs : List Char} {s : Step} (h : step nesting cs = some s)
    (hform : s.form ≠ .word) : ∀ c ∈ s.text.head?, Text.isNameStart c = false := by
  have hfront : ∀ c ∈ cs.head?, Text.isNameStart c = false := by
    have hdouble : Text.isNameStart '"' = false := rfl
    have hsingle : Text.isNameStart '\'' = false := rfl
    unfold step at h
    split at h
    · simp
    · simpa using hdouble
    · simpa using hdouble
    · simpa using hsingle
    · simpa using hsingle
    · split at h
      · obtain rfl := Option.some.inj h
        exact absurd rfl hform
      · rename_i hstart
        simpa using hstart
  obtain ⟨happend, hne⟩ := step_spec h
  obtain ⟨d, text, htext⟩ := List.exists_cons_of_ne_nil hne
  rw [htext] at happend ⊢
  rw [← happend] at hfront
  exact hfront

theorem apartAll_of_scan {fuel place : Nat} {nesting : Nesting} {cs : List Char} {ls : List Lexeme}
    {trailing : String} (h : scan fuel place nesting cs = some (ls, trailing)) : ApartAll ls trailing.toList := by
  induction fuel generalizing place nesting cs ls with
  | zero => exact absurd h (by simp [scan])
  | succ fuel ih =>
      unfold scan at h
      split at h
      · exact absurd h (by simp)
      · obtain ⟨rfl, -⟩ : [] = ls ∧ _ = trailing := by simpa using h
        exact trivial
      · rename_i tr c rest htr
        split at h
        · exact absurd h (by simp)
        · rename_i s hs
          simp only at h
          split at h
          · exact absurd h (by simp)
          · rename_i ls' trailing' hrest
            obtain ⟨rfl, rfl⟩ : _ = ls ∧ trailing' = trailing := by simpa using h
            refine ⟨⟨?_, ?_, ?_⟩, ih hrest⟩
            · rw [String.toList_ofList]
              exact (Scan.endsApart_of_trivia htr (by simp)).1
            · rw [String.toList_ofList, (scan_spec hrest).1]
              exact parted_of_step hs
            · rw [String.toList_ofList]
              exact head_of_step hs

/-- **In a text** no word goes on behind a lexeme or behind the trivia in front of one. -/
theorem apartAll_of_ofText? {s : String} {ls : List Lexeme} {trailing : String}
    (h : ofText? s = some (ls, trailing)) : ApartAll ls trailing.toList := by
  unfold ofText? at h
  split at h
  · obtain ⟨rfl, -⟩ : [] = ls ∧ "" = trailing := by simpa using h
    exact trivial
  · split at h
    · rename_i c cs _ hmark
      obtain ⟨⟨ls', trailing'⟩, hscan, hfront⟩ := Option.map_eq_some_iff.mp h
      have hapart := apartAll_of_scan hscan
      obtain rfl := beq_iff_eq.mp hmark
      cases ls' with
      | nil =>
          obtain ⟨rfl, -⟩ : [] = ls ∧ String.ofList [byteOrderMark] ++ trailing' = trailing := by
            simpa [prependTrivia] using hfront
          exact trivial
      | cons l ls' =>
          obtain ⟨rfl, rfl⟩ : { l with trivia := String.ofList [byteOrderMark] ++ l.trivia } :: ls' = ls ∧
              trailing' = trailing := by
            simpa [prependTrivia] using hfront
          obtain ⟨⟨htrivia, htext, hopens⟩, hrest⟩ := hapart
          refine ⟨⟨Or.inr ?_, htext, hopens⟩, hrest⟩
          rw [String.toList_append, String.toList_ofList]
          exact endsApart_cons (fun _ => rfl) htrivia
    · exact apartAll_of_scan h

end Lexeme

/-! ## Words in lexemes -/

/-- **The lexeme with a word in it**: a word is in the trivia in front of one lexeme, or in its text. -/
theorem exists_lexeme_of_compact {ls : List Lexeme} {next word front behind : List Char} {place : Nat}
    (hapart : Lexeme.ApartAll ls next) (hlaid : Laid place ls) (hword : Compact word)
    (htext : spelling ls ++ next = front ++ (word ++ behind))
    (hle : byteLength front + byteLength word ≤ byteLength (spelling ls)) :
    ∃ l ∈ ls,
      l.start ≤ place + byteLength front + byteLength l.trivia.toList ∧
        place + byteLength front + byteLength word ≤ l.start ∨
      l.start ≤ place + byteLength front ∧ place + byteLength front + byteLength word ≤ l.stop := by
  induction ls generalizing place front with
  | nil =>
      have hbyte := Text.byteLength_pos hword.ne_nil
      rw [Lexeme.spelling_nil, Text.byteLength_nil] at hle
      omega
  | cons l ls ih =>
      obtain ⟨hl, hls⟩ := hapart
      obtain ⟨hstart, -, hrest⟩ := hlaid
      have hstop := l.stop_eq
      rw [Lexeme.spelling_cons, List.append_assoc, List.append_assoc] at htext
      by_cases htrivia : byteLength front < byteLength l.trivia.toList
      · refine ⟨l, List.mem_cons_self .., Or.inl ?_⟩
        have hparted : Parted l.trivia.toList (l.text.toList ++ (spelling ls ++ next)) := by
          rcases hl.trivia with hnil | hends
          · rw [hnil] at htrivia
            exact absurd htrivia (by simp)
          · exact Or.inl hends
        have := hparted.ends_in hword htext htrivia
        omega
      · obtain ⟨front', rfl, hbehind⟩ := Text.append_inv htext (by omega)
        rw [Text.byteLength_append] at hle htrivia ⊢
        by_cases hin : byteLength front' < byteLength l.text.toList
        · refine ⟨l, List.mem_cons_self .., Or.inr ?_⟩
          have := hl.text.ends_in hword hbehind hin
          omega
        · obtain ⟨front'', rfl, hlater⟩ := Text.append_inv hbehind (by omega)
          rw [Lexeme.spelling_cons, Text.byteLength_append, Text.byteLength_append, Text.byteLength_append] at hle
          obtain ⟨k, hk, hplace⟩ := ih hls hrest hlater (by omega)
          refine ⟨k, List.mem_cons_of_mem l hk, ?_⟩
          rw [Text.byteLength_append]
          have hshift : l.stop + byteLength front'' =
              place + (byteLength l.trivia.toList + (byteLength l.text.toList + byteLength front'')) := by omega
          rwa [hshift] at hplace

/-- **The node with a word in it**: in the text of neighbouring nodes, a word is in the trivia in front of one of them, or
    in it. -/
theorem CoversAll.exists_of_compact {ns : List Node} {ls : List Lexeme} {next word front behind : List Char}
    {place : Nat} (h : CoversAll ls ns) (hapart : Lexeme.ApartAll ls next) (hlaid : Laid place ls)
    (hword : Compact word) (htext : spelling ls ++ next = front ++ (word ++ behind))
    (hle : byteLength front + byteLength word ≤ byteLength (spelling ls)) :
    ∃ n ∈ ns,
      n.span.start ≤ place + byteLength front + byteLength n.leading ∧
        place + byteLength front + byteLength word ≤ n.span.start ∨
      n.span.start ≤ place + byteLength front ∧ place + byteLength front + byteLength word ≤ n.span.stop := by
  obtain ⟨k, hk, hwhere⟩ := exists_lexeme_of_compact hapart hlaid hword htext hle
  obtain ⟨n, hn, hstop, ⟨hstart, hleading⟩ | hbehind⟩ := h.exists_of_mem hlaid hk
  · refine ⟨n, hn, ?_⟩
    rw [hstart, hleading]
    exact hwhere.imp_right fun hin => ⟨hin.1, Nat.le_trans hin.2 hstop⟩
  · have hkstop := k.stop_eq
    refine ⟨n, hn, Or.inr ?_⟩
    rcases hwhere with hwhere | hwhere
    · omega
    · omega

end JavaRefactor.Java

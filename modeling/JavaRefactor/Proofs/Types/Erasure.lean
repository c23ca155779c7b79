import JavaRefactor.Proofs.Text.Trimming
import JavaRefactor.Proofs.Types.Spelling
import JavaRefactor.Types.Constraint

/-!
# `Proofs.Types.Erasure` — what is read of the text of a type

Blanks and all that stands in angle brackets are dropped, pairs of square brackets are counted, and of a name with
qualifiers the last part counts. What is left is read as it is written: the text of an erased type has that type.

## Contents
- **Characters.** No blank goes on with a name; `isBlank_of_continuesSegment`.
- **Names.** `isQualified_iff`, and `lastSegment`, one of the parts of a name.
- **Erasure.** `outsideBrackets_filter` and `Erased.ofChars?_trim`: blanks make no difference.
- **Constraints.** `Erased.constraint`, `Constraint.parse?_eq_some_iff`, and **`Constraint.parse?_text`**: a constraint
  is read from its own text.
-/

namespace JavaRefactor.Types

open Text (isBlank isAlphabetic isAlphanumeric trimStart trimEnd)

/-! ## Characters -/

/-- The code points of blanks. -/
def blankPoints : List Nat :=
  [9, 10, 11, 12, 13, 32, 0x85, 0xA0, 0x1680, 0x2000, 0x2001, 0x2002, 0x2003, 0x2004, 0x2005, 0x2006, 0x2007, 0x2008,
    0x2009, 0x200A, 0x2028, 0x2029, 0x202F, 0x205F, 0x3000]

theorem mem_blankPoints {c : Char} (h : isBlank c = true) : c.toNat ∈ blankPoints := by
  unfold isBlank at h
  simp only [Bool.or_eq_true, Bool.and_eq_true, decide_eq_true_eq, beq_iff_eq] at h
  simp only [blankPoints, List.mem_cons, List.not_mem_nil, or_false]
  omega

/-- A class of characters has no blank in it if it has none with these code points. -/
theorem isBlank_of_class {p : Char → Bool} (hp : ∀ n ∈ blankPoints, p (Char.ofNat n) = false) {c : Char}
    (h : p c = true) : isBlank c = false := by
  rw [Bool.eq_false_iff]
  intro hblank
  have hpoint := hp c.toNat (mem_blankPoints hblank)
  rw [Char.ofNat_toNat, h] at hpoint
  exact absurd hpoint (by simp)

/-- A blank neither starts a name nor goes on with it. -/
theorem isBlank_of_continuesSegment {c : Char} : continuesSegment c = true → isBlank c = false :=
  isBlank_of_class (by decide +kernel)

theorem continuesSegment_of_startsSegment {c : Char} (h : startsSegment c = true) : continuesSegment c = true := by
  unfold startsSegment at h
  unfold continuesSegment
  simp only [Bool.or_eq_true] at h ⊢
  refine h.imp_left (Or.imp_left fun halpha => ?_)
  unfold isAlphabetic at halpha
  unfold isAlphanumeric
  split at halpha
  · rename_i hlow
    rw [if_pos hlow, Char.isAlphanum, halpha, Bool.true_or]
  · rename_i hhigh
    rw [if_neg hhigh, halpha, Bool.true_or]

/-- The characters that types and imports are written with beside names. -/
def marks : List Char := ['<', '>', '[', ']', '.', ',', '?', ';', ' ']

theorem continuesSegment_of_mem_marks : ∀ c ∈ marks, continuesSegment c = false := by
  have hall : marks.all (!continuesSegment ·) = true := by decide
  simpa using hall

/-! ## Names -/

theorem isSegment_iff {cs : List Char} :
    isSegment cs = true ↔ (∃ c ∈ cs.head?, startsSegment c = true) ∧ ∀ c ∈ cs, continuesSegment c = true := by
  cases cs with
  | nil => simp [isSegment]
  | cons c cs =>
      simp only [isSegment, Bool.and_eq_true, List.all_eq_true, List.head?_cons, Option.mem_def, Option.some.injEq,
        exists_eq_left', List.forall_mem_cons]
      exact ⟨fun ⟨h, hall⟩ => ⟨h, continuesSegment_of_startsSegment h, hall⟩, fun ⟨h, _, hall⟩ => ⟨h, hall⟩⟩

theorem isQualified_iff {cs : List Char} : isQualified cs = true ↔ ∀ part ∈ cs.splitOn '.', isSegment part = true := by
  unfold isQualified
  rw [Text.splitOn_eq, List.all_eq_true]

/-- The characters of a qualified name. -/
theorem of_isQualified {cs : List Char} (h : isQualified cs = true) :
    ∀ c ∈ cs, c = '.' ∨ continuesSegment c = true := by
  refine Text.forall_of_splitOn (Or.inl rfl) ?_
  intro part hpart c hc
  exact Or.inr ((isSegment_iff.mp (isQualified_iff.mp h part hpart)).2 c hc)

theorem ne_of_isQualified {cs : List Char} (h : isQualified cs = true) {c mark : Char} (hc : c ∈ cs)
    (hmark : mark ∈ marks) (hpoint : mark ≠ '.') : c ≠ mark := by
  rintro rfl
  rcases of_isQualified h c hc with rfl | hcontinues
  · exact hpoint rfl
  · rw [continuesSegment_of_mem_marks c hmark] at hcontinues
    exact absurd hcontinues (by simp)

theorem isBlank_of_isQualified {cs : List Char} (h : isQualified cs = true) : ∀ c ∈ cs, isBlank c = false := by
  intro c hc
  rcases of_isQualified h c hc with rfl | hcontinues
  · decide
  · exact isBlank_of_continuesSegment hcontinues

/-- A text is its last segment behind the qualifiers. -/
theorem exists_qualifiers (cs : List Char) :
    ∃ front, cs = front ++ lastSegment cs ∧ '.' ∉ lastSegment cs ∧
      front = (cs.reverse.dropWhile (· != '.')).reverse ∧ (front = [] ∨ ∃ more, front = more ++ ['.']) := by
  refine ⟨(cs.reverse.dropWhile (· != '.')).reverse, ?_, ?_, rfl, ?_⟩
  · unfold lastSegment
    rw [← List.reverse_append, List.takeWhile_append_dropWhile, List.reverse_reverse]
  · unfold lastSegment
    intro hpoint
    have hnot := List.mem_takeWhile_imp (List.mem_reverse.mp hpoint)
    exact absurd hnot (by simp)
  · cases hdrop : cs.reverse.dropWhile (· != '.') with
    | nil => exact Or.inl rfl
    | cons c more =>
        have hnot := List.head?_dropWhile_not (· != '.') cs.reverse
        rw [hdrop] at hnot
        obtain rfl : c = '.' := by simpa using hnot
        exact Or.inr ⟨more.reverse, by simp⟩

/-- The last segment is the last of the parts between points. -/
theorem splitOn_eq_concat (cs : List Char) : ∃ front, cs.splitOn '.' = front ++ [lastSegment cs] := by
  obtain ⟨front, hcs, hpoint, -, hfront⟩ := exists_qualifiers cs
  have hlast : (lastSegment cs).splitOn '.' = [lastSegment cs] := List.splitOn_eq_singleton hpoint
  rcases hfront with rfl | ⟨more, rfl⟩
  · refine ⟨[], ?_⟩
    rw [List.nil_append] at hcs
    rwa [← hcs] at hlast ⊢
  · refine ⟨more.splitOn '.', ?_⟩
    rw [← hlast, ← List.splitOn_append_cons_self, ← List.singleton_append, ← List.append_assoc, ← hcs]

theorem lastSegment_mem_splitOn (cs : List Char) : lastSegment cs ∈ cs.splitOn '.' := by
  obtain ⟨front, hfront⟩ := splitOn_eq_concat cs
  rw [hfront]
  exact List.mem_append_right _ (List.mem_singleton_self _)

theorem isSegment_lastSegment {cs : List Char} (h : isQualified cs = true) : isSegment (lastSegment cs) = true :=
  isQualified_iff.mp h _ (lastSegment_mem_splitOn cs)

/-- A text without points is its own last segment. -/
theorem lastSegment_of_not_mem {cs : List Char} (h : '.' ∉ cs) : lastSegment cs = cs := by
  obtain ⟨front, hcs, -, -, rfl | ⟨more, rfl⟩⟩ := exists_qualifiers cs
  · exact hcs.symm
  · exact absurd (by rw [hcs]; simp) h

theorem isQualified_of_isSegment {cs : List Char} (h : isSegment cs = true) : isQualified cs = true := by
  have hpoint : '.' ∉ cs := by
    intro hmem
    have hcontinues := (isSegment_iff.mp h).2 '.' hmem
    exact absurd hcontinues (by decide)
  rw [isQualified_iff, List.splitOn_eq_singleton hpoint]
  simpa using h

/-! ## Erasure -/

/-- What does not end a bracket is kept outside of brackets, if it is no blank. -/
theorem outsideBrackets_cons {c : Char} (hopen : c ≠ '<') (hclose : c ≠ '>') (depth : Nat) (cs : List Char) :
    outsideBrackets depth (c :: cs) =
      if depth == 0 && !isBlank c then (outsideBrackets depth cs).map (c :: ·) else outsideBrackets depth cs := by
  cases depth <;> rw [outsideBrackets, if_neg (by simpa using hopen), if_neg (by simpa using hclose)]

theorem outsideBrackets_open (depth : Nat) (cs : List Char) :
    outsideBrackets depth ('<' :: cs) = outsideBrackets (depth + 1) cs := by
  cases depth <;> rfl

/-- **Blanks make no difference** to what stands outside of brackets. -/
theorem outsideBrackets_filter (cs : List Char) (depth : Nat) :
    outsideBrackets depth (cs.filter (!isBlank ·)) = outsideBrackets depth cs := by
  induction cs generalizing depth with
  | nil => rfl
  | cons c cs ih =>
      by_cases hopen : c = '<'
      · subst hopen
        rw [List.filter_cons_of_pos (by decide), outsideBrackets_open, outsideBrackets_open, ih]
      · by_cases hclose : c = '>'
        · subst hclose
          rw [List.filter_cons_of_pos (by decide)]
          cases depth with
          | zero => rfl
          | succ depth =>
              show outsideBrackets depth _ = outsideBrackets depth cs
              exact ih depth
        · by_cases hblank : isBlank c = true
          · rw [List.filter_cons_of_neg (by simp [hblank]), outsideBrackets_cons hopen hclose, ih]
            simp [hblank]
          · rw [List.filter_cons_of_pos (by simp [hblank]), outsideBrackets_cons hopen hclose,
              outsideBrackets_cons hopen hclose, ih]

theorem Erased.ofChars?_trim (cs : List Char) : Erased.ofChars? (trimEnd (trimStart cs)) = Erased.ofChars? cs := by
  have hout : outsideBrackets 0 (trimEnd (trimStart cs)) = outsideBrackets 0 cs := by
    rw [← outsideBrackets_filter, Text.filter_trim, outsideBrackets_filter]
  unfold Erased.ofChars?
  rw [hout]

/-- A name with its dimensions is read as it is written. -/
theorem Erased.ofChars?_of_isSegment {cs : List Char} (h : isSegment cs = true) (n : Nat) :
    Erased.ofChars? (cs ++ pairs n) = some ⟨cs, n⟩ := by
  have hmark : ∀ c ∈ cs, ∀ mark ∈ marks, c ≠ mark := by
    rintro c hc mark hmark rfl
    have hcontinues := (isSegment_iff.mp h).2 c hc
    rw [continuesSegment_of_mem_marks c hmark] at hcontinues
    exact absurd hcontinues (by simp)
  have houtside : (cs ++ pairs n).all isOutside = true := by
    rw [List.all_append, all_isOutside_pairs, Bool.and_true, List.all_eq_true]
    intro c hc
    have hblank := isBlank_of_continuesSegment ((isSegment_iff.mp h).2 c hc)
    have hopen := hmark c hc '<' (by decide)
    have hclose := hmark c hc '>' (by decide)
    simp [isOutside, hblank, hopen, hclose]
  have hout : outsideBrackets 0 (cs ++ pairs n ++ []) = (outsideBrackets 0 []).map (cs ++ pairs n ++ ·) :=
    outsideBrackets_of_all houtside
  rw [List.append_nil] at hout
  refine Erased.ofChars?_eq_some_iff.mpr ⟨hout.trans (by simp [outsideBrackets]), ?_⟩
  exact fun c hc => ⟨hmark c hc '[' (by decide), hmark c hc ']' (by decide)⟩

/-! ## Constraints -/

namespace Erased

/-- The constraint that an erased type is. -/
def constraint (e : Erased) : Constraint :=
  match e.primitive? with
  | some p => .primitive p
  | none => if e.isVariable then .any else .reference e.name

/-- The constraint is that of the simple name with its dimensions. -/
theorem constraint_simple (e : Erased) : (Erased.mk e.simple e.dimensions).constraint = e.constraint := by
  obtain ⟨-, -, hpoint, -⟩ := exists_qualifiers e.base
  have hsimple : (Erased.mk e.simple e.dimensions).simple = e.simple := lastSegment_of_not_mem hpoint
  unfold constraint primitive? isVariable name simpleName
  rw [hsimple]

theorem constraint_eq_reference {e : Erased} {name : String} (h : e.constraint = .reference name) :
    name = String.ofList (e.simple ++ pairs e.dimensions) := by
  unfold constraint at h
  split at h
  · exact absurd h (by simp)
  · split at h
    · exact absurd h (by simp)
    · exact (Constraint.reference.inj h).symm

end Erased

namespace Constraint

/-- What is read is the constraint of the erasure, but for `?`. -/
theorem parse?_eq (text : String) :
    parse? text =
      if trimEnd (trimStart text.toList) = ['?'] then some .any
      else (Erased.ofChars? text.toList).bind fun e => if isQualified e.base then some e.constraint else none := by
  unfold parse?
  simp only [Erased.ofChars?_trim, beq_iff_eq]
  split
  · rfl
  · cases Erased.ofChars? text.toList with
    | none => rfl
    | some e =>
        show (if (!isQualified e.base) = true then _ else _) = if isQualified e.base = true then _ else _
        cases isQualified e.base with
        | false => rfl
        | true =>
            unfold Erased.constraint
            simp only [Bool.not_true, Bool.false_eq_true, if_false, if_true]
            cases e.primitive? with
            | some p => rfl
            | none => cases e.isVariable <;> rfl

theorem parse?_eq_some_iff {text : String} {c : Constraint} :
    parse? text = some c ↔
      (trimEnd (trimStart text.toList) = ['?'] ∧ c = .any) ∨
      (trimEnd (trimStart text.toList) ≠ ['?'] ∧
        ∃ e, Erased.ofChars? text.toList = some e ∧ isQualified e.base = true ∧ c = e.constraint) := by
  rw [parse?_eq]
  by_cases hquestion : trimEnd (trimStart text.toList) = ['?']
  · rw [if_pos hquestion]
    constructor
    · exact fun h => Or.inl ⟨hquestion, (Option.some.inj h).symm⟩
    · rintro (⟨-, rfl⟩ | ⟨hne, -⟩)
      · rfl
      · exact absurd hquestion hne
  · rw [if_neg hquestion]
    constructor
    · intro h
      obtain ⟨e, he, hc⟩ := Option.bind_eq_some_iff.mp h
      obtain ⟨hqualified, hc⟩ := Option.ite_none_right_eq_some.mp hc
      exact Or.inr ⟨hquestion, e, he, hqualified, (Option.some.inj hc).symm⟩
    · rintro (⟨hq, -⟩ | ⟨-, e, he, hqualified, rfl⟩)
      · exact absurd hq hquestion
      · rw [he, Option.bind_some, if_pos hqualified]

theorem parse_eq_ok {name text : String} {c : Constraint} : parse name text = .ok c ↔ parse? text = some c := by
  unfold parse
  cases parse? text <;> simp

/-- What is read depends on the trimmed text only. -/
theorem parse?_congr {text other : String}
    (h : trimEnd (trimStart text.toList) = trimEnd (trimStart other.toList)) : parse? text = parse? other := by
  unfold parse?
  rw [h]

/-- **A constraint is read from its own text**, unless it is none. -/
theorem parse?_text {text : String} {c : Constraint} (h : parse? text = some c) (hany : c ≠ .any) :
    parse? c.text = some c := by
  cases c with
  | any => exact absurd rfl hany
  | primitive p => cases p <;> decide +kernel
  | reference name =>
      obtain ⟨-, hc⟩ | ⟨-, e, -, hqualified, hc⟩ := parse?_eq_some_iff.mp h
      · exact absurd hc (by simp)
      have hsegment : isSegment e.simple = true := isSegment_lastSegment hqualified
      have hname : (Constraint.reference name).text.toList = e.simple ++ pairs e.dimensions := by
        show name.toList = _
        rw [Erased.constraint_eq_reference hc.symm, String.toList_ofList]
      refine parse?_eq_some_iff.mpr (Or.inr ⟨?_, ⟨e.simple, e.dimensions⟩, ?_, ?_, ?_⟩)
      · -- the text starts with a letter, which trimming leaves
        obtain ⟨c, hhead, hstarts⟩ := (isSegment_iff.mp hsegment).1
        have hcontinues := continuesSegment_of_startsSegment hstarts
        intro hquestion
        have hmem : c ∈ trimEnd (trimStart (Constraint.reference name).text.toList) := by
          have hfilter : c ∈ (trimEnd (trimStart (Constraint.reference name).text.toList)).filter (!isBlank ·) := by
            rw [Text.filter_trim, hname, List.mem_filter]
            exact ⟨List.mem_append_left _ (List.mem_of_mem_head? hhead),
              by simp [isBlank_of_continuesSegment hcontinues]⟩
          exact (List.mem_filter.mp hfilter).1
        rw [hquestion, List.mem_singleton] at hmem
        rw [hmem] at hcontinues
        exact absurd hcontinues (by decide)
      · rw [hname]
        exact Erased.ofChars?_of_isSegment hsegment e.dimensions
      · exact isQualified_of_isSegment hsegment
      · rw [hc, Erased.constraint_simple]

end Constraint

end JavaRefactor.Types

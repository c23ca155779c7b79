import JavaRefactor.Proofs.Types.Written

/-!
# `Proofs.Types.Acceptance` — which texts are read as constraints

A constraint is read by leaving things out: blanks, and all that stands in angle brackets. What is left has to be a name
with dimensions. So every type of Java with names of letters and digits is read, as its erasure; but other texts are
read too. They are those that are untidy: where a blank stood between two words, where something else than arguments
stood in brackets, or where a word is used as a name that is none.

## Contents
- **`Tidy`** texts, with the pieces that are left of them: `outer_of_tidy` and `parted_of_tidy`.
- **`tidy_of_written`**: what is written by the rules is tidy, and what is left is a name with dimensions.
- **`written_of_tidy`**: a tidy text of which such a name is left is written by the rules.
- **`Constraint.parse_ok_iff`**, and `Constraint.parse_untidy`, two texts that are read and are no types.
-/

namespace JavaRefactor.Types

open Text (isBlank trimStart trimEnd)

/-! ## Tidy texts -/

/-- What the pieces of a text stand behind. -/
inductive Standing where
  /-- Nothing. -/
  | start
  /-- A mark. -/
  | opened
  /-- A name. -/
  | named
  /-- The arguments behind a name. -/
  | closed
  /-- The word for a primitive type, and brackets. -/
  | primitive
  deriving DecidableEq

/-- `Tidy s ps os`: of pieces that stand behind `s` the pieces `os` are outside of angle brackets, where no two words
    meet. All words there are names, unless the first one is a primitive type with nothing but square brackets behind
    it; and in angle brackets are the arguments of the name in front. -/
inductive Tidy : Standing → List Piece → List Piece → Prop where
  | nil {s : Standing} : Tidy s [] []
  | name {s : Standing} {w : List Char} {ps os : List Piece} (hs : s = .start ∨ s = .opened)
      (hw : isIdentifier w = true) (h : Tidy .named ps os) : Tidy s (.word w :: ps) (.word w :: os)
  | primitive {p : Primitive} {ps os : List Piece} (h : Tidy .primitive ps os) :
      Tidy .start (p.word :: ps) (p.word :: os)
  | bracket {c : Char} {ps os : List Piece} (hc : c = '[' ∨ c = ']') (h : Tidy .primitive ps os) :
      Tidy .primitive (.mark c :: ps) (.mark c :: os)
  | mark {s : Standing} {c : Char} {ps os : List Piece} (hs : s ≠ .primitive) (hc : c ≠ '<' ∧ c ≠ '>')
      (h : Tidy .opened ps os) : Tidy s (.mark c :: ps) (.mark c :: os)
  | arguments {qs ps os : List Piece} (hq : Written .arguments qs) (h : Tidy .closed ps os) :
      Tidy .named (.mark '<' :: (qs ++ .mark '>' :: ps)) os

section

variable {s : Standing} {ps os : List Piece}

/-- **What is left** are the pieces outside of brackets. -/
theorem outer_of_tidy (h : Tidy s ps os) : outer 0 ps = some os := by
  induction h with
  | nil => rfl
  | name _ _ _ ih => rw [outer_outside (by simp) (by simp), ih]; rfl
  | primitive _ ih => rw [outer_outside (by simp [Primitive.word]) (by simp [Primitive.word]), ih]; rfl
  | bracket hc _ ih =>
      rcases hc with rfl | rfl <;>
      · rw [outer_outside (by decide) (by decide), ih]
        rfl
  | mark _ hc _ ih => rw [outer_outside (by simpa using hc.1) (by simpa using hc.2), ih]; rfl
  | arguments hq _ ih => rw [outer_open, outer_of_written hq, outer_close, ih]

theorem subset_of_tidy (h : Tidy s ps os) : os ⊆ ps := by
  induction h with
  | nil => exact List.Subset.refl _
  | name _ _ _ ih | primitive _ ih | bracket _ _ ih | mark _ _ _ ih => exact List.cons_subset_cons _ ih
  | arguments _ _ ih =>
      intro p hp
      exact List.mem_cons_of_mem _ (List.mem_append_right _ (List.mem_cons_of_mem _ (ih hp)))

/-- In what is left no two words meet; none meets a word in front. -/
theorem parted_of_tidy (h : Tidy s ps os) :
    Parted os ∧ (s ≠ .start → s ≠ .opened → ∀ w, os.head? ≠ some (.word w)) := by
  induction h with
  | nil => exact ⟨List.IsChain.nil, by simp⟩
  | name hs _ _ ih =>
      refine ⟨parted_word.mpr ⟨ih.2 (by simp) (by simp), ih.1⟩, fun hstart hopened => ?_⟩
      exact absurd hs (not_or.mpr ⟨hstart, hopened⟩)
  | primitive _ ih =>
      refine ⟨parted_word.mpr ⟨ih.2 (by simp) (by simp), ih.1⟩, fun hstart => absurd rfl hstart⟩
  | bracket _ _ ih | mark _ _ _ ih => exact ⟨parted_mark ih.1, by simp⟩
  | arguments _ _ ih => exact ⟨ih.1, fun _ _ => ih.2 (by simp) (by simp)⟩

end

/-! ## Names with dimensions -/

/-- A name with the names that it qualifies. -/
def dotted (v : List Char) (vs : List (List Char)) : List Piece :=
  .word v :: vs.flatMap fun w => [.mark '.', .word w]

/-- So many pairs of square brackets. -/
def brackets (n : Nat) : List Piece := (List.replicate n [.mark '[', .mark ']']).flatten

theorem dotted_concat (v w : List Char) (vs : List (List Char)) :
    dotted v (vs ++ [w]) = dotted v vs ++ [.mark '.', .word w] := by
  simp [dotted]

theorem brackets_succ (n : Nat) : brackets (n + 1) = .mark '[' :: .mark ']' :: brackets n := by
  simp [brackets, List.replicate_succ]

theorem spell_dotted (v : List Char) (vs : List (List Char)) :
    spell (dotted v vs) = ['.'].intercalate (v :: vs) := by
  induction vs generalizing v with
  | nil => simp [spell, dotted, Piece.chars]
  | cons w vs ih =>
      rw [List.intercalate_cons_cons, ← ih w]
      simp [spell, dotted, Piece.chars]

theorem spell_brackets (n : Nat) : spell (brackets n) = pairs n := by
  induction n with
  | zero => rfl
  | succ n ih =>
      have hpairs : pairs (n + 1) = '[' :: ']' :: pairs n := by simp [pairs, List.replicate_succ]
      rw [brackets_succ, hpairs, ← ih]
      rfl

theorem word_mem_dotted {v w : List Char} {vs : List (List Char)} {n : Nat} :
    .word w ∈ dotted v vs ++ brackets n ↔ w ∈ v :: vs := by
  have hbrackets : Piece.word w ∉ brackets n := by
    intro hmem
    obtain ⟨pair, hpair, hw⟩ := List.mem_flatten.mp hmem
    rw [List.eq_of_mem_replicate hpair] at hw
    exact absurd hw (by simp)
  simp [dotted, hbrackets]

theorem proper_of_isSegment {w : List Char} (h : isSegment w = true) : (Piece.word w).Proper := by
  refine ⟨?_, fun c hc => ?_⟩
  · rintro rfl
    exact absurd h (by simp [isSegment])
  · have hcontinues := (isSegment_iff.mp h).2 c hc
    simp [isWordPart, hcontinues]

theorem proper_of_mem_marks : ∀ c ∈ marks, c ≠ ' ' → (Piece.mark c).Proper := by
  intro c hc hne
  refine ⟨isWordPart_of_mem_marks c hc, ?_⟩
  have hall : marks.all (fun c => c == ' ' || !isBlank c) = true := by decide
  simpa [hne] using List.all_eq_true.mp hall c hc

theorem pieces_pairs (n : Nat) : pieces (pairs n) = brackets n := by
  induction n with
  | zero => rfl
  | succ n ih =>
      have hpairs : pairs (n + 1) = '[' :: ']' :: pairs n := by simp [pairs, List.replicate_succ]
      have hopen := proper_of_mem_marks '[' (by decide) (by decide)
      have hclose := proper_of_mem_marks ']' (by decide) (by decide)
      rw [hpairs, pieces_mark hopen, pieces_mark hclose, ih, brackets_succ]

/-- **The pieces of a name with dimensions** are its parts, the points between them, and the brackets. -/
theorem pieces_dotted {v : List Char} {vs : List (List Char)} (h : ∀ w ∈ v :: vs, isSegment w = true) (n : Nat) :
    pieces (['.'].intercalate (v :: vs) ++ pairs n) = dotted v vs ++ brackets n := by
  have hpoint := proper_of_mem_marks '.' (by decide) (by decide)
  induction vs generalizing v with
  | nil =>
      rw [List.intercalate_singleton, pieces_word (proper_of_isSegment (h v (by simp))), pieces_pairs]
      · rfl
      · intro c hc
        cases n with
        | zero => exact absurd hc (by simp [pairs])
        | succ n =>
            obtain rfl : '[' = c := by simpa [pairs, List.replicate_succ] using hc
            exact isWordPart_of_mem_marks '[' (by decide)
  | cons w vs ih =>
      have hshape : ['.'].intercalate (v :: w :: vs) ++ pairs n =
          v ++ '.' :: (['.'].intercalate (w :: vs) ++ pairs n) := by
        rw [List.intercalate_cons_cons]
        simp
      rw [hshape, pieces_word (proper_of_isSegment (h v (by simp))), pieces_mark hpoint,
        ih fun u hu => h u (List.mem_cons_of_mem v hu)]
      · rfl
      · intro c hc
        obtain rfl : '.' = c := by simpa using hc
        exact hpoint.1

/-! ## From the rules to tidy texts -/

/-- Behind a name, arguments, or brackets there may be square brackets. -/
theorem tidy_brackets {s : Standing} (n : Nat) : Tidy s (brackets n) (brackets n) := by
  induction n generalizing s with
  | zero => exact .nil
  | succ n ih =>
      rw [brackets_succ]
      by_cases hs : s = .primitive
      · subst hs
        exact .bracket (Or.inl rfl) (.bracket (Or.inr rfl) ih)
      · exact .mark hs (by decide) (.mark (by decide) (by decide) ih)

/-- What is tidy about a phrase: a class and a type start a text of which a name is left, with what follows. -/
def Phrase.Starts : Phrase → List Piece → Prop
  | .class w isClosed, ps => ∃ v vs, (v :: vs).getLast? = some w ∧ ∀ rest os,
      Tidy (if isClosed then .closed else .named) rest os → Tidy .start (ps ++ rest) (dotted v vs ++ os)
  | .type e _, ps => ∃ v vs, (v :: vs).getLast? = some e.base ∧ ∀ n,
      Tidy .start (ps ++ brackets n) (dotted v vs ++ brackets (e.dimensions + n))
  | .argument, _ | .arguments, _ => True

theorem starts_of_written {k : Phrase} {ps : List Piece} (h : Written k ps) : k.Starts ps := by
  induction h with
  | @name w hw => exact ⟨w, [], rfl, fun rest os h => .name (Or.inl rfl) hw h⟩
  | @qualified v w isClosed ps _ hw ih =>
      obtain ⟨u, us, -, htidy⟩ := ih
      refine ⟨u, us ++ [w], by rw [← List.cons_append, List.getLast?_concat], fun rest os h => ?_⟩
      have hpoint : Tidy (if isClosed then .closed else .named) (.mark '.' :: .word w :: rest)
          (.mark '.' :: .word w :: os) :=
        .mark (by cases isClosed <;> decide) (by decide) (.name (Or.inr rfl) hw h)
      have hall := htidy _ _ hpoint
      rw [dotted_concat]
      simpa using hall
  | generic _ hq ih _ =>
      obtain ⟨u, us, hlast, htidy⟩ := ih
      refine ⟨u, us, hlast, fun rest os h => ?_⟩
      have hall := htidy _ _ (.arguments hq h)
      rw [List.append_assoc, List.cons_append, List.append_assoc]
      exact hall
  | primitive p =>
      refine ⟨p.keyword.toList, [], rfl, fun n => ?_⟩
      have hall : Tidy .start (p.word :: brackets n) (p.word :: brackets n) := .primitive (tidy_brackets n)
      simpa [dotted, Primitive.word] using hall
  | reference _ ih =>
      obtain ⟨u, us, hlast, htidy⟩ := ih
      refine ⟨u, us, hlast, fun n => ?_⟩
      rw [Nat.zero_add]
      exact htidy _ _ (tidy_brackets n)
  | array _ ih =>
      obtain ⟨u, us, hlast, htidy⟩ := ih
      refine ⟨u, us, hlast, fun n => ?_⟩
      have hall := htidy (n + 1)
      rw [brackets_succ] at hall
      have hsum : ∀ d, d + 1 + n = d + (n + 1) := fun d => by omega
      rw [hsum]
      simpa using hall
  | plain | wildcard | upper | lower | one | more => trivial

/-- **A type by the rules is tidy**, and its name with its dimensions is left of it. -/
theorem tidy_of_written {ps : List Piece} {e : Erased} (h : IsType ps e) :
    ∃ v vs, (v :: vs).getLast? = some e.base ∧ Tidy .start ps (dotted v vs ++ brackets e.dimensions) := by
  obtain ⟨isReference, h⟩ := h
  obtain ⟨v, vs, hlast, htidy⟩ := starts_of_written h
  have hall := htidy 0
  rw [show brackets 0 = [] from rfl, List.append_nil, Nat.add_zero] at hall
  exact ⟨v, vs, hlast, hall⟩

/-! ## From tidy texts to the rules -/

/-- Where only square brackets are left, there is nothing else, unless arguments may stand in front of them. -/
theorem eq_brackets_of_tidy {s : Standing} {ps : List Piece} {n : Nat} (h : Tidy s ps (brackets n)) (hs : s ≠ .named) :
    ps = brackets n := by
  induction n generalizing s ps with
  | zero =>
      cases h with
      | nil => rfl
      | arguments => exact absurd rfl hs
  | succ n ih =>
      rw [brackets_succ] at h ⊢
      cases h with
      | mark _ _ h =>
          cases h with
          | mark _ _ h => rw [ih h (by simp)]
      | bracket _ h =>
          cases h with
          | bracket _ h => rw [ih h (by simp)]
          | mark hprimitive => exact absurd rfl hprimitive
      | arguments => exact absurd rfl hs

theorem written_brackets {e : Erased} {isReference : Bool} {ps : List Piece} (h : Written (.type e isReference) ps)
    (n : Nat) : IsType (ps ++ brackets n) ⟨e.base, e.dimensions + n⟩ := by
  induction n generalizing e isReference ps with
  | zero => exact ⟨isReference, by simpa [brackets] using h⟩
  | succ n ih =>
      have hall := ih h.array
      rw [brackets_succ]
      have hsum : e.dimensions + (n + 1) = e.dimensions + 1 + n := by omega
      rw [hsum]
      simpa using hall

/-- Behind a name may stand its arguments. -/
theorem Tidy.named_cases {ps os : List Piece} (h : Tidy .named ps os) :
    Tidy .closed ps os ∨ ∃ qs rest, ps = .mark '<' :: (qs ++ .mark '>' :: rest) ∧ Written .arguments qs ∧
      Tidy .closed rest os := by
  cases h with
  | nil => exact Or.inl .nil
  | name hs => exact absurd hs (by simp)
  | mark _ hc h => exact Or.inl (.mark (by simp) hc h)
  | arguments hq h => exact Or.inr ⟨_, _, rfl, hq, h⟩

/-- A name that goes on with other names and dimensions is a type. -/
theorem isType_of_named {w : List Char} {front ps : List Piece} {vs : List (List Char)} {n : Nat}
    (hfront : Written (.class w false) front)
    (h : Tidy .named ps ((vs.flatMap fun v => [.mark '.', .word v]) ++ brackets n)) : ∃ e, IsType (front ++ ps) e := by
  induction vs generalizing w front ps with
  | nil =>
      rcases h.named_cases with h | ⟨qs, rest, rfl, hq, h⟩
      · rw [eq_brackets_of_tidy h (by simp)]
        exact ⟨_, written_brackets hfront.reference n⟩
      · rw [eq_brackets_of_tidy h (by simp)]
        have hall := written_brackets (hfront.generic hq).reference n
        exact ⟨_, by simpa using hall⟩
  | cons v vs ih =>
      -- the arguments, if there are any, then the point and the next name
      have hnext : ∀ {isClosed : Bool} {front ps : List Piece}, Written (.class w isClosed) front →
          Tidy .closed ps (.mark '.' :: .word v :: ((vs.flatMap fun v => [.mark '.', .word v]) ++ brackets n)) →
          ∃ e, IsType (front ++ ps) e := by
        intro isClosed front ps hfront h
        cases h with
        | mark _ _ h =>
            cases h with
            | name _ hw h =>
                have hall := ih (hfront.qualified hw) h
                simpa using hall
      rcases h.named_cases with h | ⟨qs, rest, rfl, hq, h⟩
      · exact hnext hfront h
      · have hall := hnext (hfront.generic hq) h
        simpa using hall

/-- **A tidy text is a type by the rules** if a name with dimensions is left of it. -/
theorem written_of_tidy {ps : List Piece} {v : List Char} {vs : List (List Char)} {n : Nat}
    (h : Tidy .start ps (dotted v vs ++ brackets n)) : ∃ e, IsType ps e := by
  unfold dotted at h
  rw [List.cons_append] at h
  generalize hos : Piece.word v :: ((vs.flatMap fun w => [.mark '.', .word w]) ++ brackets n) = os at h
  cases h with
  | nil => exact absurd hos (by simp)
  | @name _ w ps os' _ hw h =>
      obtain ⟨hword, rfl⟩ := List.cons.inj hos
      exact isType_of_named (.name hw) h
  | @primitive p ps os' h =>
      obtain ⟨hword, rfl⟩ := List.cons.inj hos
      cases vs with
      | nil =>
          rw [List.flatMap_nil, List.nil_append] at h
          rw [eq_brackets_of_tidy h (by simp)]
          exact ⟨_, written_brackets (.primitive p) n⟩
      | cons w vs =>
          cases h with
          | bracket hc => exact absurd hc (by decide)
          | mark hs => exact absurd rfl hs
  | mark => exact absurd hos (by simp)

/-! ## Constraints -/

/-- The names outside of brackets are such as constraints are read by: letters, `_` and `$`, and digits behind the first
    of them. -/
def Lettered (text : String) : Prop :=
  ∀ os, outer 0 (pieces text.toList) = some os → ∀ w, .word w ∈ os → isSegment w = true

/-- Nothing is left out of the text that a type could not have there. -/
def IsTidy (text : String) : Prop :=
  trimEnd (trimStart text.toList) = ['?'] ∨ ∃ os, Tidy .start (pieces text.toList) os

/-- What stands outside of brackets in `?`. -/
theorem outsideBrackets_question {cs : List Char} (h : trimEnd (trimStart cs) = ['?']) :
    outsideBrackets 0 cs = some ['?'] := by
  rw [← outsideBrackets_filter, ← Text.filter_trim, h]
  rfl

section Segments

variable {v : List Char} {vs : List (List Char)} (h : ∀ u ∈ v :: vs, isSegment u = true)

include h

theorem splitOn_intercalate_of_segments : (['.'].intercalate (v :: vs)).splitOn '.' = v :: vs := by
  refine List.splitOn_intercalate '.' (fun u hu hpoint => ?_) (List.cons_ne_nil v vs)
  have hcontinues := (isSegment_iff.mp (h u hu)).2 '.' hpoint
  exact absurd hcontinues (by decide)

theorem isQualified_intercalate : isQualified (['.'].intercalate (v :: vs)) = true := by
  rw [isQualified_iff, splitOn_intercalate_of_segments h]
  exact h

/-- The constraint of names between points, with dimensions, is that of the last one. -/
theorem constraint_intercalate {w : List Char} (hlast : (v :: vs).getLast? = some w) (n : Nat) :
    (Erased.mk (['.'].intercalate (v :: vs)) n).constraint = (Erased.mk w n).constraint := by
  obtain ⟨front, hfront⟩ := splitOn_eq_concat (['.'].intercalate (v :: vs))
  rw [splitOn_intercalate_of_segments h] at hfront
  rw [hfront, List.getLast?_concat] at hlast
  rw [← Erased.constraint_simple]
  show (Erased.mk (lastSegment _) n).constraint = _
  rw [Option.some.inj hlast]

end Segments

namespace Constraint

/-- **Every type is read** as its erasure, if its names are lettered. -/
theorem parse?_of_isType {text : String} {e : Erased} (h : IsType (pieces text.toList) e) (hl : Lettered text) :
    parse? text = some e.constraint := by
  obtain ⟨v, vs, hlast, htidy⟩ := tidy_of_written h
  have houter := outer_of_tidy htidy
  have hsegments : ∀ u ∈ v :: vs, isSegment u = true := fun u hu => hl _ houter u (word_mem_dotted.mpr hu)
  have hqualified := isQualified_intercalate hsegments
  have hout : outsideBrackets 0 text.toList = some (['.'].intercalate (v :: vs) ++ pairs e.dimensions) := by
    rw [outsideBrackets_eq, houter, Option.map_some, spell_append, spell_dotted, spell_brackets]
  have hplain : ∀ c ∈ ['.'].intercalate (v :: vs), c ≠ '[' ∧ c ≠ ']' := fun c hc =>
    ⟨ne_of_isQualified hqualified hc (by decide) (by decide), ne_of_isQualified hqualified hc (by decide) (by decide)⟩
  refine parse?_eq_some_iff.mpr (Or.inr ⟨fun hquestion => ?_, ⟨['.'].intercalate (v :: vs), e.dimensions⟩,
    Erased.ofChars?_eq_some_iff.mpr ⟨hout, hplain⟩, hqualified, (constraint_intercalate hsegments hlast _).symm⟩)
  -- a name is not `?`, nor does it start with it
  rw [outsideBrackets_question hquestion] at hout
  obtain ⟨c, hhead, hstarts⟩ := (isSegment_iff.mp (hsegments v (List.mem_cons_self ..))).1
  have hc : c ∈ ['.'].intercalate (v :: vs) := by
    rw [← spell_dotted]
    exact List.mem_append_left _ (List.mem_of_mem_head? hhead)
  have hmem : c ∈ ['?'] := by
    rw [Option.some.inj hout]
    exact List.mem_append_left _ hc
  exact ne_of_isQualified hqualified hc (by decide) (by decide) (List.mem_singleton.mp hmem)

/-- **A tidy text that is read** is a type with lettered names. -/
theorem isType_of_parse? {text : String} {c : Constraint} {os : List Piece} (h : parse? text = some c)
    (hquestion : trimEnd (trimStart text.toList) ≠ ['?']) (htidy : Tidy .start (pieces text.toList) os) :
    (∃ e, IsType (pieces text.toList) e) ∧ Lettered text := by
  rcases parse?_eq_some_iff.mp h with ⟨hq, -⟩ | ⟨-, e, he, hqualified, -⟩
  · exact absurd hq hquestion
  have houter := outer_of_tidy htidy
  obtain ⟨hout, -⟩ := Erased.ofChars?_eq_some_iff.mp he
  rw [outsideBrackets_eq, houter, Option.map_some, Option.some.injEq] at hout
  obtain ⟨v, vs, hsplit⟩ := List.exists_cons_of_ne_nil (List.splitOn_ne_nil '.' e.base)
  have hsegments : ∀ u ∈ v :: vs, isSegment u = true := by
    rw [← hsplit]
    exact isQualified_iff.mp hqualified
  -- what is left has the same characters as the name with its dimensions, so it has the same pieces
  have hos : os = dotted v vs ++ brackets e.dimensions := by
    have hproper : ∀ p ∈ os, p.Proper := fun p hp => proper_pieces _ p (subset_of_tidy htidy hp)
    rw [← pieces_spell hproper (parted_of_tidy htidy).1, hout, ← pieces_dotted hsegments, ← hsplit,
      List.intercalate_splitOn]
  rw [hos] at htidy houter
  refine ⟨written_of_tidy htidy, fun other hother w hw => ?_⟩
  obtain rfl := Option.some.inj (houter.symm.trans hother)
  exact hsegments w (word_mem_dotted.mp hw)

/-- **Exactly the tidy texts that are read are types.** A text is read as a constraint and nothing is left out of it that
    a type could not have there, if and only if it is `?` or a type of Java with lettered names; then it is read as the
    erasure of the type. A text that is not read gives the one error that there is for it. -/
theorem parse_ok_iff (name text : String) :
    (∀ c, parse name text = .ok c ∧ IsTidy text ↔
      trimEnd (trimStart text.toList) = ['?'] ∧ c = .any ∨
        ∃ e, IsType (pieces text.toList) e ∧ Lettered text ∧ c = e.constraint) ∧
    ∀ problem, parse name text = .error problem ↔ parse? text = none ∧ problem = .typeConstraint name text := by
  refine ⟨fun c => ⟨?_, ?_⟩, fun problem => ?_⟩
  · rintro ⟨hread, htidy⟩
    have hparse := parse_eq_ok.mp hread
    by_cases hquestion : trimEnd (trimStart text.toList) = ['?']
    · rcases parse?_eq_some_iff.mp hparse with h | ⟨hne, -⟩
      · exact Or.inl h
      · exact absurd hquestion hne
    · obtain ⟨os, htidy⟩ := htidy.resolve_left hquestion
      obtain ⟨⟨e, he⟩, hl⟩ := isType_of_parse? hparse hquestion htidy
      have hsame := hparse.symm.trans (parse?_of_isType he hl)
      exact Or.inr ⟨e, he, hl, Option.some.inj hsame⟩
  · rintro (⟨hquestion, rfl⟩ | ⟨e, he, hl, rfl⟩)
    · exact ⟨parse_eq_ok.mpr (parse?_eq_some_iff.mpr (Or.inl ⟨hquestion, rfl⟩)), Or.inl hquestion⟩
    · obtain ⟨v, vs, -, htidy⟩ := tidy_of_written he
      exact ⟨parse_eq_ok.mpr (parse?_of_isType he hl), Or.inr ⟨_, htidy⟩⟩
  · unfold parse
    cases parse? text <;> simp [eq_comm]

/-- A qualified array type with blanks, whose arguments have an array type among them. -/
theorem parse_ok_iff_entry :
    let text := " java.util.Map<? super int [ ], T>.Entry[] "
    IsType (pieces text.toList) ⟨"Entry".toList, 1⟩ ∧ parse "X" text = .ok (.reference "Entry[]") ∧ IsTidy text := by
  intro text
  have hpieces : pieces text.toList =
      [.word "java".toList, .mark '.', .word "util".toList, .mark '.', .word "Map".toList, .mark '<', .mark '?',
        .word "super".toList, .word "int".toList, .mark '[', .mark ']', .mark ',', .word "T".toList, .mark '>',
        .mark '.', .word "Entry".toList, .mark '[', .mark ']'] := by
    decide +kernel
  have hname : ∀ w ∈ ["java".toList, "util".toList, "Map".toList, "T".toList, "Entry".toList],
      isIdentifier w = true := by
    decide +kernel
  have hmap := ((Written.name (hname "java".toList (by simp))).qualified (hname "util".toList (by simp))).qualified
    (hname "Map".toList (by simp))
  have hvariable := Written.name (hname "T".toList (by simp))
  have harguments := (Written.primitive .int).array.lower.more hvariable.reference.plain.one
  have hwritten := ((hmap.generic harguments).qualified (hname "Entry".toList (by simp))).reference.array
  have htype : IsType (pieces text.toList) ⟨"Entry".toList, 1⟩ := by
    rw [hpieces]
    exact ⟨true, hwritten⟩
  have hlettered : Lettered text := by
    have houter : outer 0 (pieces text.toList) =
        some [.word "java".toList, .mark '.', .word "util".toList, .mark '.', .word "Map".toList, .mark '.',
          .word "Entry".toList, .mark '[', .mark ']'] := by
      decide +kernel
    have hsegments : ∀ w ∈ ["java".toList, "util".toList, "Map".toList, "Entry".toList], isSegment w = true := by
      decide +kernel
    intro os hos w hw
    obtain rfl := Option.some.inj (houter.symm.trans hos)
    exact hsegments w (by simpa using hw)
  exact ⟨htype, ((parse_ok_iff "X" text).1 _).mpr (Or.inr ⟨_, htype, hlettered, by decide +kernel⟩)⟩

/-- Two words in front are not tidy. -/
theorem not_tidy_of_words {v w : List Char} {ps os : List Piece} : ¬Tidy .start (.word v :: .word w :: ps) os := by
  intro h
  generalize hps : Piece.word v :: .word w :: ps = qs at h
  cases h with
  | nil => exact absurd hps (by simp)
  | name _ _ h =>
      obtain ⟨-, rfl⟩ := List.cons.inj hps
      cases h with
      | name hs => exact absurd hs (by simp)
  | primitive h =>
      obtain ⟨-, rfl⟩ := List.cons.inj hps
      cases h with
      | name hs => exact absurd hs (by simp)
  | mark => exact absurd hps (by simp)

/-- A text with two words that is read as one, and one with something else than arguments in its brackets. -/
theorem parse_untidy :
    parse "X" "int long" = .ok (.reference "intlong") ∧ (∀ e, ¬IsType (pieces "int long".toList) e) ∧
      parse "X" "List<)(>" = .ok (.reference "List") ∧ ∀ e, ¬IsType (pieces "List<)(>".toList) e := by
  refine ⟨by decide +kernel, fun e he => ?_, by decide +kernel, fun e he => ?_⟩
  · obtain ⟨v, vs, -, htidy⟩ := tidy_of_written he
    have hpieces : pieces "int long".toList = [.word "int".toList, .word "long".toList] := by decide +kernel
    rw [hpieces] at htidy
    exact not_tidy_of_words htidy
  · obtain ⟨_, he⟩ := he
    have hmem : Piece.mark ')' ∈ pieces "List<)(>".toList := by decide +kernel
    exact absurd (mem_marks_of_written he hmem) (by decide)

end Constraint

end JavaRefactor.Types

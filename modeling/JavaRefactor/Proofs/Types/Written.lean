import JavaRefactor.Proofs.Types.Erasure
import Mathlib.Data.List.Chain

/-!
# `Proofs.Types.Written` — types as they are written

The text of a type consists of words and marks, with blanks between them that matter only where they keep two words
apart. The types of Java are told by the rules that put their pieces together, and each rule tells what is left of the
type when its arguments are erased.

## Contents
- **`Piece`**, and **`pieces`** of a text; `pieces_spell`: pieces are found again, unless words meet.
- **`outer`**, the pieces outside of angle brackets, and **`outsideBrackets_eq`**.
- **`isIdentifier`**, a word that can be a name, and **`Written`**, the rules for types.
- **`outer_of_written`**: what is written by the rules leaves no bracket open.
-/

namespace JavaRefactor.Types

open Text (isBlank isNameStart)

/-! ## Pieces -/

/-- A character that may stand in a name, by the rules of Java or by those for constraints. -/
def isWordPart (c : Char) : Bool := isNameStart c || Text.isNamePart c || continuesSegment c

/-- A piece of a text. -/
inductive Piece where
  | word (cs : List Char)
  | mark (c : Char)
  deriving DecidableEq, Repr

namespace Piece

/-- The characters of a piece. -/
def chars : Piece → List Char
  | word cs => cs
  | mark c => [c]

/-- A word is made of characters of names, and a mark is neither such a character nor a blank. -/
def Proper : Piece → Prop
  | word cs => cs ≠ [] ∧ ∀ c ∈ cs, isWordPart c = true
  | mark c => isWordPart c = false ∧ isBlank c = false

end Piece

/-- The characters of some pieces. -/
def spell (ps : List Piece) : List Char := ps.flatMap Piece.chars

theorem spell_append (ps qs : List Piece) : spell (ps ++ qs) = spell ps ++ spell qs := List.flatMap_append

/-- Pieces behind a word, which may be empty. -/
def behindWord (w : List Char) (ps : List Piece) : List Piece := if w.isEmpty then ps else .word w :: ps

/-- The pieces of a text behind the beginning of a word. -/
def piecesFrom : List Char → List Char → List Piece
  | w, [] => behindWord w []
  | w, c :: cs =>
    if isWordPart c then piecesFrom (w ++ [c]) cs
    else behindWord w (if isBlank c then piecesFrom [] cs else .mark c :: piecesFrom [] cs)

/-- The words and the marks of a text. -/
def pieces (cs : List Char) : List Piece := piecesFrom [] cs

theorem isBlank_of_isWordPart {c : Char} : isWordPart c = true → isBlank c = false := isBlank_of_class (by decide +kernel)

theorem isWordPart_of_mem_marks : ∀ c ∈ marks, isWordPart c = false := by
  have hall : marks.all (!isWordPart ·) = true := by decide
  simpa using hall

theorem isOutside_of_isWordPart {c : Char} (h : isWordPart c = true) : isOutside c = true := by
  have hne : ∀ mark ∈ marks, c ≠ mark := by
    rintro mark hmark rfl
    rw [isWordPart_of_mem_marks c hmark] at h
    exact absurd h (by simp)
  have hopen := hne '<' (by decide)
  have hclose := hne '>' (by decide)
  simp [isOutside, isBlank_of_isWordPart h, hopen, hclose]

theorem proper_behindWord {w : List Char} {ps : List Piece} (hw : ∀ c ∈ w, isWordPart c = true)
    (hps : ∀ p ∈ ps, p.Proper) : ∀ p ∈ behindWord w ps, p.Proper := by
  unfold behindWord
  split
  · exact hps
  · rename_i hne
    intro p hp
    rcases List.mem_cons.mp hp with rfl | hp
    · exact ⟨by simpa using hne, hw⟩
    · exact hps p hp

/-- **The pieces of a text** are words and marks. -/
theorem proper_piecesFrom {w : List Char} (hw : ∀ c ∈ w, isWordPart c = true) (cs : List Char) :
    ∀ p ∈ piecesFrom w cs, p.Proper := by
  induction cs generalizing w with
  | nil => exact proper_behindWord hw (by simp)
  | cons c cs ih =>
      have hrest : ∀ p ∈ piecesFrom [] cs, p.Proper := ih (by simp)
      unfold piecesFrom
      split
      · rename_i hc
        refine ih fun d hd => ?_
        rcases List.mem_append.mp hd with hd | hd
        · exact hw d hd
        · rw [List.mem_singleton.mp hd]
          exact hc
      · rename_i hc
        refine proper_behindWord hw fun p hp => ?_
        split at hp
        · exact hrest p hp
        · rename_i hblank
          rcases List.mem_cons.mp hp with rfl | hp
          · exact ⟨by simpa using hc, by simpa using hblank⟩
          · exact hrest p hp

theorem proper_pieces (cs : List Char) : ∀ p ∈ pieces cs, p.Proper := proper_piecesFrom (by simp) cs

/-! ## Pieces are found again -/

theorem piecesFrom_append {w : List Char} (hw : ∀ c ∈ w, isWordPart c = true) (v cs : List Char) :
    piecesFrom v (w ++ cs) = piecesFrom (v ++ w) cs := by
  induction w generalizing v with
  | nil => rw [List.nil_append, List.append_nil]
  | cons c w ih =>
      obtain ⟨hc, hw⟩ := List.forall_mem_cons.mp hw
      rw [List.cons_append, piecesFrom, if_pos hc, ih hw, List.append_assoc, List.singleton_append]

/-- A word ends where no character of a name follows. -/
theorem piecesFrom_of_head {w cs : List Char} (hne : w ≠ []) (h : ∀ c ∈ cs.head?, isWordPart c = false) :
    piecesFrom w cs = .word w :: pieces cs := by
  have hempty : w.isEmpty = false := by simpa using hne
  cases cs with
  | nil => rw [pieces, piecesFrom, piecesFrom, behindWord, hempty]; rfl
  | cons c cs =>
      have hc : ¬isWordPart c = true := by simp [h c rfl]
      rw [pieces, piecesFrom, piecesFrom, if_neg hc, if_neg hc, behindWord, hempty]
      rfl

theorem pieces_mark {c : Char} (hc : (Piece.mark c).Proper) (cs : List Char) :
    pieces (c :: cs) = .mark c :: pieces cs := by
  rw [pieces, piecesFrom, if_neg (by simp [hc.1]), if_neg (by simp [hc.2])]
  rfl

theorem pieces_word {w : List Char} (hw : (Piece.word w).Proper) {cs : List Char}
    (h : ∀ c ∈ cs.head?, isWordPart c = false) : pieces (w ++ cs) = .word w :: pieces cs := by
  rw [pieces, piecesFrom_append hw.2, List.nil_append, piecesFrom_of_head hw.1 h]

/-- No two of the pieces are words that meet. -/
def Parted (ps : List Piece) : Prop := ps.IsChain fun p q => ∀ v w, ¬ (p = .word v ∧ q = .word w)

theorem parted_mark {c : Char} {ps : List Piece} (h : Parted ps) : Parted (.mark c :: ps) :=
  List.isChain_cons.mpr ⟨fun _ _ _ _ hmark => absurd hmark.1 (by simp), h⟩

theorem parted_word {v : List Char} {ps : List Piece} :
    Parted (.word v :: ps) ↔ (∀ w, ps.head? ≠ some (.word w)) ∧ Parted ps := by
  unfold Parted
  rw [List.isChain_cons]
  refine and_congr_left fun _ => ⟨fun h w hw => h _ hw v w ⟨rfl, rfl⟩, ?_⟩
  rintro h q hq u w ⟨-, rfl⟩
  exact h w hq

/-- **Pieces are found again** in their characters, unless two words meet. -/
theorem pieces_spell {ps : List Piece} (hproper : ∀ p ∈ ps, p.Proper) (hparted : Parted ps) :
    pieces (spell ps) = ps := by
  induction ps with
  | nil => rfl
  | cons p ps ih =>
      obtain ⟨hp, hps⟩ := List.forall_mem_cons.mp hproper
      have hrest := ih hps hparted.of_cons
      have hspell : spell (p :: ps) = p.chars ++ spell ps := List.flatMap_cons
      rw [hspell]
      cases p with
      | mark c =>
          show pieces (c :: spell ps) = _
          rw [pieces_mark hp, hrest]
      | word w =>
          refine (pieces_word hp ?_).trans (congrArg (Piece.word w :: ·) hrest)
          -- what follows is a mark
          obtain ⟨hhead, -⟩ := parted_word.mp hparted
          cases ps with
          | nil => exact fun c hc => absurd hc (by simp [spell])
          | cons q qs =>
              cases q with
              | word v => exact absurd rfl (hhead v)
              | mark d =>
                  intro c hc
                  obtain rfl : d = c := by simpa [spell, Piece.chars] using hc
                  exact (List.forall_mem_cons.mp hps).1.1

/-! ## Pieces outside of brackets -/

/-- The pieces outside of all angle brackets; none if these do not match. -/
def outer : Nat → List Piece → Option (List Piece)
  | 0, [] => some []
  | _ + 1, [] => none
  | depth, p :: ps =>
    if p = .mark '<' then outer (depth + 1) ps
    else if p = .mark '>' then
      match depth with
      | 0 => none
      | d + 1 => outer d ps
    else if depth = 0 then (outer depth ps).map (p :: ·)
    else outer depth ps

theorem outer_open (depth : Nat) (ps : List Piece) : outer depth (.mark '<' :: ps) = outer (depth + 1) ps := by
  cases depth <;> rfl

theorem outer_close (depth : Nat) (ps : List Piece) : outer (depth + 1) (.mark '>' :: ps) = outer depth ps := rfl

/-- Inside of brackets a piece is left out. -/
theorem outer_inside {p : Piece} (hopen : p ≠ .mark '<') (hclose : p ≠ .mark '>') (depth : Nat) (ps : List Piece) :
    outer (depth + 1) (p :: ps) = outer (depth + 1) ps := by
  rw [outer, if_neg hopen, if_neg hclose]
  rfl

theorem outer_outside {p : Piece} (hopen : p ≠ .mark '<') (hclose : p ≠ .mark '>') (ps : List Piece) :
    outer 0 (p :: ps) = (outer 0 ps).map (p :: ·) := by
  rw [outer, if_neg hopen, if_neg hclose]
  rfl

theorem outsideBrackets_word {w : List Char} (hw : ∀ c ∈ w, isWordPart c = true) (depth : Nat) (cs : List Char) :
    outsideBrackets (depth + 1) (w ++ cs) = outsideBrackets (depth + 1) cs := by
  induction w with
  | nil => rfl
  | cons c w ih =>
      obtain ⟨hc, hw⟩ := List.forall_mem_cons.mp hw
      have hout := isOutside_of_isWordPart hc
      simp only [isOutside, Bool.and_eq_true, bne_iff_ne, ne_eq] at hout
      rw [List.cons_append, outsideBrackets_cons hout.1.2 hout.2, ih hw]
      simp

theorem outsideBrackets_behindWord {w : List Char} (hw : ∀ c ∈ w, isWordPart c = true) {depth : Nat} {cs : List Char}
    {ps : List Piece} (h : outsideBrackets depth cs = (outer depth ps).map spell) :
    outsideBrackets depth (w ++ cs) = (outer depth (behindWord w ps)).map spell := by
  unfold behindWord
  split
  · rename_i hempty
    obtain rfl : w = [] := by simpa using hempty
    exact h
  · cases depth with
    | zero =>
        have hall : w.all isOutside = true := List.all_eq_true.mpr fun c hc => isOutside_of_isWordPart (hw c hc)
        rw [outsideBrackets_of_all hall, outer_outside (by simp) (by simp), h, Option.map_map, Option.map_map]
        rfl
    | succ depth => rw [outsideBrackets_word hw, outer_inside (by simp) (by simp), h]

/-- **The characters outside of brackets** are those of the pieces there. -/
theorem outsideBrackets_piecesFrom {w : List Char} (hw : ∀ c ∈ w, isWordPart c = true) (depth : Nat) (cs : List Char) :
    outsideBrackets depth (w ++ cs) = (outer depth (piecesFrom w cs)).map spell := by
  induction cs generalizing w depth with
  | nil =>
      refine outsideBrackets_behindWord hw ?_
      cases depth <;> rfl
  | cons c cs ih =>
      unfold piecesFrom
      split
      · rename_i hc
        rw [← List.singleton_append, ← List.append_assoc]
        refine ih (fun d hd => ?_) depth
        rcases List.mem_append.mp hd with hd | hd
        · exact hw d hd
        · rw [List.mem_singleton.mp hd]
          exact hc
      · refine outsideBrackets_behindWord hw ?_
        have hrest : ∀ depth, outsideBrackets depth cs = (outer depth (piecesFrom [] cs)).map spell := by
          intro depth
          have hempty : ∀ d ∈ ([] : List Char), isWordPart d = true := by simp
          exact ih hempty depth
        by_cases hopen : c = '<'
        · subst hopen
          rw [if_neg (by decide), outsideBrackets_open, outer_open, hrest]
        · by_cases hclose : c = '>'
          · subst hclose
            rw [if_neg (by decide)]
            cases depth with
            | zero => rfl
            | succ depth => exact (hrest depth).trans (by rw [outer_close])
          · rw [outsideBrackets_cons hopen hclose, hrest]
            by_cases hblank : isBlank c = true
            · rw [if_pos hblank]
              simp [hblank]
            · rw [if_neg hblank]
              cases depth with
              | zero =>
                  rw [outer_outside (by simpa using hopen) (by simpa using hclose), Option.map_map]
                  simp [hblank]
                  rfl
              | succ depth =>
                  rw [outer_inside (by simpa using hopen) (by simpa using hclose)]
                  simp

theorem outsideBrackets_eq (cs : List Char) : outsideBrackets 0 cs = (outer 0 (pieces cs)).map spell := by
  have hempty : ∀ d ∈ ([] : List Char), isWordPart d = true := by simp
  exact outsideBrackets_piecesFrom hempty 0 cs

/-! ## The rules for types -/

/-- The words of Java that are no names. -/
def reservedWords : List String :=
  ["abstract", "assert", "boolean", "break", "byte", "case", "catch", "char", "class", "const", "continue", "default",
    "do", "double", "else", "enum", "extends", "final", "finally", "float", "for", "goto", "if", "implements", "import",
    "instanceof", "int", "interface", "long", "native", "new", "package", "private", "protected", "public", "return",
    "short", "static", "strictfp", "super", "switch", "synchronized", "this", "throw", "throws", "transient", "try",
    "void", "volatile", "while", "_", "true", "false", "null"]

/-- Whether a word is a name in Java. -/
def isIdentifier : List Char → Bool
  | [] => false
  | c :: cs => isNameStart c && cs.all Text.isNamePart && !reservedWords.contains (String.ofList (c :: cs))

/-- What can be written where a type is. -/
inductive Phrase where
  /-- A class or an interface, by its simple name; if it is `closed`, its arguments are written behind it. -/
  | class (name : List Char) (closed : Bool)
  /-- A type, by its erasure: a simple name and dimensions. -/
  | type (erasure : Erased) (isReference : Bool)
  | argument
  | arguments

/-- The word for a primitive type. -/
def Primitive.word (p : Primitive) : Piece := .word p.keyword.toList

/-- `Written k ps`: the pieces `ps` are a phrase `k` by the rules of Java. -/
inductive Written : Phrase → List Piece → Prop where
  | name {w : List Char} (hw : isIdentifier w = true) : Written (.class w false) [.word w]
  | qualified {v w : List Char} {closed : Bool} {ps : List Piece} (h : Written (.class v closed) ps)
      (hw : isIdentifier w = true) : Written (.class w false) (ps ++ [.mark '.', .word w])
  | generic {w : List Char} {ps qs : List Piece} (h : Written (.class w false) ps) (hq : Written .arguments qs) :
      Written (.class w true) (ps ++ .mark '<' :: (qs ++ [.mark '>']))
  | primitive (p : Primitive) : Written (.type ⟨p.keyword.toList, 0⟩ false) [p.word]
  | reference {w : List Char} {closed : Bool} {ps : List Piece} (h : Written (.class w closed) ps) :
      Written (.type ⟨w, 0⟩ true) ps
  | array {e : Erased} {isReference : Bool} {ps : List Piece} (h : Written (.type e isReference) ps) :
      Written (.type ⟨e.base, e.dimensions + 1⟩ true) (ps ++ [.mark '[', .mark ']'])
  | plain {e : Erased} {ps : List Piece} (h : Written (.type e true) ps) : Written .argument ps
  | wildcard : Written .argument [.mark '?']
  | upper {e : Erased} {ps : List Piece} (h : Written (.type e true) ps) :
      Written .argument (.mark '?' :: .word "extends".toList :: ps)
  | lower {e : Erased} {ps : List Piece} (h : Written (.type e true) ps) :
      Written .argument (.mark '?' :: .word "super".toList :: ps)
  | one {ps : List Piece} (h : Written .argument ps) : Written .arguments ps
  | more {ps qs : List Piece} (h : Written .argument ps) (hq : Written .arguments qs) :
      Written .arguments (ps ++ .mark ',' :: qs)

/-- A text is a type of Java with this erasure. -/
def IsType (ps : List Piece) (e : Erased) : Prop := ∃ isReference, Written (.type e isReference) ps

/-- **What is written by the rules** leaves no bracket open: inside of brackets it is left out as a whole. -/
theorem outer_of_written {k : Phrase} {ps : List Piece} (h : Written k ps) (depth : Nat) (rest : List Piece) :
    outer (depth + 1) (ps ++ rest) = outer (depth + 1) rest := by
  induction h generalizing depth rest with
  | name | primitive | wildcard => exact outer_inside (by simp [Primitive.word]) (by simp [Primitive.word]) _ _
  | qualified _ _ ih =>
      rw [List.append_assoc, ih, List.cons_append, outer_inside (by decide) (by decide)]
      exact outer_inside (by simp) (by simp) _ _
  | generic _ _ ih ihq =>
      rw [List.append_assoc, ih, List.cons_append, outer_open, List.append_assoc, ihq]
      exact outer_close _ _
  | array _ ih =>
      rw [List.append_assoc, ih, List.cons_append, outer_inside (by decide) (by decide)]
      exact outer_inside (by decide) (by decide) _ _
  | reference _ ih | plain _ ih | one _ ih => exact ih depth rest
  | upper _ ih | lower _ ih =>
      rw [List.cons_append, outer_inside (by decide) (by decide), List.cons_append, outer_inside (by simp) (by simp)]
      exact ih depth rest
  | more _ _ ih ihq =>
      rw [List.append_assoc, ih, List.cons_append, outer_inside (by decide) (by decide)]
      exact ihq depth rest

/-- The marks of a type. -/
theorem mem_marks_of_written {k : Phrase} {ps : List Piece} (h : Written k ps) {c : Char} (hc : .mark c ∈ ps) :
    c ∈ marks := by
  induction h with
  | name | primitive => exact absurd hc (by simp [Primitive.word])
  | qualified _ _ ih =>
      rcases List.mem_append.mp hc with hc | hc
      · exact ih hc
      · obtain rfl : c = '.' := by simpa using hc
        decide
  | generic _ _ ih ihq =>
      simp only [List.mem_append, List.mem_cons, Piece.mark.injEq, List.not_mem_nil, or_false] at hc
      rcases hc with hc | rfl | hc | rfl
      · exact ih hc
      · decide
      · exact ihq hc
      · decide
  | array _ ih =>
      simp only [List.mem_append, List.mem_cons, Piece.mark.injEq, List.not_mem_nil, or_false] at hc
      rcases hc with hc | rfl | rfl
      · exact ih hc
      · decide
      · decide
  | reference _ ih | plain _ ih | one _ ih => exact ih hc
  | wildcard =>
      obtain rfl : c = '?' := by simpa using hc
      decide
  | upper _ ih | lower _ ih =>
      simp only [List.mem_cons, Piece.mark.injEq, reduceCtorEq, false_or] at hc
      rcases hc with rfl | hc
      · decide
      · exact ih hc
  | more _ _ ih ihq =>
      simp only [List.mem_append, List.mem_cons, Piece.mark.injEq] at hc
      rcases hc with hc | rfl | hc
      · exact ih hc
      · decide
      · exact ihq hc

end JavaRefactor.Types

import JavaRefactor.Proofs.Types.Erasure
import JavaRefactor.Rule.ImportSpec

/-!
# `Proofs.Rule.ImportSpecs` — imports are read from what is written of them

An import is read from free text: blanks, semicolons and the words in front of the path are taken off in a fixed
order. What is left is a path, in which none of them can stand, so that the words put in front of it again are the
only ones that are found.

## Contents
- **Paths.** `of_isPath`, the characters of a path; `two_le_of_isPath` and `qualifier_append`, its parts.
- **Reading.** `parse?_of_word` and `parse?_of_no_word`; **`isPath_of_parse?`**.
- **`spelled`**, a path with the words in front of it; `bare_spelled`: trimming leaves it; and **`parse?_spelled`**.
- **`parse_text`**: an import is read from its text and from its declaration, and its parts make its path.
-/

namespace JavaRefactor.ImportSpec

open Text (trimStart trimEnd stripFront isBlank Trimmed)

/-! ## Paths -/

section Paths

variable {path : List Char} (h : isPath path = true)

include h

theorem mem_of_isPath : '.' ∈ path ∧ Types.isQualified path = true := by
  simpa [isPath] using h

theorem ne_nil_of_isPath : path ≠ [] := List.ne_nil_of_mem (mem_of_isPath h).1

/-- No blank and no semicolon stands in a path. -/
theorem of_isPath {c : Char} (hc : c ∈ path) : isBlank c = false ∧ c ≠ ';' :=
  ⟨Types.isBlank_of_isQualified (mem_of_isPath h).2 c hc,
    Types.ne_of_isQualified (mem_of_isPath h).2 hc (by decide) (by decide)⟩

theorem last_of_isPath : ∀ c ∈ path.getLast?, isBlank c = false ∧ c ≠ ';' :=
  fun _ hc => of_isPath h (List.mem_of_mem_getLast? hc)

/-- A path is at least two names. -/
theorem two_le_of_isPath : 2 ≤ (path.splitOn '.').length := by
  obtain ⟨front, rest, rfl⟩ := List.append_of_mem (mem_of_isPath h).1
  have hfront := List.length_pos_iff.mpr (List.splitOn_ne_nil '.' front)
  have hrest := List.length_pos_iff.mpr (List.splitOn_ne_nil '.' rest)
  rw [List.splitOn_append_cons_self, List.length_append]
  omega

/-- What precedes the last point, the point and the last name are the path. -/
theorem qualifier_append (isStatic : Bool) :
    qualifier ⟨String.ofList path, isStatic⟩ ++ "." ++ simpleName ⟨String.ofList path, isStatic⟩ =
      String.ofList path := by
  obtain ⟨front, hpath, hlast, hfront, rfl | ⟨more, rfl⟩⟩ := Types.exists_qualifiers path
  · -- without qualifiers the path would be its last name, in which there is no point
    rw [List.nil_append] at hpath
    exact absurd (hpath ▸ (mem_of_isPath h).1) hlast
  · have hdrop : path.reverse.dropWhile (· != '.') = '.' :: more.reverse := by
      rw [← List.reverse_inj, ← hfront]
      simp
    unfold qualifier simpleName
    rw [String.toList_ofList, hdrop]
    apply String.toList_injective
    rw [String.toList_append, String.toList_append, String.toList_ofList, String.toList_ofList, String.toList_ofList]
    rw [String.toList_ofList, List.drop_succ_cons, List.drop_zero, List.reverse_reverse]
    exact hpath.symm

end Paths

/-! ## Reading -/

/-- Reads a path behind the word for static members, or without it. -/
def readPath (name : List Char) : Option ImportSpec :=
  match stripFront "static ".toList name with
  | some rest => if isPath (trimmed rest) then some ⟨String.ofList (trimmed rest), true⟩ else none
  | none => if isPath name then some ⟨String.ofList name, false⟩ else none

/-- A text without the blanks around it and around the semicolons at its end. -/
def bare (text : String) : List Char := trimmed (withoutSemicolons (trimmed text.toList))

theorem parse?_of_word {text : String} {rest : List Char} (h : bare text = "import ".toList ++ rest) :
    parse? text = readPath (trimmed rest) := by
  have hword : stripFront "import ".toList (bare text) = some rest := Text.stripFront_eq_some.mpr h
  unfold bare at hword
  unfold parse?
  simp only [hword]
  rfl

theorem parse?_of_no_word {text : String} (h : stripFront "import ".toList (bare text) = none) :
    parse? text = readPath (bare text) := by
  unfold bare at h ⊢
  unfold parse?
  simp only [h]
  rfl

theorem isPath_of_readPath {name : List Char} {s : ImportSpec} (h : readPath name = some s) :
    isPath s.path.toList = true := by
  unfold readPath at h
  split at h <;>
  · obtain ⟨hpath, hs⟩ := Option.ite_none_right_eq_some.mp h
    obtain rfl := Option.some.inj hs
    rwa [String.toList_ofList]

/-- **The path of an import** is one. -/
theorem isPath_of_parse? {text : String} {s : ImportSpec} (h : parse? text = some s) : isPath s.path.toList = true := by
  cases hword : stripFront "import ".toList (bare text) with
  | some rest =>
      rw [parse?_of_word (Text.stripFront_eq_some.mp hword)] at h
      exact isPath_of_readPath h
  | none =>
      rw [parse?_of_no_word hword] at h
      exact isPath_of_readPath h

/-! ## What is written in front of a path -/

/-- A path behind the word for static members, if it is the path of one. -/
def spelled (path : List Char) (isStatic : Bool) : List Char :=
  (if isStatic then "static ".toList else []) ++ path

theorem text_eq (s : ImportSpec) : s.text.toList = spelled s.path.toList s.isStatic := by
  obtain ⟨path, isStatic⟩ := s
  cases isStatic <;> simp [text, spelled, toString]

theorem declaration_eq (s : ImportSpec) :
    s.declaration.toList = "import ".toList ++ spelled s.path.toList s.isStatic ++ [';'] := by
  obtain ⟨path, isStatic⟩ := s
  cases isStatic <;> simp [declaration, spelled, toString]

theorem withoutSemicolons_eq {cs : List Char} (h : ∀ c ∈ cs.getLast?, c ≠ ';') : withoutSemicolons cs = cs := by
  show cs.rdropWhile (· == ';') = cs
  rw [List.rdropWhile_eq_self_iff]
  intro hne
  simpa using h _ (List.getLast?_eq_some_getLast hne)

theorem withoutSemicolons_append (cs : List Char) : withoutSemicolons (cs ++ [';']) = withoutSemicolons cs := by
  show (cs ++ [';']).rdropWhile (· == ';') = cs.rdropWhile (· == ';')
  rw [List.rdropWhile_concat_pos]
  rfl

section Spelled

variable {path : List Char} (h : isPath path = true)

include h

theorem last_spelled (front : List Char) (isStatic : Bool) :
    ∀ c ∈ (front ++ spelled path isStatic).getLast?, isBlank c = false ∧ c ≠ ';' := by
  have hne := ne_nil_of_isPath h
  have hlast : (front ++ spelled path isStatic).getLast? = path.getLast? := by
    unfold spelled
    rw [← List.append_assoc, List.getLast?_append_of_ne_nil _ hne]
  rw [hlast]
  exact last_of_isPath h

/-- No blank stands at either end, with the word for imports in front or without it. -/
theorem trimmed_spelled (front : List Char) (isStatic : Bool) (hfront : front = [] ∨ front = "import ".toList) :
    Trimmed (front ++ spelled path isStatic) where
  front := by
    rcases hfront with rfl | rfl
    · cases isStatic with
      | true => simp [spelled, isBlank]
      | false => exact fun c hc => (of_isPath h (List.mem_of_mem_head? hc)).1
    · simp [isBlank]
  back c hc := (last_spelled h front isStatic c hc).1

theorem readPath_spelled (isStatic : Bool) :
    readPath (spelled path isStatic) = some ⟨String.ofList path, isStatic⟩ := by
  have htrim : trimmed path = path := (Text.trimmed_of_forall fun c hc => (of_isPath h hc).1).trim_eq
  unfold readPath
  cases isStatic with
  | true =>
      have hstatic : stripFront "static ".toList (spelled path true) = some path := Text.stripFront_eq_some.mpr rfl
      rw [hstatic]
      simp only [htrim, h, if_true]
  | false =>
      have hblank : ' ' ∉ path := fun hc => absurd (of_isPath h hc).1 (by decide)
      have hstatic : stripFront "static ".toList (spelled path false) = none :=
        Text.stripFront_eq_none (c := ' ') (by simp) hblank
      rw [hstatic]
      exact if_pos h

/-- **What is spelled out is read**, with the word for imports in front or without it. -/
theorem parse?_spelled {text : String} {isStatic : Bool} {front : List Char}
    (hfront : front = [] ∨ front = "import ".toList) (hbare : bare text = front ++ spelled path isStatic) :
    parse? text = some ⟨String.ofList path, isStatic⟩ := by
  rcases hfront with rfl | rfl
  · have hnone : stripFront "import ".toList (spelled path isStatic) = none := by
      cases isStatic with
      | true => rfl
      | false =>
          have hblank : ' ' ∉ path := fun hc => absurd (of_isPath h hc).1 (by decide)
          exact Text.stripFront_eq_none (c := ' ') (by simp) hblank
    rw [List.nil_append] at hbare
    rw [parse?_of_no_word (by rw [hbare, hnone]), hbare]
    exact readPath_spelled h isStatic
  · have hspelled : trimmed (spelled path isStatic) = spelled path isStatic :=
      (trimmed_spelled h [] isStatic (Or.inl rfl)).trim_eq
    rw [parse?_of_word hbare, hspelled]
    exact readPath_spelled h isStatic

/-- A semicolon behind it makes no difference. -/
theorem bare_spelled {text : String} {isStatic : Bool} {front behind : List Char}
    (hfront : front = [] ∨ front = "import ".toList) (hbehind : behind = [] ∨ behind = [';'])
    (htext : text.toList = front ++ spelled path isStatic ++ behind) : bare text = front ++ spelled path isStatic := by
  have htrimmed := trimmed_spelled h front isStatic hfront
  have hlast := fun c hc => (last_spelled h front isStatic c hc).2
  have hwhole : Trimmed (front ++ spelled path isStatic ++ behind) := by
    rcases hbehind with rfl | rfl
    · rwa [List.append_nil]
    · refine ⟨fun c hc => htrimmed.front c ?_, fun c hc => ?_⟩
      · have hne : front ++ spelled path isStatic ≠ [] :=
          List.append_ne_nil_of_right_ne_nil _ (List.append_ne_nil_of_right_ne_nil _ (ne_nil_of_isPath h))
        rwa [List.head?_append_of_ne_nil _ hne] at hc
      · rw [List.getLast?_append_of_ne_nil _ (by simp)] at hc
        obtain rfl : ';' = c := by simpa using hc
        decide
  have hdrop : withoutSemicolons (front ++ spelled path isStatic ++ behind) = front ++ spelled path isStatic := by
    rcases hbehind with rfl | rfl
    · rw [List.append_nil, withoutSemicolons_eq hlast]
    · rw [withoutSemicolons_append, withoutSemicolons_eq hlast]
  have hall : trimmed text.toList = front ++ spelled path isStatic ++ behind := by
    rw [htext]
    exact hwhole.trim_eq
  unfold bare
  rw [hall, hdrop]
  exact htrimmed.trim_eq

end Spelled

/-! ## The text of an import -/

theorem parse_eq_ok {text : String} {s : ImportSpec} : parse text = .ok s ↔ parse? text = some s := by
  unfold parse
  cases parse? text <;> simp

/-- **An import is read from its text and from its declaration**, whatever it was read from; its qualifier and its
    simple name make its path, which is at least two names and has no blank in it. -/
theorem parse_text {text : String} {s : ImportSpec} (h : parse text = .ok s) :
    (parse s.text = .ok s ∧ parse s.declaration = .ok s) ∧
      s.qualifier ++ "." ++ s.simpleName = s.path ∧
      (2 ≤ (s.path.toList.splitOn '.').length ∧
        ∀ name ∈ s.path.toList.splitOn '.', Types.isSegment name = true) ∧
      ∀ c ∈ s.path.toList, isBlank c = false := by
  have hpath := isPath_of_parse? (parse_eq_ok.mp h)
  have hself : (⟨String.ofList s.path.toList, s.isStatic⟩ : ImportSpec) = s := by rw [String.ofList_toList]
  have htext := text_eq s
  have hdeclaration := declaration_eq s
  refine ⟨⟨parse_eq_ok.mpr ?_, parse_eq_ok.mpr ?_⟩, ?_, ⟨two_le_of_isPath hpath, ?_⟩, ?_⟩
  · rw [← List.nil_append (spelled _ _), ← List.append_nil (_ ++ spelled _ _)] at htext
    have hbare := bare_spelled hpath (Or.inl rfl) (Or.inl rfl) htext
    rw [parse?_spelled hpath (Or.inl rfl) hbare, hself]
  · have hbare := bare_spelled hpath (Or.inr rfl) (Or.inr rfl) hdeclaration
    rw [parse?_spelled hpath (Or.inr rfl) hbare, hself]
  · have hparts := qualifier_append hpath s.isStatic
    rwa [hself, String.ofList_toList] at hparts
  · exact Types.isQualified_iff.mp (mem_of_isPath hpath).2
  · exact fun c hc => (of_isPath hpath hc).1

/-- A static import in the form of a declaration, with blanks and semicolons to spare. -/
theorem parse_text_static :
    let s : ImportSpec := ⟨"java.util.Objects.checkIndex", true⟩
    parse " import  static java.util.Objects.checkIndex ;;" = .ok s ∧
      (parse s.text = .ok s ∧ parse s.declaration = .ok s) ∧ s.qualifier ++ "." ++ s.simpleName = s.path := by
  intro s
  have h : parse " import  static java.util.Objects.checkIndex ;;" = .ok s := rfl
  exact ⟨h, (parse_text h).1, (parse_text h).2.1⟩

end JavaRefactor.ImportSpec

import JavaRefactor.Proofs.Attempts
import JavaRefactor.Proofs.Types.Erasure
import JavaRefactor.Rule.Predicate

/-!
# `Proofs.Rule.PredicateTexts` — predicates are read from what is written of them

A predicate is a function's name in front of arguments in parentheses. The name of a metavariable is whatever stands
behind the dollar, up to the comma or to the last parenthesis; trimming is all that happens to it. So the names
that can be read are those without a comma, which trimming leaves, and they are read again from where a text puts them.

## Contents
- **Parts.** `variableName?_eq_some`, `splitOnce_eq_some`, `variables?_eq_some`.
- **`Readable`** names, and **`IsRead`**, the predicates that are read from some text: `isRead_of_parse`.
- **Texts.** `splitCall_call`, and **`parse_text_of_isRead`**, by one case for each form.
- **`parse_own_text`**: a predicate that was read is read from its text.
-/

namespace JavaRefactor.Predicate

open JavaRefactor.Types (Constraint)
open Text (trimStart trimEnd stripFront splitOn isBlank Trimmed)

/-! ## Parts -/

theorem variableName?_eq_some {cs : List Char} {name : String} :
    variableName? cs = some name ↔ trimEnd (trimStart cs) = '$' :: name.toList := by
  unfold variableName?
  rw [Option.map_eq_some_iff]
  constructor
  · rintro ⟨rest, hrest, rfl⟩
    rw [String.toList_ofList]
    exact Text.stripFront_eq_some.mp hrest
  · intro h
    exact ⟨name.toList, Text.stripFront_eq_some.mpr h, String.ofList_toList⟩

/-- **A split** is at the first occurrence. -/
theorem splitOnce_eq_some {sep : Char} {cs front rest : List Char} :
    splitOnce sep cs = some (front, rest) ↔ cs = front ++ sep :: rest ∧ sep ∉ front := by
  constructor
  · intro h
    unfold splitOnce at h
    split at h
    · exact absurd h (by simp)
    · rename_i c behind hdrop
      obtain ⟨rfl, rfl⟩ : cs.takeWhile (· != sep) = front ∧ behind = rest := by simpa using h
      have hnot := List.head?_dropWhile_not (· != sep) cs
      rw [hdrop] at hnot
      obtain rfl : c = sep := by simpa using hnot
      refine ⟨?_, fun hmem => absurd (List.mem_takeWhile_imp hmem) (by simp)⟩
      rw [← hdrop, List.takeWhile_append_dropWhile]
  · rintro ⟨rfl, hfront⟩
    have hall : ∀ c ∈ front, (c != sep) = true := fun c hc => by
      rw [bne_iff_ne]
      exact fun he => hfront (he ▸ hc)
    unfold splitOnce
    rw [List.dropWhile_append_of_pos hall, List.takeWhile_append_of_pos hall]
    simp

theorem variables?_eq_some {cs : List Char} {names : List String} :
    variables? cs = some names ↔
      List.Forall₂ (fun piece name => variableName? piece = some name) (cs.splitOn ',') names := by
  unfold variables?
  rw [Text.splitOn_eq, Attempts.mapM_eq_some]

/-! ## Names that can be read -/

/-- No comma stands in the name, and it is left by trimming what stands behind a dollar. -/
structure Readable (name : String) : Prop where
  comma : ',' ∉ name.toList
  trimmed : Trimmed ('$' :: name.toList)

/-- **What is read between commas** is readable. -/
theorem readable_of_variableName? {cs : List Char} {name : String} (h : variableName? cs = some name)
    (hcomma : ',' ∉ cs) : Readable name where
  comma := by
    intro hmem
    refine hcomma (Text.mem_of_mem_trim ?_)
    rw [variableName?_eq_some.mp h]
    exact List.mem_cons_of_mem _ hmem
  trimmed := by
    rw [← variableName?_eq_some.mp h]
    exact Text.trimmed_trim cs

section Readable

variable {name : String} (h : Readable name)

include h

theorem Readable.comma_dollar : ',' ∉ '$' :: name.toList :=
  List.not_mem_cons_of_ne_of_not_mem (by decide) h.comma

theorem Readable.variableName? : Predicate.variableName? ('$' :: name.toList) = some name :=
  variableName?_eq_some.mpr h.trimmed.trim_eq

/-- A blank in front of the dollar makes no difference. -/
theorem Readable.variableName?_blank : Predicate.variableName? (' ' :: '$' :: name.toList) = some name := by
  refine variableName?_eq_some.mpr (Eq.trans ?_ h.trimmed.trim_eq)
  unfold trimStart
  rw [List.dropWhile_cons_of_pos (by decide)]

end Readable

/-! ## Predicates that are read -/

/-- **A predicate that some text gives**: its names are readable, and the excluded type is read from its own text. -/
def IsRead : Predicate → Prop
  | sameType left right => Readable left ∧ Readable right
  | literal name | notLiteral name => Readable name
  | notType name excluded => Readable name ∧ excluded ≠ .any ∧ Constraint.parse? excluded.text = some excluded

theorem readable_of_variables? {cs : List Char} {names : List String} (h : variables? cs = some names) :
    ∀ name ∈ names, Readable name := by
  intro name hname
  obtain ⟨piece, hpiece, hread⟩ := Attempts.exists_of_forall₂ (variables?_eq_some.mp h) hname
  exact readable_of_variableName? hread (Text.not_mem_of_mem_splitOn hpiece)

theorem isRead_of_parseNotType {text : String} {inner : List Char} {p : Predicate}
    (h : parseNotType text inner = .ok p) : IsRead p := by
  unfold parseNotType at h
  split at h
  · exact absurd h (by simp)
  · rename_i first second hsplit
    split at h
    · exact absurd h (by simp)
    · rename_i name hname
      split at h
      · exact absurd h (by simp)
      · exact absurd h (by simp)
      · rename_i excluded hany hconstraint
        obtain rfl := Except.ok.inj h
        exact ⟨readable_of_variableName? hname (splitOnce_eq_some.mp hsplit).2, hany,
          Constraint.parse?_text (Constraint.parse_eq_ok.mp hconstraint) hany⟩

/-- **Whatever is read can be read again.** -/
theorem isRead_of_parse {text : String} {p : Predicate} (h : parse text = .ok p) : IsRead p := by
  unfold parse at h
  split at h
  · exact absurd h (by simp)
  · rename_i function inner hcall
    split at h
    · exact isRead_of_parseNotType h
    · split at h
      · rename_i left right hnames _
        obtain rfl := Except.ok.inj h
        exact ⟨readable_of_variables? hnames left (by simp), readable_of_variables? hnames right (by simp)⟩
      · rename_i name hname _
        obtain rfl := Except.ok.inj h
        exact readable_of_variables? hname name (by simp)
      · rename_i name hname _
        obtain rfl := Except.ok.inj h
        exact readable_of_variables? hname name (by simp)
      · exact absurd h (by simp)

/-! ## Texts of predicates -/

/-- A function's name in front of arguments in parentheses. -/
def call (function inner : List Char) : List Char := function ++ '(' :: (inner ++ [')'])

theorem text_sameType (left right : String) :
    (sameType left right).text.toList =
      call "same_type".toList ('$' :: left.toList ++ ',' :: ' ' :: '$' :: right.toList) := by
  simp [text, toString, call]

theorem text_literal (name : String) :
    (literal name).text.toList = call "literal".toList ('$' :: name.toList) := by
  simp [text, toString, call]

theorem text_notLiteral (name : String) :
    (notLiteral name).text.toList = call "not_literal".toList ('$' :: name.toList) := by
  simp [text, toString, call]

theorem text_notType (name : String) (excluded : Constraint) :
    (notType name excluded).text.toList =
      call "not_type".toList ('$' :: name.toList ++ ',' :: ' ' :: excluded.text.toList) := by
  simp [text, toString, call]

/-- **A call is split** at its first parenthesis and its last: parentheses in the arguments are theirs. -/
theorem splitCall_call {text : String} {function inner : List Char} (h : text.toList = call function inner)
    (hne : function ≠ []) (hall : function.all (fun c => c != '(' && !isBlank c) = true) :
    splitCall text = some (String.ofList function, inner) := by
  have hplain : ∀ c ∈ function, c ≠ '(' ∧ isBlank c = false := by simpa using hall
  have hwhole : Trimmed (call function inner) := by
    refine ⟨fun c hc => ?_, fun c hc => ?_⟩
    · unfold call at hc
      rw [List.head?_append_of_ne_nil _ hne] at hc
      exact (hplain c (List.mem_of_mem_head? hc)).2
    · unfold call at hc
      rw [← List.cons_append, ← List.append_assoc, List.getLast?_concat] at hc
      obtain rfl : ')' = c := by simpa using hc
      decide
  have hsplit : splitOnce '(' (call function inner) = some (function, inner ++ [')']) :=
    splitOnce_eq_some.mpr ⟨rfl, fun hmem => (hplain '(' hmem).1 rfl⟩
  have hback : Text.stripBack [')'] (inner ++ [')']) = some inner := Text.stripBack_eq_some.mpr rfl
  have hfunction : trimEnd (trimStart function) = function :=
    (Text.trimmed_of_forall fun c hc => (hplain c hc).2).trim_eq
  unfold splitCall
  rw [h, hwhole.trim_eq, hsplit]
  simp only [hback, hfunction, Option.map_some]

theorem variables?_one {name : String} (h : Readable name) : variables? ('$' :: name.toList) = some [name] := by
  rw [variables?_eq_some, List.splitOn_eq_singleton h.comma_dollar]
  exact .cons h.variableName? .nil

theorem variables?_two {left right : String} (hl : Readable left) (hr : Readable right) :
    variables? ('$' :: left.toList ++ ',' :: ' ' :: '$' :: right.toList) = some [left, right] := by
  have hblank : ',' ∉ ' ' :: '$' :: right.toList := List.not_mem_cons_of_ne_of_not_mem (by decide) hr.comma_dollar
  rw [variables?_eq_some, List.splitOn_append_cons_self_of_not_mem hl.comma_dollar, List.splitOn_eq_singleton hblank]
  exact .cons hl.variableName? (.cons hr.variableName?_blank .nil)

theorem parseNotType_eq {text name : String} {excluded : Constraint} (h : IsRead (notType name excluded)) :
    parseNotType text ('$' :: name.toList ++ ',' :: ' ' :: excluded.text.toList) = .ok (notType name excluded) := by
  obtain ⟨hname, hany, hexcluded⟩ := h
  have hsplit : splitOnce ',' ('$' :: name.toList ++ ',' :: ' ' :: excluded.text.toList) =
      some ('$' :: name.toList, ' ' :: excluded.text.toList) := splitOnce_eq_some.mpr ⟨rfl, hname.comma_dollar⟩
  have hparse : Constraint.parse? (String.ofList (' ' :: excluded.text.toList)) = some excluded := by
    rw [← hexcluded]
    refine Constraint.parse?_congr ?_
    rw [String.toList_ofList]
    unfold trimStart
    rw [List.dropWhile_cons_of_pos (by decide)]
  have hconstraint : Constraint.parse name (String.ofList (' ' :: excluded.text.toList)) = .ok excluded :=
    Constraint.parse_eq_ok.mpr hparse
  unfold parseNotType
  simp only [hsplit, hname.variableName?, hconstraint]

/-- **A predicate that can be read** is read from its text. -/
theorem parse_text_of_isRead {p : Predicate} (h : IsRead p) : parse p.text = .ok p := by
  cases p with
  | sameType left right =>
      have hcall := splitCall_call (text_sameType left right) (by decide) (by decide)
      unfold parse
      simp only [hcall, variables?_two h.1 h.2]
      rfl
  | literal name =>
      have hcall := splitCall_call (text_literal name) (by decide) (by decide)
      unfold parse
      simp only [hcall, variables?_one h]
      rfl
  | notLiteral name =>
      have hcall := splitCall_call (text_notLiteral name) (by decide) (by decide)
      unfold parse
      simp only [hcall, variables?_one h]
      rfl
  | notType name excluded =>
      have hcall := splitCall_call (text_notType name excluded) (by decide) (by decide)
      unfold parse
      simp only [hcall]
      exact parseNotType_eq h

/-- **A predicate is read from its own text**, whatever text it was read from. -/
theorem parse_own_text {text : String} {p : Predicate} (h : parse text = .ok p) : parse p.text = .ok p :=
  parse_text_of_isRead (isRead_of_parse h)

/-- A name with a blank and parentheses in it, and an excluded type that is erased. -/
theorem parse_own_text_notType :
    let p := notType "X (a)" (.reference "Map[]")
    parse " not_type ( $X (a) ,java.util.Map<K, V>[ ])" = .ok p ∧ parse p.text = .ok p := by
  intro p
  have h : parse " not_type ( $X (a) ,java.util.Map<K, V>[ ])" = .ok p := rfl
  exact ⟨h, parse_own_text h⟩

end JavaRefactor.Predicate

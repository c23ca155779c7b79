import JavaRefactor.Types.Oracle

/-!
# `Proofs.Types.Spelling` — the type that a type node spells out

The oracle reads the erasure of a type off the text of its node. Here the erasure is read off the children: type
arguments and qualifiers are dropped, dimensions are counted. Where the parts of a type are what they are in Java
without annotations, both are the same.

## Contents
- **Texts.** `charsOf`, the characters of a node without blanks, and `charsOf_branch`.
- **Brackets.** `closes`, `isName` and `pairs?`, which tell the parts of a type.
- **`spelling?`**, the erasure by the children of a node.
- **`ReadsAs`**, characters that are read as a type whatever follows them, and **`readsAs_of_spelling?`**.
- **`Erased.ofChars?_eq_some_iff`**: the erasure of a type is what stands outside of its angle brackets.
- **`typeOfTypeNode_of_spelling?`**: the oracle reads what is spelled out.
-/

namespace JavaRefactor.Types

open Syntax (Node)
open Text (isBlank)

/-! ## Texts -/

/-- The characters of a node's tokens, blanks left out. -/
def charsOf (n : Node) : List Char := n.normalized.toList.filter (· != ' ')

/-- Blanks between texts make no difference where blanks are left out. -/
theorem filter_intercalate_blank : ∀ texts : List (List Char),
    (List.intercalate [' '] texts).filter (· != ' ') = texts.flatMap fun cs => cs.filter (· != ' ')
  | [] => rfl
  | [text] => by simp
  | text :: next :: texts => by
      rw [List.intercalate_cons_cons, List.filter_append, List.filter_append,
        filter_intercalate_blank (next :: texts)]
      simp

theorem charsOf_eq (n : Node) :
    charsOf n = n.tokens.flatMap fun leaf => leaf.leafText.toList.filter (· != ' ') := by
  unfold charsOf Node.normalized
  rw [String.toList_intercalate]
  show (List.intercalate [' '] _).filter _ = _
  rw [filter_intercalate_blank, List.flatMap_map, List.flatMap_map]

/-- The characters of a branch are those of its children. -/
theorem charsOf_branch (l : Syntax.Label) (cs : List Node) : charsOf (.branch l cs) = cs.flatMap charsOf := by
  rw [charsOf_eq]
  show (Node.tokensAll cs).flatMap _ = _
  induction cs with
  | nil => rfl
  | cons n ns ih => rw [Node.tokensAll, List.flatMap_append, ih, List.flatMap_cons, charsOf_eq n]

/-! ## Brackets -/

/-- Whether the characters close as many angle brackets as are open, the last of them at the end. -/
def closes : Nat → List Char → Bool
  | _, [] => false
  | depth, c :: cs =>
    if c == '<' then closes (depth + 1) cs
    else if c == '>' then (if depth ≤ 1 then cs.isEmpty else closes (depth - 1) cs)
    else closes depth cs

/-- Whether the characters are something in angle brackets. -/
def isBracketed : List Char → Bool
  | '<' :: cs => closes 1 cs
  | _ => false

/-- Whether a character may stand in a name, as far as brackets, points and blanks go. -/
def isNamePart (c : Char) : Bool := !isBlank c && !(['<', '>', '[', ']', '.'].contains c)

/-- Whether the characters are a name. -/
def isName (cs : List Char) : Bool := !cs.isEmpty && cs.all isNamePart

/-- The number of pairs of brackets that the characters are. -/
def pairs? : List Char → Option Nat
  | [] => some 0
  | '[' :: ']' :: cs => (pairs? cs).map (· + 1)
  | _ => none

/-- So many pairs of brackets. -/
def pairs (n : Nat) : List Char := (List.replicate n ['[', ']']).flatten

theorem pairs_add (m n : Nat) : pairs (m + n) = pairs m ++ pairs n := by
  unfold pairs
  rw [← List.replicate_append_replicate, List.flatten_append]

theorem eq_pairs_of_pairs? {cs : List Char} {n : Nat} (h : pairs? cs = some n) : cs = pairs n := by
  induction cs using pairs?.induct generalizing n with
  | case1 =>
      obtain rfl := Option.some.inj h
      rfl
  | case2 cs ih =>
      rw [pairs?] at h
      obtain ⟨k, hk, rfl⟩ := Option.map_eq_some_iff.mp h
      rw [ih hk]
      rfl
  | case3 cs hne hpair =>
      rw [pairs?] at h
      · exact absurd h (by simp)
      · exact hne
      · exact hpair

/-! ## The spelling of a type -/

/-- The erasure of a type by the children of its node, with its simple name; none where an annotation stands
inside the type, and for what is no type. -/
def spelling? : Node → Option Erased
  | .leaf l tr x =>
    let cs := charsOf (.leaf l tr x)
    if (l.kind == .named "type_identifier" || l.kind == .named "boolean_type") && isName cs then some ⟨cs, 0⟩
    else none
  | .branch l [word] =>
    if (l.kind == .named "integral_type" || l.kind == .named "floating_point_type") && isName (charsOf word) then
      some ⟨charsOf word, 0⟩
    else none
  | .branch l [base, more] =>
    match spelling? base with
    | none => none
    | some e =>
      if l.kind == .named "generic_type" && isBracketed (charsOf more) && e.dimensions == 0 then some e
      else if l.kind == .named "array_type" then
        (pairs? (charsOf more)).map fun n => ⟨e.base, e.dimensions + n⟩
      else none
  | .branch l [scope, point, word] =>
    match spelling? scope with
    | none => none
    | some e =>
      if l.kind == .named "scoped_type_identifier" && charsOf point == ['.'] && isName (charsOf word)
          && e.dimensions == 0 then some ⟨charsOf word, 0⟩
      else none
  | _ => none

/-! ## Reading a spelling -/

/-- What stands in angle brackets is left out. -/
theorem outsideBrackets_of_closes {rest : List Char} : ∀ {cs : List Char} {depth : Nat}, 0 < depth →
    closes depth cs = true → outsideBrackets depth (cs ++ rest) = outsideBrackets 0 rest
  | [], depth, _, h => absurd h (by simp [closes])
  | c :: cs, 0, hpos, _ => absurd hpos (Nat.lt_irrefl 0)
  | c :: cs, depth + 1, _, h => by
      unfold closes at h
      rw [List.cons_append, outsideBrackets]
      by_cases hopen : (c == '<') = true
      · rw [if_pos hopen] at h ⊢
        exact outsideBrackets_of_closes (Nat.succ_pos _) h
      · rw [if_neg hopen] at h ⊢
        by_cases hclose : (c == '>') = true
        · rw [if_pos hclose] at h ⊢
          cases depth with
          | zero =>
              -- the last bracket, with which the characters end
              obtain rfl : cs = [] := by simpa using h
              rfl
          | succ depth => exact outsideBrackets_of_closes (Nat.succ_pos _) h
        · rw [if_neg hclose] at h ⊢
          have hinside : (depth + 1 == 0 && !isBlank c) = false := by simp
          rw [hinside]
          exact outsideBrackets_of_closes (Nat.succ_pos _) h

theorem outsideBrackets_of_isBracketed {cs : List Char} (h : isBracketed cs = true) (rest : List Char) :
    outsideBrackets 0 (cs ++ rest) = outsideBrackets 0 rest := by
  unfold isBracketed at h
  split at h
  · rename_i inside
    show outsideBrackets 1 (inside ++ rest) = _
    exact outsideBrackets_of_closes Nat.one_pos h
  · exact absurd h (by simp)

/-- Neither a blank nor an angle bracket. -/
def isOutside (c : Char) : Bool := !isBlank c && c != '<' && c != '>'

/-- What has no angle brackets in it is kept. -/
theorem outsideBrackets_of_all {rest : List Char} : ∀ {cs : List Char}, cs.all isOutside = true →
    outsideBrackets 0 (cs ++ rest) = (outsideBrackets 0 rest).map (cs ++ ·)
  | [], _ => by simp
  | c :: cs, h => by
      rw [List.all_cons, Bool.and_eq_true] at h
      obtain ⟨hc, hcs⟩ := h
      simp only [isOutside, Bool.and_eq_true, Bool.not_eq_true', bne_iff_ne, ne_eq] at hc
      obtain ⟨⟨hblank, hopen⟩, hclose⟩ := hc
      rw [List.cons_append, outsideBrackets, if_neg (by simpa using hopen), if_neg (by simpa using hclose),
        if_pos (by simp [hblank]), outsideBrackets_of_all hcs, Option.map_map]
      rfl

/-- Characters that are read as a type, whatever follows them: qualifiers, a name and dimensions are kept. -/
def ReadsAs (cs : List Char) (e : Erased) : Prop :=
  isName e.base = true ∧ ∃ qualifiers : List Char, (∀ c ∈ qualifiers, c ≠ '[' ∧ c ≠ ']') ∧
    (qualifiers = [] ∨ qualifiers.getLast? = some '.') ∧
    ∀ rest, outsideBrackets 0 (cs ++ rest) =
      (outsideBrackets 0 rest).map (qualifiers ++ e.base ++ pairs e.dimensions ++ ·)

theorem of_isName {cs : List Char} (h : isName cs = true) {c : Char} (hc : c ∈ cs) :
    isOutside c = true ∧ c ≠ '[' ∧ c ≠ ']' ∧ c ≠ '.' := by
  unfold isName at h
  rw [Bool.and_eq_true] at h
  have hpart := List.all_eq_true.mp h.2 c hc
  simp only [isNamePart, Bool.and_eq_true, Bool.not_eq_true', List.contains_eq_mem, List.mem_cons,
    List.not_mem_nil, or_false, decide_eq_false_iff_not, not_or] at hpart
  obtain ⟨hblank, hopen, hclose, hleft, hright, hpoint⟩ := hpart
  exact ⟨by simp [isOutside, hblank, hopen, hclose], hleft, hright, hpoint⟩

theorem all_isOutside_of_isName {cs : List Char} (h : isName cs = true) : cs.all isOutside = true :=
  List.all_eq_true.mpr fun _ hc => (of_isName h hc).1

theorem all_isOutside_pairs (n : Nat) : (pairs n).all isOutside = true := by
  rw [List.all_eq_true]
  intro c hc
  obtain ⟨pair, hpair, hc⟩ := List.mem_flatten.mp hc
  rw [List.eq_of_mem_replicate hpair] at hc
  have hboth : ['[', ']'].all isOutside = true := by decide
  exact List.all_eq_true.mp hboth c hc

namespace ReadsAs

variable {cs : List Char} {e : Erased}

theorem word (h : isName cs = true) : ReadsAs cs ⟨cs, 0⟩ := by
  refine ⟨h, [], by simp, Or.inl rfl, ?_⟩
  intro rest
  rw [outsideBrackets_of_all (all_isOutside_of_isName h)]
  simp [pairs]

theorem generic {more : List Char} (h : ReadsAs cs e) (hmore : isBracketed more = true) :
    ReadsAs (cs ++ more) e := by
  obtain ⟨hname, qualifiers, hplain, hend, hreads⟩ := h
  refine ⟨hname, qualifiers, hplain, hend, ?_⟩
  intro rest
  rw [List.append_assoc, hreads, outsideBrackets_of_isBracketed hmore]

theorem array (h : ReadsAs cs e) (n : Nat) : ReadsAs (cs ++ pairs n) ⟨e.base, e.dimensions + n⟩ := by
  obtain ⟨hname, qualifiers, hplain, hend, hreads⟩ := h
  refine ⟨hname, qualifiers, hplain, hend, ?_⟩
  intro rest
  rw [List.append_assoc, hreads, outsideBrackets_of_all (all_isOutside_pairs n), Option.map_map, pairs_add]
  simp [Function.comp_def]

theorem qualified {word : List Char} (h : ReadsAs cs e) (hdims : e.dimensions = 0) (hword : isName word = true) :
    ReadsAs (cs ++ '.' :: word) ⟨word, 0⟩ := by
  obtain ⟨hname, qualifiers, hplain, -, hreads⟩ := h
  refine ⟨hword, qualifiers ++ e.base ++ ['.'], ?_, Or.inr (by simp), ?_⟩
  · intro c hc
    rcases List.mem_append.mp hc with hc | hc
    · rcases List.mem_append.mp hc with hc | hc
      · exact hplain c hc
      · obtain ⟨-, hleft, hright, -⟩ := of_isName hname hc
        exact ⟨hleft, hright⟩
    · rw [List.mem_singleton.mp hc]
      decide
  · intro rest
    have hall : ('.' :: word).all isOutside = true := by
      rw [List.all_cons, all_isOutside_of_isName hword, Bool.and_true]
      decide
    rw [List.append_assoc, hreads, outsideBrackets_of_all hall, Option.map_map, hdims]
    simp [Function.comp_def, pairs]

end ReadsAs

/-- **The characters of a type that is spelled out** are read as it. -/
theorem readsAs_of_spelling? : ∀ {n : Node} {e : Erased}, spelling? n = some e → ReadsAs (charsOf n) e
  | .leaf l tr x, e, h => by
      simp only [spelling?, Option.ite_none_right_eq_some, Bool.and_eq_true, Option.some.injEq] at h
      obtain ⟨⟨-, hname⟩, rfl⟩ := h
      exact .word hname
  | .branch l [word], e, h => by
      simp only [spelling?, Option.ite_none_right_eq_some, Bool.and_eq_true, Option.some.injEq] at h
      obtain ⟨⟨-, hname⟩, rfl⟩ := h
      rw [charsOf_branch]
      simpa using ReadsAs.word hname
  | .branch l [base, more], e, h => by
      rw [spelling?] at h
      split at h
      · exact absurd h (by simp)
      · rename_i e' hbase
        have hread := readsAs_of_spelling? hbase
        rw [charsOf_branch]
        split at h
        · rename_i hgeneric
          obtain rfl := Option.some.inj h
          simp only [Bool.and_eq_true] at hgeneric
          simpa using hread.generic hgeneric.1.2
        · simp only [Option.ite_none_right_eq_some, Option.map_eq_some_iff] at h
          obtain ⟨-, k, hk, rfl⟩ := h
          have harray := hread.array k
          rw [← eq_pairs_of_pairs? hk] at harray
          simpa using harray
  | .branch l [scope, point, word], e, h => by
      rw [spelling?] at h
      split at h
      · exact absurd h (by simp)
      · rename_i e' hscope
        have hread := readsAs_of_spelling? hscope
        rw [charsOf_branch]
        simp only [Option.ite_none_right_eq_some, Bool.and_eq_true, beq_iff_eq, Option.some.injEq] at h
        obtain ⟨⟨⟨⟨-, hpoint⟩, hname⟩, hdims⟩, rfl⟩ := h
        have hqualified := hread.qualified hdims hname
        rw [List.flatMap_cons, List.flatMap_cons, List.flatMap_cons, hpoint]
        simpa using hqualified
  | .branch l [], e, h => absurd h (by simp [spelling?])
  | .branch l (_ :: _ :: _ :: _ :: _), e, h => absurd h (by simp [spelling?])

/-! ## The type that is read -/

theorem stripPairs_pairs {cs : List Char} (h : ∀ c ∈ cs.head?, c ≠ ']') : ∀ n : Nat,
    stripPairs ((pairs n).reverse ++ cs) = (cs, n)
  | 0 => by
      show stripPairs cs = (cs, 0)
      unfold stripPairs
      split
      · exact absurd rfl (h ']' (by simp))
      · rfl
  | n + 1 => by
      have hsucc : pairs (n + 1) = pairs n ++ ['[', ']'] := pairs_add n 1
      have hshape : (pairs (n + 1)).reverse ++ cs = ']' :: '[' :: ((pairs n).reverse ++ cs) := by
        rw [hsucc, List.reverse_append]
        rfl
      rw [hshape, stripPairs, stripPairs_pairs h n]

theorem eq_of_stripPairs (cs : List Char) : cs = (pairs (stripPairs cs).2).reverse ++ (stripPairs cs).1 := by
  induction cs using stripPairs.induct with
  | case1 cs base n hstrip ih =>
      rw [hstrip] at ih
      have hstep : stripPairs (']' :: '[' :: cs) = (base, n + 1) := by rw [stripPairs, hstrip]
      rw [hstep, pairs_add, List.reverse_append, List.append_assoc]
      show ']' :: '[' :: cs = ']' :: '[' :: ((pairs n).reverse ++ base)
      rw [← ih]
  | case2 cs hne =>
      rw [stripPairs]
      · rfl
      · exact hne

/-- **The erasure of a type** is what stands outside its angle brackets, which ends in its dimensions. -/
theorem Erased.ofChars?_eq_some_iff {cs : List Char} {e : Erased} :
    Erased.ofChars? cs = some e ↔
      outsideBrackets 0 cs = some (e.base ++ pairs e.dimensions) ∧ ∀ c ∈ e.base, c ≠ '[' ∧ c ≠ ']' := by
  constructor
  · intro h
    unfold Erased.ofChars? at h
    split at h
    · exact absurd h (by simp)
    · rename_i out hout
      simp only [Option.ite_none_left_eq_some, Bool.not_eq_true, List.any_eq_false, Bool.or_eq_true,
        beq_iff_eq, not_or, Option.some.injEq] at h
      obtain ⟨hplain, rfl⟩ := h
      refine ⟨?_, fun c hc => hplain c (List.mem_reverse.mp hc)⟩
      have hstrip := congrArg List.reverse (eq_of_stripPairs out.reverse)
      rw [List.reverse_reverse, List.reverse_append, List.reverse_reverse] at hstrip
      rw [hout, ← hstrip]
  · rintro ⟨hout, hplain⟩
    have hhead : ∀ c ∈ e.base.reverse.head?, c ≠ ']' := fun c hc =>
      (hplain c (List.mem_reverse.mp (List.mem_of_mem_head? hc))).2
    have hnone : (e.base.reverse.any fun c => c == '[' || c == ']') = false := by
      rw [List.any_eq_false]
      intro c hc
      obtain ⟨hleft, hright⟩ := hplain c (List.mem_reverse.mp hc)
      simp [hleft, hright]
    unfold Erased.ofChars?
    simp only [hout, List.reverse_append, stripPairs_pairs hhead, hnone, List.reverse_reverse]
    rfl

/-- A name behind qualifiers is the last segment. -/
theorem lastSegment_of_isName {qualifiers name : List Char} (hname : isName name = true)
    (hend : qualifiers = [] ∨ qualifiers.getLast? = some '.') : lastSegment (qualifiers ++ name) = name := by
  have hall : ∀ c ∈ name.reverse, (c != '.') = true := by
    intro c hc
    simpa using (of_isName hname (List.mem_reverse.mp hc)).2.2.2
  have hstop : qualifiers.reverse.takeWhile (· != '.') = [] := by
    rcases hend with rfl | hlast
    · rfl
    · rw [← List.head?_reverse] at hlast
      obtain ⟨front, hfront⟩ := List.head?_eq_some_iff.mp hlast
      rw [hfront]
      rfl
  unfold lastSegment
  rw [List.reverse_append, List.takeWhile_append_of_pos hall, hstop, List.append_nil, List.reverse_reverse]

theorem Erased.simple_of_isName {e : Erased} (h : isName e.base = true) : e.simple = e.base := by
  have hlast : lastSegment ([] ++ e.base) = e.base := lastSegment_of_isName h (Or.inl rfl)
  exact hlast

/-- What is read of characters that spell a type is its name with its dimensions, however it is qualified. -/
theorem ReadsAs.ofChars? {cs : List Char} {e : Erased} (h : ReadsAs cs e) :
    ∃ base, Erased.ofChars? cs = some ⟨base, e.dimensions⟩ ∧ lastSegment base = e.base := by
  obtain ⟨hname, qualifiers, hplain, hend, hreads⟩ := h
  have hout : outsideBrackets 0 cs = some (qualifiers ++ e.base ++ pairs e.dimensions) := by
    have hrest := hreads []
    rw [List.append_nil] at hrest
    rw [hrest]
    simp [outsideBrackets]
  have hnone : ∀ c ∈ qualifiers ++ e.base, c ≠ '[' ∧ c ≠ ']' := by
    intro c hc
    rcases List.mem_append.mp hc with hc | hc
    · exact hplain c hc
    · obtain ⟨-, hleft, hright, -⟩ := of_isName hname hc
      exact ⟨hleft, hright⟩
  exact ⟨qualifiers ++ e.base, Erased.ofChars?_eq_some_iff.mpr ⟨hout, hnone⟩, lastSegment_of_isName hname hend⟩

/-- The type with this erasure. -/
def Erased.toJavaType (e : Erased) : JavaType :=
  match e.primitive? with
  | some p => .primitive p
  | none => .reference e.name

/-- **The oracle reads the type that is spelled out**, but for `var` and what looks like a type variable. -/
theorem typeOfTypeNode_of_spelling? {n : Node} {e : Erased} (h : spelling? n = some e) :
    typeOfTypeNode n = if e.simpleName == "var" || e.isVariable then none else some e.toJavaType := by
  have hread := readsAs_of_spelling? h
  obtain ⟨base, hchars, hbase⟩ := hread.ofChars?
  have hsimple : (Erased.mk base e.dimensions).simple = e.simple := by
    rw [Erased.simple_of_isName hread.1]
    exact hbase
  have hname : (Erased.mk base e.dimensions).simpleName = e.simpleName := congrArg String.ofList hsimple
  have hvariable : (Erased.mk base e.dimensions).isVariable = e.isVariable := by
    unfold Erased.isVariable
    rw [hsimple]
  have hprimitive : (Erased.mk base e.dimensions).primitive? = e.primitive? := by
    unfold Erased.primitive?
    rw [hname]
  have hwhole : (Erased.mk base e.dimensions).name = e.name := by
    unfold Erased.name
    rw [hsimple]
  unfold typeOfTypeNode Erased.toJavaType
  show (match Erased.ofChars? (charsOf n) with | none => none | some e => _) = _
  rw [hchars]
  simp only [hname, hvariable, hprimitive, hwhole]
  split
  · rfl
  · cases e.primitive? with
    | none => rfl
    | some p => rfl

end JavaRefactor.Types

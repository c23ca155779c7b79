import JavaRefactor.Proofs.Java.TypeNodes
import JavaRefactor.Proofs.Types.Erasure

/-!
# `Proofs.Types.Agreement` — the type of a declaration as a constraint

Types are read twice: by the oracle, off the node of a declaration, a cast or the creation of an object, and as the
constraint of a metavariable, off a text. The orders in which words, type variables and dimensions are looked for
differ. For the text of a type in a Java text, both come to the same, so that a metavariable of a type admits whatever
is declared with it.

## Contents
- **`Constraint.type?`**, what a constraint says of a type, and `admits_type?`.
- **`typeOfTypeNode_eq`**: a type with a name in it is read as its constraint.
- **`IsTypeNode`**, the types in a tree, and **`ReadFrom`**, the expressions whose type is read from one.
- **`parse_agrees`**, and `parse_agrees_cast`.
-/

namespace JavaRefactor.Types

open Syntax (Node Tree)
open Text (isBlank isNameStart trimStart trimEnd)

/-! ## Constraints and types -/

namespace Constraint

/-- The type that a constraint asks for, if it asks for one. -/
def type? : Constraint → Option JavaType
  | any => none
  | primitive p => some (.primitive p)
  | reference name => some (.reference name)

theorem type?_eq_none {c : Constraint} : c.type? = none ↔ c = .any := by
  cases c <;> simp [type?]

theorem type?_eq_primitive {c : Constraint} {p : Primitive} : c.type? = some (.primitive p) ↔ c = .primitive p := by
  cases c <;> simp [type?]

theorem type?_eq_reference {c : Constraint} {name : String} :
    c.type? = some (.reference name) ↔ c = .reference name := by
  cases c <;> simp [type?]

/-- **A constraint admits** the type that it asks for. -/
theorem admits_type? (c : Constraint) : c.admits c.type? = true := by
  cases c with
  | any => rfl
  | primitive p => exact beq_self_eq_true _
  | reference name =>
      have hself : isSubtype name name = some true := by
        unfold isSubtype isSubtypeIn
        rw [if_pos (by simp)]
      show (isSubtype name name).getD true = true
      rw [hself]
      rfl

end Constraint

/-! ## Two readings of a text -/

/-- No word for a primitive type is a type variable. -/
theorem Erased.isVariable_of_primitive? {e : Erased} {p : Primitive} (h : e.primitive? = some p) :
    e.isVariable = false := by
  unfold primitive? at h
  obtain ⟨-, hword⟩ := Option.ite_none_right_eq_some.mp h
  have hname : p.keyword = e.simpleName := by
    unfold Primitive.ofKeyword? at hword
    simpa using List.find?_some hword
  have hsimple : e.simple = p.keyword.toList := by
    rw [hname, simpleName, String.toList_ofList]
  have hvariable : isTypeVariable p.keyword.toList = false := by cases p <;> decide
  unfold isVariable
  rw [hsimple, hvariable, Bool.and_false]

/-- The simple name of the type that the text of a node is. -/
def lastName? (n : Node) : Option String := (Erased.ofChars? (charsOf n)).map Erased.simpleName

theorem typeOfTypeNode_congr {n m : Node} (h : charsOf n = charsOf m) : typeOfTypeNode n = typeOfTypeNode m := by
  unfold charsOf at h
  unfold typeOfTypeNode
  rw [h]

/-- Of an erased type the oracle reads what its constraint asks for. -/
theorem typeOfTypeNode_of_erased {n : Node} {e : Erased} (he : Erased.ofChars? (charsOf n) = some e)
    (hvar : lastName? n ≠ some "var") : typeOfTypeNode n = e.constraint.type? := by
  have hname : (e.simpleName == "var") = false := by
    rw [beq_eq_false_iff_ne]
    intro hname
    exact hvar (by rw [lastName?, he, Option.map_some, hname])
  unfold charsOf at he
  unfold typeOfTypeNode Erased.constraint
  rw [he]
  cases hprimitive : e.primitive? with
  | some p => simp [hname, Erased.isVariable_of_primitive? hprimitive, hprimitive, Constraint.type?]
  | none => cases hvariable : e.isVariable <;> simp [hname, hvariable, hprimitive, Constraint.type?]

theorem isBlank_of_isNameStart {c : Char} : isNameStart c = true → isBlank c = false :=
  isBlank_of_class (by decide +kernel)

/-- A text with the start of a name in it is not `?`. -/
theorem trim_ne_question {cs : List Char} (h : ∃ c ∈ cs, isNameStart c = true) : trimEnd (trimStart cs) ≠ ['?'] := by
  obtain ⟨c, hc, hstart⟩ := h
  intro hquestion
  have hmem : c ∈ (trimEnd (trimStart cs)).filter (!isBlank ·) := by
    rw [Text.filter_trim, List.mem_filter]
    exact ⟨hc, by simp [isBlank_of_isNameStart hstart]⟩
  rw [hquestion, List.mem_filter, List.mem_singleton] at hmem
  rw [hmem.1] at hstart
  exact absurd hstart (by decide)

/-- **A type with a name in it** is read as its constraint, unless its name is `var`. -/
theorem typeOfTypeNode_eq {n : Node} {c : Constraint} (hworded : Java.Worded n) (hvar : lastName? n ≠ some "var")
    (hc : Constraint.parse? (String.ofList (charsOf n)) = some c) : typeOfTypeNode n = c.type? := by
  rcases Constraint.parse?_eq_some_iff.mp hc with ⟨hquestion, -⟩ | ⟨-, e, he, -, rfl⟩
  · rw [String.toList_ofList] at hquestion
    exact absurd hquestion (trim_ne_question hworded)
  · rw [String.toList_ofList] at he
    exact typeOfTypeNode_of_erased he hvar

/-! ## Types in a tree -/

/-- A node is a type of a tree: by its kind, by its role in a declaration or an expression, or as what is caught. -/
def IsTypeNode (t : Tree) (n : Node) : Prop :=
  n ∈ t.root.listing ∧
    (typeKinds.any n.isKind = true ∨ n.field = some "type" ∨
      ∃ m ∈ t.root.listing, m.isKind "catch_type" = true ∧ n ∈ m.namedChildren)

/-- **In a Java text** there is a name in every type. -/
theorem IsTypeNode.worded {source : String} {t : Tree} {n : Node} (h : IsTypeNode t n)
    (ht : Java.parse? source = some t) : Java.Worded n := by
  have hwrites := Java.writesTypes_of_parse? ht
  obtain ⟨hn, hkind | hrole | ⟨m, hm, hcaught, hchild⟩⟩ := h
  · exact (hwrites n hn).type (Or.inl hkind)
  · exact (hwrites n hn).type (Or.inr hrole)
  · exact (hwrites m hm).caught hcaught n hchild

/-- The type of an expression is read from a type node of a file: from its own, if it is a cast or creates an object,
    and otherwise from that of a variable's declaration, if it is the name of the variable. With declarations of other
    types for it a name has none. -/
inductive ReadFrom (t : Tree) : Node → Node → Prop where
  | own {m n : Node} (hm : m.category = .cast ∨ m.category = .objectCreation) (hn : m.child? "type" = some n) :
      ReadFrom t m n
  | declared {m n d : Node} {v : Variable} (hm : m.category = .identifier) (hname : m.text? = some v.name)
      (hd : d ∈ t.root.listing) (hv : v ∈ recordedOf d) (hn : v.written.head? = some n)
      (hkept : (Oracle.ofTree t).declaredType v.name = none → typeOfTypeNode n = none) : ReadFrom t m n

/-- Where the types of a variable are written that the oracle looks at. -/
theorem written_of_mem_recordedOf {d : Node} {v : Variable} (h : v ∈ recordedOf d) :
    v.origin.isRecorded = true ∧ (v.written = (d.child? "type").toList ∨
      v.written = ((d.children.find? (·.isKind "catch_type")).map Node.namedChildren).getD []) := by
  have hone : ∀ {origin : Origin} {written : List Node} {n : Node}, origin.isRecorded = true →
      v ∈ variableAt origin written n → v.origin.isRecorded = true ∧ v.written = written := by
    intro origin written n horigin hv
    rw [(mem_variableAt.mp hv).2]
    exact ⟨horigin, rfl⟩
  unfold recordedOf at h
  split at h
  · obtain ⟨_, -, h⟩ := List.mem_flatMap.mp h
    exact (hone rfl h).imp_right Or.inl
  · obtain ⟨_, -, h⟩ := List.mem_flatMap.mp h
    exact (hone rfl h).imp_right Or.inl
  · obtain ⟨_, -, h⟩ := List.mem_flatMap.mp h
    exact (hone rfl h).imp_right Or.inl
  · exact (hone rfl h).imp_right Or.inl
  · exact (hone rfl h).imp_right Or.inl
  · exact (hone rfl h).imp_right Or.inr
  · exact absurd h (by simp)

theorem isTypeNode_of_child? {t : Tree} {m n : Node} (hm : m ∈ t.root.listing) (hn : m.child? "type" = some n) :
    IsTypeNode t n := by
  have hmem := Node.mem_listing_of_mem_children (List.mem_of_find?_eq_some hn)
  exact ⟨Node.mem_listing_trans hm hmem, Or.inr (Or.inl (by simpa using List.find?_some hn))⟩

theorem isTypeNode_of_recorded {t : Tree} {d n : Node} {v : Variable} (hd : d ∈ t.root.listing) (hv : v ∈ recordedOf d)
    (hn : v.written.head? = some n) : IsTypeNode t n := by
  rcases (written_of_mem_recordedOf hv).2 with hwritten | hwritten
  · rw [hwritten, Option.head?_toList] at hn
    exact isTypeNode_of_child? hd hn
  · cases hcaught : d.children.find? (·.isKind "catch_type") with
    | none =>
        rw [hwritten, hcaught] at hn
        exact absurd hn (by simp)
    | some m =>
        rw [hwritten, hcaught] at hn
        have hchild : n ∈ m.namedChildren := List.mem_of_mem_head? hn
        have hm := Node.mem_listing_trans hd (Node.mem_listing_of_mem_children (List.mem_of_find?_eq_some hcaught))
        have hmem := Node.mem_listing_of_mem_children (List.mem_filter.mp hchild).1
        have hkind : m.isKind "catch_type" = true := by simpa using List.find?_some hcaught
        exact ⟨Node.mem_listing_trans hm hmem, Or.inr (Or.inr ⟨m, hm, hkind, hchild⟩)⟩

/-- Types are read from nodes that are types. -/
theorem ReadFrom.isTypeNode {t : Tree} {m n : Node} (h : ReadFrom t m n) (hm : m ∈ t.root.listing) : IsTypeNode t n := by
  cases h with
  | own _ hn => exact isTypeNode_of_child? hm hn
  | declared _ _ hd hv hn _ => exact isTypeNode_of_recorded hd hv hn

/-- **What is read from a type** is known of the expression. -/
theorem ReadFrom.typeOf {t : Tree} {m n : Node} (h : ReadFrom t m n) :
    typeOfTypeNode n = none ∨ (Oracle.ofTree t).typeOf m = typeOfTypeNode n := by
  cases h with
  | own hm hn =>
      refine Or.inr ?_
      cases m with
      | leaf l tr x => exact absurd hn (by simp [Node.child?, Node.children])
      | branch l cs =>
          rw [Oracle.typeOf, typeOfBranch]
          rcases hm with hm | hm
          · rw [hm]
            simp only [hn, Option.bind_some]
          · rw [hm]
            simp only [hn, Option.bind_some]
  | @declared d v hm hname hd hv hn hkept =>
      cases htype : typeOfTypeNode n with
      | none => exact Or.inl rfl
      | some type =>
          refine Or.inr ?_
          have hseen : v.seen = some type := by
            rw [Variable.seen, if_pos (written_of_mem_recordedOf hv).1, hn, Option.bind_some, htype]
          cases hdeclared : (Oracle.ofTree t).declaredType v.name with
          | none => exact absurd (hkept hdeclared) (by simp [htype])
          | some other =>
              -- all declarations of the name agree, this one among them
              obtain ⟨-, hall⟩ := Oracle.declaredType_ofTree.mp hdeclared
              have hsame : type = other := hall d hd type (mem_declarationsOf_recorded.mpr ⟨v, hv, rfl, hseen⟩)
              cases m with
              | branch l cs => exact absurd hname (by simp [Node.text?])
              | leaf l tr x =>
                  obtain rfl : x = v.name := by simpa [Node.text?] using hname
                  rw [Oracle.typeOf, Oracle.typeOfLeaf, hm]
                  simp only [Node.leafText, Node.text?, Option.getD_some]
                  rw [hdeclared, hsame]

/-- **The two readings of a type agree.** The constraint that the text of a type is, is the type that the oracle reads
    off the node; it admits all expressions whose type is read from a node with that text, in whatever file. -/
theorem parse_agrees {source name : String} {t : Tree} {n : Node} {c : Constraint} (ht : Java.parse? source = some t)
    (hn : IsTypeNode t n) (hvar : lastName? n ≠ some "var")
    (hc : Constraint.parse name (String.ofList (charsOf n)) = .ok c) :
    (∀ p, c = .primitive p ↔ typeOfTypeNode n = some (.primitive p)) ∧
      (∀ r, c = .reference r ↔ typeOfTypeNode n = some (.reference r)) ∧
      (c = .any ↔ typeOfTypeNode n = none) ∧
      ∀ t' m n', ReadFrom t' m n' → charsOf n' = charsOf n → c.admits ((Oracle.ofTree t').typeOf m) = true := by
  have htype : typeOfTypeNode n = c.type? := typeOfTypeNode_eq (hn.worded ht) hvar (Constraint.parse_eq_ok.mp hc)
  rw [htype]
  refine ⟨fun p => Constraint.type?_eq_primitive.symm, fun r => Constraint.type?_eq_reference.symm,
    Constraint.type?_eq_none.symm, ?_⟩
  intro t' m n' hread hchars
  have hother : typeOfTypeNode n' = c.type? := (typeOfTypeNode_congr hchars).trans htype
  rcases hread.typeOf with hnone | hsame
  · obtain rfl := Constraint.type?_eq_none.mp (hother.symm.trans hnone)
    rfl
  · rw [hsame, hother]
    exact c.admits_type?

/-- A qualified array type with type arguments in a cast, read as a constraint, and the cast, which it admits. -/
theorem parse_agrees_cast : ∃ t m n,
    Java.parse? "class T { void t(Object x) { f((java.util.Map<K, int[]> [ ]) x); } }" = some t ∧
    IsTypeNode t n ∧ lastName? n ≠ some "var" ∧ m.child? "type" = some n ∧
    Constraint.parse "X" (String.ofList (charsOf n)) = .ok (.reference "Map[]") ∧
    typeOfTypeNode n = some (.reference "Map[]") ∧
    (Constraint.reference "Map[]").admits ((Oracle.ofTree t).typeOf m) = true := by
  have h : ((Java.parse? "class T { void t(Object x) { f((java.util.Map<K, int[]> [ ]) x); } }").any fun t =>
      t.root.listing.any fun m => m.category == .cast && (m.child? "type").any fun n =>
        charsOf n == "java.util.Map<K,int[]>[]".toList) = true := by
    decide +kernel
  obtain ⟨t, ht, h⟩ := (Option.any_eq_true _ _).mp h
  obtain ⟨m, hm, h⟩ := List.any_eq_true.mp h
  obtain ⟨hcast, hn⟩ := (Bool.and_eq_true _ _).mp h
  obtain ⟨n, hn, hchars⟩ := (Option.any_eq_true _ _).mp hn
  have hread : ReadFrom t m n := .own (Or.inl (beq_iff_eq.mp hcast)) hn
  have hnode := hread.isTypeNode hm
  have hvar : lastName? n ≠ some "var" := by
    rw [lastName?, beq_iff_eq.mp hchars]
    decide +kernel
  have hc : Constraint.parse "X" (String.ofList (charsOf n)) = .ok (.reference "Map[]") := by
    rw [beq_iff_eq.mp hchars]
    decide +kernel
  obtain ⟨-, hreference, -, hadmits⟩ := parse_agrees ht hnode hvar hc
  exact ⟨t, m, n, ht, hnode, hvar, hn, hc, (hreference "Map[]").mp rfl, hadmits t m n hread rfl⟩

end JavaRefactor.Types

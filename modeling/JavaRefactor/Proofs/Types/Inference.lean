import JavaRefactor.Java.Parse
import JavaRefactor.Proofs.Syntax.Listing
import JavaRefactor.Proofs.Types.Static
import JavaRefactor.Types.Constraint

/-!
# `Proofs.Types.Inference` — the inferred primitive types against the static ones

The oracle promotes the branches of a choice with `?` like the operands of a sum. So where Java keeps `byte`, `short`
or `char` because both branches fit, the oracle infers `int`. Everywhere else a primitive type that it infers is the
static type of the expression, also around such a choice: any operator promotes what is narrower than `int`.

## Contents
- **`Agrees`**: an inferred type is the static one, or else it is `int` and the static one is narrower.
- **Operators.** `agrees_unary`, `agrees_binary` and `agrees_choice`.
- **`Inferred`**, and **`inferred`**, by recursion on the expression.
- **`typeOf_primitive`**, for the inferred primitive types, and `typeOf_choice_char`, a choice of type `char` that is
  taken for an `int`.
-/

namespace JavaRefactor.Types

open Syntax (Node Literal Category)
open StaticType

/-- **An inferred type and the static one** are the same, or else the inferred one is `int` where the static one is
narrower. The latter may be so only if `loose`. -/
inductive Agrees (loose : Prop) : JavaType → StaticType → Prop where
  | primitive (p : Primitive) : Agrees loose (.primitive p) (primitive p)
  | string : Agrees loose .string string
  | null : Agrees loose .null null
  | narrow {p : Primitive} (hl : loose) (hp : p.isNarrow = true) : Agrees loose (.primitive .int) (primitive p)

namespace Agrees

variable {loose loose' : Prop} {t : JavaType} {τ : StaticType}

theorem weaken (h : Agrees loose t τ) (himp : loose → loose') : Agrees loose' t τ := by
  cases h with
  | primitive p => exact .primitive p
  | string => exact .string
  | null => exact .null
  | narrow hl hp => exact .narrow (himp hl) hp

/-- What is inferred and converts to a primitive type is that type: no wrapper class is inferred. -/
theorem eq_of_primitive? (h : Agrees loose t τ) {p : Primitive} (hp : t.primitive? = some p) :
    t = .primitive p := by
  cases h with
  | primitive | narrow => exact congrArg _ (Option.some.inj hp)
  | string =>
      have hnone : JavaType.string.primitive? = none := by decide
      exact absurd (hnone.symm.trans hp) (by simp)
  | null => exact absurd hp (by simp [JavaType.primitive?])

theorem eq_primitive_boolean (h : Agrees loose .boolean τ) : τ = StaticType.primitive .boolean := by
  cases h with
  | primitive => rfl

theorem string_iff (h : Agrees loose t τ) : t = .string ↔ τ = StaticType.string := by
  cases h with
  | string => simp
  | _ => simp [JavaType.string]

/-- What is inferred to be a primitive type is promoted as the static type is. -/
theorem promoted {p : Primitive} (h : Agrees loose (.primitive p) τ) :
    ∃ q, τ = StaticType.primitive q ∧ q.promoted? = p.promoted? ∧
      (∀ r, Primitive.commonType? q r = p.commonType? r) ∧ (∀ r, Primitive.commonType? r q = r.commonType? p) := by
  cases h with
  | primitive => exact ⟨p, rfl, rfl, fun _ => rfl, fun _ => rfl⟩
  | @narrow q hl hq =>
      refine ⟨q, rfl, ?_⟩
      cases q with
      | byte | short | char =>
          refine ⟨rfl, ?_, ?_⟩
          · intro r
            cases r <;> rfl
          · intro r
            cases r <;> rfl
      | _ => exact absurd hq (by decide)

end Agrees

/-! ## Operators -/

theorem promote_eq (p : Primitive) : promote p = p.promoted?.map .primitive := by
  cases p <;> rfl

theorem binaryPromotion_eq (a b : Primitive) :
    binaryPromotion (.primitive a) (.primitive b) = (a.commonType? b).map .primitive := by
  cases a <;> cases b <;> rfl

section Operators

variable {loose looseRight : Prop} {t t' : JavaType} {α β τ : StaticType}

theorem agrees_unary {op : String} (hop : (op == "!") = false) (h : Agrees loose t α)
    (ht : unaryPromotion t = some t') (hτ : unaryResult? op α = some τ) : Agrees False t' τ := by
  obtain ⟨p, hp, hpromote⟩ := Option.bind_eq_some_iff.mp ht
  obtain rfl := h.eq_of_primitive? hp
  obtain ⟨q, rfl, hsame, -⟩ := h.promoted
  rw [promote_eq, ← hsame] at hpromote
  simp only [unaryResult?, hop, converts?, Option.bind_some] at hτ
  obtain ⟨r, hr, rfl⟩ := Option.map_eq_some_iff.mp hpromote
  rw [hr] at hτ
  obtain rfl := Option.some.inj hτ
  exact .primitive r

/-- Two operands that are computed with as numbers. -/
theorem agrees_promotion (hl : Agrees loose t α) (hr : Agrees looseRight t' β) {u : JavaType} {c : Primitive}
    (hu : binaryPromotion t t' = some u) (hc : operandsType? α β = some c) : u = .primitive c := by
  unfold binaryPromotion at hu
  split at hu
  · rename_i a b ha hb
    obtain rfl := hl.eq_of_primitive? ha
    obtain rfl := hr.eq_of_primitive? hb
    obtain ⟨q, rfl, -, hleft, -⟩ := hl.promoted
    obtain ⟨r, rfl, -, -, hright⟩ := hr.promoted
    have hcommon : a.commonType? b = some c := by
      rw [← hright a, ← hleft r]
      exact hc
    have hpromotion := binaryPromotion_eq a b
    rw [hcommon] at hpromotion
    have hsame : binaryPromotion (.primitive a) (.primitive b) = some u := hu
    rw [hpromotion] at hsame
    exact (Option.some.inj hsame).symm
  · exact absurd hu (by simp)

/-- Two operands that are conditions. -/
theorem agrees_conditions (h : Agrees loose t α) (hα : α.converts? = some .boolean) : t = .boolean := by
  cases h with
  | primitive p => exact congrArg _ (Option.some.inj hα)
  | string | null => exact absurd hα (by simp [converts?])
  | narrow _ hp =>
      obtain rfl := Option.some.inj hα
      exact absurd hp (by decide)

/-- A condition is not computed with as a number. -/
theorem operandsType?_boolean (β : StaticType) : operandsType? (primitive .boolean) β = none := by
  cases β <;> rfl

/-- The type of two operands that are computed with as numbers. -/
def numbersType (left right : Option JavaType) : Option JavaType :=
  match left, right with
  | some l, some r => binaryPromotion l r
  | _, _ => none

/-- What a comparison or a connective results in, whatever is known of its operands. -/
theorem binaryType_condition {op : String} (hop : op ∈ ["==", "!=", "<", ">", "<=", ">=", "&&", "||"])
    (left right : Option JavaType) : binaryType op left right = some .boolean := by
  unfold binaryType
  rw [if_pos (by simpa using hop)]

theorem binaryType_shift {op : String} (hop : op ∈ ["<<", ">>", ">>>"]) (left right : Option JavaType) :
    binaryType op left right = left.bind unaryPromotion := by
  simp only [List.mem_cons, List.not_mem_nil, or_false] at hop
  rcases hop with rfl | rfl | rfl <;> rfl

/-- A sum is a string if one of its operands is known to be one. -/
theorem binaryType_sum (left right : Option JavaType) : binaryType "+" left right =
    if left == some .string || right == some .string then some .string else numbersType left right :=
  rfl

theorem binaryType_bitwise {op : String} (hop : op ∈ ["&", "|", "^"]) (left right : Option JavaType) :
    binaryType op left right =
      if left == some .boolean && right == some .boolean then some .boolean else numbersType left right := by
  simp only [List.mem_cons, List.not_mem_nil, or_false] at hop
  rcases hop with rfl | rfl | rfl <;> rfl

theorem binaryType_arithmetic {op : String} (hop : op ∈ ["-", "*", "/", "%"]) (left right : Option JavaType) :
    binaryType op left right = numbersType left right := by
  simp only [List.mem_cons, List.not_mem_nil, or_false] at hop
  rcases hop with rfl | rfl | rfl | rfl <;> rfl

variable {left right : Option JavaType} {u : JavaType}

/-- Numbers between which an operator stands. -/
theorem agrees_numbers (hl : ∀ t, left = some t → Agrees loose t α)
    (hr : ∀ t, right = some t → Agrees looseRight t β)
    (hu : numbersType left right = some u)
    (hτ : (operandsType? α β).map primitive = some τ) : Agrees False u τ := by
  obtain ⟨c, hc, rfl⟩ := Option.map_eq_some_iff.mp hτ
  cases left with
  | none => exact absurd hu (by simp [numbersType])
  | some l =>
      cases right with
      | none => exact absurd hu (by simp [numbersType])
      | some r =>
          rw [agrees_promotion (hl l rfl) (hr r rfl) hu hc]
          exact .primitive c

/-- **Operators between two operands**, each of which may have no inferred type. -/
theorem agrees_binary {op : String} (hl : ∀ t, left = some t → Agrees loose t α)
    (hr : ∀ t, right = some t → Agrees looseRight t β) (hu : binaryType op left right = some u)
    (hτ : binaryResult? op α β = some τ) : Agrees False u τ := by
  -- a condition, whatever the operands are
  have hcondition : op ∈ ["==", "!=", "<", ">", "<=", ">=", "&&", "||"] → τ = primitive .boolean →
      Agrees False u τ := by
    intro hop hτ
    rw [binaryType_condition hop] at hu
    rw [← Option.some.inj hu, hτ]
    exact .primitive .boolean
  have hequal : ["==", "!="] ⊆ ["==", "!=", "<", ">", "<=", ">=", "&&", "||"] := by decide
  have hless : ["<", ">", "<=", ">="] ⊆ ["==", "!=", "<", ">", "<=", ">=", "&&", "||"] := by decide
  have hconnect : ["&&", "||"] ⊆ ["==", "!=", "<", ">", "<=", ">=", "&&", "||"] := by decide
  unfold binaryResult? at hτ
  simp only [List.contains_eq_mem, decide_eq_true_eq, Bool.and_eq_true, Bool.or_eq_true, beq_iff_eq] at hτ
  split at hτ
  case isTrue hop => exact hcondition (hequal hop) (Option.some.inj hτ).symm
  split at hτ
  case isTrue hop => exact hcondition (hless hop) (Option.some.inj (Option.ite_none_right_eq_some.mp hτ).2).symm
  split at hτ
  case isTrue hop => exact hcondition (hconnect hop) (Option.some.inj (Option.ite_none_right_eq_some.mp hτ).2).symm
  split at hτ
  case isTrue hop =>
    rw [binaryType_shift hop] at hu
    obtain ⟨t, ht, hpromoted⟩ := Option.bind_eq_some_iff.mp hu
    have hnot : (op == "!") = false := by
      rw [beq_eq_false_iff_ne]
      rintro rfl
      exact absurd hop (by decide)
    exact agrees_unary hnot (hl t ht) hpromoted (Option.ite_none_right_eq_some.mp hτ).2
  split at hτ
  case isTrue hop =>
    obtain ⟨rfl, hstring⟩ := hop
    obtain rfl := Option.some.inj hτ
    rw [binaryType_sum] at hu
    split at hu
    · rw [← Option.some.inj hu]
      exact .string
    · rename_i hunknown
      -- both types are inferred, so that one of them is that of strings
      cases left with
      | none => exact absurd hu (by simp [numbersType])
      | some l =>
          cases right with
          | none => exact absurd hu (by simp [numbersType])
          | some r =>
              rw [← (hl l rfl).string_iff, ← (hr r rfl).string_iff] at hstring
              exact absurd (by simpa using hstring) hunknown
  split at hτ
  case isTrue hop =>
    obtain ⟨hop, hconditions⟩ := hop
    obtain ⟨hα, hβ⟩ := (Bool.and_eq_true _ _).mp hconditions
    rw [decide_eq_true_eq] at hα hβ
    obtain rfl := Option.some.inj hτ
    rw [binaryType_bitwise hop] at hu
    split at hu
    · rw [← Option.some.inj hu]
      exact .primitive .boolean
    · rename_i hunknown
      cases left with
      | none => exact absurd hu (by simp [numbersType])
      | some l =>
          cases right with
          | none => exact absurd hu (by simp [numbersType])
          | some r =>
              rw [agrees_conditions (hl l rfl) hα, agrees_conditions (hr r rfl) hβ] at hunknown
              exact absurd (by simp) hunknown
  split at hτ
  case isFalse => exact absurd hτ (by simp)
  case isTrue hsum _ hop =>
    have hgroup : op = "+" ∨ op ∈ ["&", "|", "^"] ∨ op ∈ ["-", "*", "/", "%"] := by
      simp only [List.mem_cons, List.not_mem_nil, or_false] at hop ⊢
      grind
    obtain ⟨c, hc, -⟩ := Option.map_eq_some_iff.mp hτ
    rcases hgroup with rfl | hop | hop
    · rw [binaryType_sum] at hu
      split at hu
      · rename_i hstring
        -- a string is no number
        rcases (Bool.or_eq_true _ _).mp hstring with hleft | hright
        · have hα := (hl _ (beq_iff_eq.mp hleft)).string_iff.mp rfl
          exact absurd ⟨rfl, Or.inl hα⟩ hsum
        · have hβ := (hr _ (beq_iff_eq.mp hright)).string_iff.mp rfl
          exact absurd ⟨rfl, Or.inr hβ⟩ hsum
      · exact agrees_numbers hl hr hu hτ
    · rw [binaryType_bitwise hop] at hu
      split at hu
      · rename_i hboth
        have hα := (hl _ (beq_iff_eq.mp ((Bool.and_eq_true _ _).mp hboth).1)).eq_primitive_boolean
        rw [hα, operandsType?_boolean] at hc
        exact absurd hc (by simp)
      · exact agrees_numbers hl hr hu hτ
    · rw [binaryType_arithmetic hop] at hu
      exact agrees_numbers hl hr hu hτ

/-! ## Choices -/

theorem isNarrow_of_holds {p : Primitive} {k : Int} (h : p.holds k = true) : p.isNarrow = true := by
  cases p with
  | byte | short | char => rfl
  | _ => exact absurd h (by simp [Primitive.holds])

theorem commonType?_self {q c : Primitive} (h : q.commonType? q = some c) :
    c = q ∨ q.isNarrow = true ∧ c = .int := by
  cases q with
  | boolean => exact absurd h (by simp [Primitive.commonType?])
  | byte | short | char => exact Or.inr ⟨rfl, (Option.some.inj h).symm⟩
  | int | long | float | double => exact Or.inl (Option.some.inj h).symm

theorem commonType?_narrow {p : Primitive} (h : p.isNarrow = true) :
    p.commonType? .int = some .int ∧ Primitive.commonType? .int p = some .int := by
  cases p with
  | byte | short | char => exact ⟨rfl, rfl⟩
  | _ => exact absurd h (by decide)

/-- A choice between two types of numbers has the type in which they are computed with, or a narrow one where that
type is `int`. -/
theorem choiceType_numbers {q r c : Primitive} (hne : q ≠ r) (hc : q.commonType? r = some c) (v w : Option Int) :
    ∃ s, choiceType (primitive q) v (primitive r) w = primitive s ∧
      (s = c ∨ s.isNarrow = true ∧ c = .int) := by
  unfold choiceType
  rw [if_neg (by simpa using hne)]
  simp only [converts?, hne, if_false, hc]
  split
  · rename_i hpair
    refine ⟨.short, rfl, Or.inr ⟨rfl, ?_⟩⟩
    rcases (by simpa using hpair : q = .byte ∧ r = .short ∨ q = .short ∧ r = .byte) with ⟨rfl, rfl⟩ | ⟨rfl, rfl⟩
    · exact (Option.some.inj hc).symm
    · exact (Option.some.inj hc).symm
  · split
    · rename_i hconstant
      obtain ⟨hint, hvalue⟩ := (Bool.and_eq_true _ _).mp hconstant
      obtain ⟨k, -, hk⟩ := (Option.any_eq_true _ _).mp hvalue
      have hnarrow := isNarrow_of_holds hk
      rw [StaticType.primitive.inj (of_decide_eq_true hint), (commonType?_narrow hnarrow).1] at hc
      exact ⟨q, rfl, Or.inr ⟨hnarrow, (Option.some.inj hc).symm⟩⟩
    · split
      · rename_i hconstant
        obtain ⟨hint, hvalue⟩ := (Bool.and_eq_true _ _).mp hconstant
        obtain ⟨k, -, hk⟩ := (Option.any_eq_true _ _).mp hvalue
        have hnarrow := isNarrow_of_holds hk
        rw [StaticType.primitive.inj (of_decide_eq_true hint), (commonType?_narrow hnarrow).2] at hc
        exact ⟨r, rfl, Or.inr ⟨hnarrow, (Option.some.inj hc).symm⟩⟩
      · exact ⟨c, rfl, Or.inl rfl⟩

theorem choiceType_self (v w : Option Int) : choiceType α v α w = α := by
  unfold choiceType
  rw [if_pos rfl]

theorem agrees_choice_numbers {q r c : Primitive} (hc : q.commonType? r = some c) (v w : Option Int) :
    Agrees True (.primitive c) (choiceType (primitive q) v (primitive r) w) := by
  by_cases hsame : q = r
  · subst hsame
    rw [choiceType_self]
    rcases commonType?_self hc with rfl | ⟨hnarrow, rfl⟩
    · exact .primitive c
    · exact .narrow trivial hnarrow
  · obtain ⟨s, hs, hcases⟩ := choiceType_numbers hsame hc v w
    rw [hs]
    rcases hcases with rfl | ⟨hnarrow, rfl⟩
    · exact .primitive s
    · exact .narrow trivial hnarrow

/-- **Choices**: the inferred type is the static one, or `int` where that is narrow. -/
theorem agrees_choice (hl : Agrees loose t α) (hr : Agrees looseRight t' β) {u : JavaType} (v w : Option Int)
    (hu : (if t == t' then some t else binaryPromotion t t') = some u) : Agrees True u (choiceType α v β w) := by
  -- types of numbers are promoted alike, whether they are the inferred or the static ones
  have hnumbers : ∀ p p' c : Primitive, t = .primitive p → t' = .primitive p' → p.commonType? p' = some c →
      Agrees True (.primitive c) (choiceType α v β w) := by
    rintro p p' c rfl rfl hc
    obtain ⟨q, rfl, -, hleft, -⟩ := hl.promoted
    obtain ⟨r, rfl, -, -, hright⟩ := hr.promoted
    rw [← hright p, ← hleft r] at hc
    exact agrees_choice_numbers hc v w
  split at hu
  · rename_i hsame
    obtain rfl := beq_iff_eq.mp hsame
    obtain rfl := Option.some.inj hu
    cases hl with
    | primitive p =>
        cases hr with
        | primitive =>
            rw [choiceType_self]
            exact .primitive p
        | narrow => exact hnumbers .int .int .int rfl rfl rfl
    | string =>
        rw [hr.string_iff.mp rfl, choiceType_self]
        exact .string
    | null =>
        cases hr
        rw [choiceType_self]
        exact .null
    | narrow => exact hnumbers .int .int .int rfl rfl rfl
  · unfold binaryPromotion at hu
    split at hu
    · rename_i p p' hp hp'
      have ht := hl.eq_of_primitive? hp
      have ht' := hr.eq_of_primitive? hp'
      have hpromotion : (p.commonType? p').map JavaType.primitive = some u := by
        rw [← binaryPromotion_eq]
        exact hu
      obtain ⟨c, hc, rfl⟩ := Option.map_eq_some_iff.mp hpromotion
      exact hnumbers p p' c ht ht' hc
    · exact absurd hu (by simp)

end Operators

/-! ## What is inferred for each kind of expression -/

section Kinds

variable {o : Oracle} {l : Syntax.Label} {a b c d e : Node}

theorem category_branch {cs : List Node} {k : String} (hk : l.kind = .named k) :
    (Node.branch l cs).category = Category.ofConstruct k "" := by
  show Category.ofKind l.kind _ = _
  rw [hk]
  rfl

theorem typeOf_parens (hk : l.kind = .named "parenthesized_expression") (ha : a.isNamed = false)
    (hb : b.isNamed = true) : o.typeOf (.branch l [a, b, c]) = o.typeOf b := by
  show typeOfBranch _ [(a, o.typeOf a), (b, o.typeOf b), (c, o.typeOf c)] = _
  have hcategory : (Node.branch l [a, b, c]).category = .parenthesized := category_branch hk
  simp [typeOfBranch, hcategory, typeOfFirst, ha, hb]

theorem typeOf_unary (hk : l.kind = .named "unary_expression") (hrole : a.field = some "operator")
    (ha : a.isNamed = false) (hb : b.isNamed = true) : o.typeOf (.branch l [a, b]) =
      a.text?.bind fun op => if op == "!" then some .boolean else (o.typeOf b).bind unaryPromotion := by
  show typeOfBranch _ [(a, o.typeOf a), (b, o.typeOf b)] = _
  have hcategory : (Node.branch l [a, b]).category = .unary := category_branch hk
  have hupdate : (Node.branch l [a, b]).isKind "update_expression" = false := by
    simp [Node.isKind, Node.kind, Node.label, hk]
  simp [typeOfBranch, hcategory, hupdate, typeOfFirst, textAt, Node.child?, Node.namedChildren, Node.children,
    hrole, ha, hb]

theorem typeOf_update_behind (hk : l.kind = .named "update_expression") (ha : a.isNamed = true) :
    o.typeOf (.branch l [a, b]) = o.typeOf a := by
  show typeOfBranch _ [(a, o.typeOf a), (b, o.typeOf b)] = _
  have hcategory : (Node.branch l [a, b]).category = .unary := category_branch hk
  have hupdate : (Node.branch l [a, b]).isKind "update_expression" = true := by
    simp [Node.isKind, Node.kind, Node.label, hk]
  simp [typeOfBranch, hcategory, hupdate, typeOfFirst, Node.namedChildren, Node.children, ha]

theorem typeOf_update_front (hk : l.kind = .named "update_expression") (ha : a.isNamed = false)
    (hb : b.isNamed = true) : o.typeOf (.branch l [a, b]) = o.typeOf b := by
  show typeOfBranch _ [(a, o.typeOf a), (b, o.typeOf b)] = _
  have hcategory : (Node.branch l [a, b]).category = .unary := category_branch hk
  have hupdate : (Node.branch l [a, b]).isKind "update_expression" = true := by
    simp [Node.isKind, Node.kind, Node.label, hk]
  simp [typeOfBranch, hcategory, hupdate, typeOfFirst, Node.namedChildren, Node.children, ha, hb]

theorem typeOf_binary (hk : l.kind = .named "binary_expression")
    (hroles : rolesOf [a, b, c] = [some "left", some "operator", some "right"]) : o.typeOf (.branch l [a, b, c]) =
      b.text?.bind fun op => binaryType op (o.typeOf a) (o.typeOf c) := by
  show typeOfBranch _ [(a, o.typeOf a), (b, o.typeOf b), (c, o.typeOf c)] = _
  have hcategory : (Node.branch l [a, b, c]).category = .binary := category_branch hk
  have hinstance : (Node.branch l [a, b, c]).isKind "instanceof_expression" = false := by
    simp [Node.isKind, Node.kind, Node.label, hk]
  simp only [rolesOf, List.map_cons, List.map_nil, List.cons.injEq, and_true] at hroles
  obtain ⟨ha, hb, hc⟩ := hroles
  simp [typeOfBranch, hcategory, hinstance, typeAt, textAt, Node.child?, Node.children, ha, hb, hc]

theorem typeOf_instanceof (hk : l.kind = .named "instanceof_expression") :
    o.typeOf (.branch l [a, b, c]) = some .boolean := by
  show typeOfBranch _ [(a, o.typeOf a), (b, o.typeOf b), (c, o.typeOf c)] = _
  have hcategory : (Node.branch l [a, b, c]).category = .binary := category_branch hk
  have hinstance : (Node.branch l [a, b, c]).isKind "instanceof_expression" = true := by
    simp [Node.isKind, Node.kind, Node.label, hk]
  simp [typeOfBranch, hcategory, hinstance]

theorem typeOf_assignment (hk : l.kind = .named "assignment_expression") (ha : a.field = some "left") :
    o.typeOf (.branch l [a, b, c]) = o.typeOf a := by
  show typeOfBranch _ [(a, o.typeOf a), (b, o.typeOf b), (c, o.typeOf c)] = _
  have hcategory : (Node.branch l [a, b, c]).category = .assignment := category_branch hk
  simp [typeOfBranch, hcategory, typeAt, ha]

theorem typeOf_cast (hk : l.kind = .named "cast_expression")
    (hroles : rolesOf [a, b, c, d] = [none, some "type", none, some "value"]) :
    o.typeOf (.branch l [a, b, c, d]) = typeOfTypeNode b := by
  show typeOfBranch _ [(a, o.typeOf a), (b, o.typeOf b), (c, o.typeOf c), (d, o.typeOf d)] = _
  have hcategory : (Node.branch l [a, b, c, d]).category = .cast := category_branch hk
  simp only [rolesOf, List.map_cons, List.map_nil, List.cons.injEq, and_true] at hroles
  obtain ⟨ha, hb, -⟩ := hroles
  simp [typeOfBranch, hcategory, Node.child?, Node.children, ha, hb]

theorem typeOf_choice (hk : l.kind = .named "ternary_expression")
    (hroles : rolesOf [a, b, c, d, e] = [some "condition", none, some "consequence", none, some "alternative"]) :
    o.typeOf (.branch l [a, b, c, d, e]) =
      match o.typeOf c, o.typeOf e with
      | some t, some t' => if t == t' then some t else binaryPromotion t t'
      | _, _ => none := by
  show typeOfBranch _ [(a, o.typeOf a), (b, o.typeOf b), (c, o.typeOf c), (d, o.typeOf d), (e, o.typeOf e)] = _
  have hcategory : (Node.branch l [a, b, c, d, e]).category = .ternary := category_branch hk
  simp only [rolesOf, List.map_cons, List.map_nil, List.cons.injEq, and_true] at hroles
  obtain ⟨ha, hb, hc, hd, he⟩ := hroles
  cases o.typeOf c <;> cases o.typeOf e <;> simp [typeOfBranch, hcategory, typeAt, ha, hb, hc, hd, he]

end Kinds

/-! ## Expressions -/

/-- Whether an expression is a choice with `?`, possibly in parentheses. -/
def isChoice : Node → Bool
  | .branch l [_, inner, _] => l.kind == .named "parenthesized_expression" && isChoice inner
  | n => n.isKind "ternary_expression"

theorem isNamed_of_isVariableName {n : Node} (h : isVariableName n = true) : n.isNamed = true := by
  unfold isVariableName at h
  split at h
  · rename_i l _ _ _
    have hk : l.kind = .named "parenthesized_expression" := beq_iff_eq.mp ((Bool.and_eq_true _ _).mp h).1
    simp [Node.isNamed, Node.kind, Node.label, hk, Syntax.Kind.isNamed]
  · have hk := beq_iff_eq.mp h
    simp [Node.isNamed, hk, Syntax.Kind.isNamed]

/-- The name of a variable is no choice. -/
theorem isChoice_of_isVariableName : ∀ {n : Node}, isVariableName n = true → isChoice n = false
  | .branch l [_, inner, _], h => by
      have hinner := ((Bool.and_eq_true _ _).mp h).2
      rw [isChoice, isChoice_of_isVariableName hinner, Bool.and_false]
  | .leaf l tr x, h => by
      have hk := beq_iff_eq.mp h
      show (_ == _) = false
      rw [hk]
      decide
  | .branch l [], h | .branch l [_], h | .branch l [_, _], h | .branch l (_ :: _ :: _ :: _ :: _), h => by
      have hk := beq_iff_eq.mp h
      show (_ == _) = false
      rw [hk]
      decide

/-- Primitive types that are written are read. -/
theorem typeOfTypeNode_of_primitiveOf? {n : Node} {p : Primitive} (h : primitiveOf? n = some p) :
    typeOfTypeNode n = some (.primitive p) := by
  obtain ⟨e, he, hp⟩ := Option.bind_eq_some_iff.mp h
  obtain ⟨-, hkeyword⟩ := Option.ite_none_right_eq_some.mp hp
  have hname : p.keyword = e.simpleName := by simpa using List.find?_some hkeyword
  have hsimple : e.simple = p.keyword.toList := by
    rw [hname, Erased.simpleName, String.toList_ofList]
  have hvar : (e.simpleName == "var") = false := by
    rw [← hname]
    cases p <;> decide
  have hvariable : e.isVariable = false := by
    have hlower : isTypeVariable p.keyword.toList = false := by cases p <;> decide
    rw [Erased.isVariable, hsimple, hlower, Bool.and_false]
  rw [typeOfTypeNode_of_spelling? he, hvar, hvariable, Erased.toJavaType, hp]
  rfl

section Expressions

variable {o : Oracle} {value : Node → Option Int} {l : Syntax.Label} {a b c d e : Node}

/-- Whatever is inferred for an expression agrees with its static type, loosely if the expression is a choice. -/
def Inferred (o : Oracle) (value : Node → Option Int) (n : Node) : Prop :=
  ∀ τ t, staticType? o value n = some τ → o.typeOf n = some t → Agrees (isChoice n = true) t τ

theorem Inferred.variable (h : Inferred o value a) (ha : isVariableName a = true) {τ : StaticType} {t : JavaType}
    (hτ : staticType? o value a = some τ) (ht : o.typeOf a = some t) : Agrees False t τ := by
  refine (h τ t hτ ht).weaken ?_
  rw [isChoice_of_isVariableName ha]
  exact fun hchoice => absurd hchoice (by simp)

theorem inferred_leaf (tr x : String) : Inferred o value (.leaf l tr x) := by
  intro τ t hτ ht
  have hleaf : staticTypeOfLeaf? o (.leaf l tr x) = some τ := hτ
  have hknown : o.typeOfLeaf (.leaf l tr x) = some t := ht
  refine Agrees.weaken ?_ False.elim
  unfold staticTypeOfLeaf? at hleaf
  unfold Oracle.typeOfLeaf at hknown
  split at hleaf
  · rename_i v hv
    rw [hv] at hknown
    rw [← Option.some.inj hleaf, ← Option.some.inj hknown]
    cases v with
    | int | long | float | double | char | boolean => exact .primitive _
    | string => exact .string
    | null => exact .null
  · rename_i hv
    rw [hv] at hknown
    have hdeclared : o.declaredType (Node.leaf l tr x).leafText = some t := hknown
    unfold nameType? at hleaf
    rw [hdeclared] at hleaf
    split at hleaf
    · rename_i p hp
      rw [Option.some.inj hp, ← Option.some.inj hleaf]
      exact .primitive p
    · rename_i t' _ ht'
      obtain ⟨hstring, hτ⟩ := Option.ite_none_right_eq_some.mp hleaf
      rw [Option.some.inj ht', hstring, ← Option.some.inj hτ]
      exact .string
    · exact absurd hleaf (by simp)
  · exact absurd hleaf (by simp)

/-- An operator with its operand. -/
theorem inferred_two (ha : Inferred o value a) (hb : Inferred o value b) : Inferred o value (.branch l [a, b]) := by
  intro τ t hτ ht
  refine Agrees.weaken ?_ False.elim
  rw [staticType?] at hτ
  split at hτ
  · rename_i hunary
    simp only [Bool.and_eq_true, beq_iff_eq, Bool.not_eq_true'] at hunary
    obtain ⟨⟨⟨hk, hroles⟩, hatoken⟩, hbnamed⟩ := hunary
    obtain ⟨op, hop, hτ⟩ := Option.bind_eq_some_iff.mp hτ
    obtain ⟨β, hβ, hτ⟩ := Option.bind_eq_some_iff.mp hτ
    rw [typeOf_unary hk (List.cons.inj hroles).1 hatoken hbnamed, hop, Option.bind_some] at ht
    split at ht
    · rename_i hnot
      rw [unaryResult?, if_pos hnot] at hτ
      rw [← Option.some.inj ht, ← Option.some.inj (Option.ite_none_right_eq_some.mp hτ).2]
      exact .primitive .boolean
    · rename_i hnot
      obtain ⟨u, hu, hpromoted⟩ := Option.bind_eq_some_iff.mp ht
      exact agrees_unary (Bool.eq_false_iff.mpr hnot) (hb β u hβ hu) hpromoted hτ
  · obtain ⟨hupdate, hτ⟩ := Option.ite_none_right_eq_some.mp hτ
    obtain ⟨hk, -⟩ := (Bool.and_eq_true _ _).mp hupdate
    split at hτ
    · rename_i hbehind
      obtain ⟨hvariable, -⟩ := (Bool.and_eq_true _ _).mp hbehind
      rw [typeOf_update_behind (beq_iff_eq.mp hk) (isNamed_of_isVariableName hvariable)] at ht
      exact ha.variable hvariable hτ ht
    · obtain ⟨hfront, hτ⟩ := Option.ite_none_right_eq_some.mp hτ
      obtain ⟨hvariable, hatoken⟩ := (Bool.and_eq_true _ _).mp hfront
      rw [typeOf_update_front (beq_iff_eq.mp hk) (by simpa using hatoken)
        (isNamed_of_isVariableName hvariable)] at ht
      exact hb.variable hvariable hτ ht

/-- Parentheses, and an operator between two operands. -/
theorem inferred_three (ha : Inferred o value a) (hb : Inferred o value b) (hc : Inferred o value c) :
    Inferred o value (.branch l [a, b, c]) := by
  intro τ t hτ ht
  rw [staticType?] at hτ
  split at hτ
  · rename_i hparens
    simp only [Bool.and_eq_true, beq_iff_eq, Bool.not_eq_true'] at hparens
    obtain ⟨⟨hk, hatoken⟩, hbnamed⟩ := hparens
    rw [typeOf_parens hk hatoken hbnamed] at ht
    refine (hb τ t hτ ht).weaken ?_
    intro hchoice
    rw [isChoice, hchoice, hk]
    decide
  · refine Agrees.weaken ?_ False.elim
    split at hτ
    · rename_i hbinary
      simp only [Bool.and_eq_true, beq_iff_eq] at hbinary
      obtain ⟨hk, hroles⟩ := hbinary
      obtain ⟨op, hop, hτ⟩ := Option.bind_eq_some_iff.mp hτ
      obtain ⟨α, hα, hτ⟩ := Option.bind_eq_some_iff.mp hτ
      obtain ⟨β, hβ, hτ⟩ := Option.bind_eq_some_iff.mp hτ
      rw [typeOf_binary hk hroles, hop, Option.bind_some] at ht
      exact agrees_binary (fun u hu => ha α u hα hu) (fun u hu => hc β u hβ hu) ht hτ
    · split at hτ
      · rename_i htest
        simp only [Bool.and_eq_true, beq_iff_eq] at htest
        rw [typeOf_instanceof htest.1] at ht
        obtain ⟨α, -, rfl⟩ := Option.map_eq_some_iff.mp hτ
        rw [← Option.some.inj ht]
        exact .primitive .boolean
      · obtain ⟨hassign, hτ⟩ := Option.ite_none_right_eq_some.mp hτ
        simp only [Bool.and_eq_true, beq_iff_eq] at hassign
        obtain ⟨⟨hk, hroles⟩, hvariable⟩ := hassign
        obtain ⟨β, -, hτ⟩ := Option.bind_eq_some_iff.mp hτ
        rw [typeOf_assignment hk (List.cons.inj hroles).1] at ht
        exact ha.variable hvariable hτ ht

/-- A cast, whatever is cast. -/
theorem inferred_four : Inferred o value (.branch l [a, b, c, d]) := by
  intro τ t hτ ht
  rw [staticType?] at hτ
  obtain ⟨hcast, hτ⟩ := Option.ite_none_right_eq_some.mp hτ
  simp only [Bool.and_eq_true, beq_iff_eq] at hcast
  obtain ⟨hk, hroles⟩ := hcast
  obtain ⟨α, -, hτ⟩ := Option.bind_eq_some_iff.mp hτ
  obtain ⟨p, hp, rfl⟩ := Option.map_eq_some_iff.mp hτ
  rw [typeOf_cast hk hroles, typeOfTypeNode_of_primitiveOf? hp] at ht
  rw [← Option.some.inj ht]
  exact .primitive p

/-- A choice between two branches. -/
theorem inferred_five (hc : Inferred o value c) (he : Inferred o value e) :
    Inferred o value (.branch l [a, b, c, d, e]) := by
  intro τ t hτ ht
  rw [staticType?] at hτ
  obtain ⟨hternary, hτ⟩ := Option.ite_none_right_eq_some.mp hτ
  simp only [Bool.and_eq_true, beq_iff_eq] at hternary
  obtain ⟨hk, hroles⟩ := hternary
  obtain ⟨κ, -, hτ⟩ := Option.bind_eq_some_iff.mp hτ
  obtain ⟨-, hτ⟩ := Option.ite_none_right_eq_some.mp hτ
  obtain ⟨α, hα, hτ⟩ := Option.bind_eq_some_iff.mp hτ
  obtain ⟨β, hβ, hτ⟩ := Option.bind_eq_some_iff.mp hτ
  obtain rfl := Option.some.inj hτ
  rw [typeOf_choice hk hroles] at ht
  split at ht
  · rename_i u u' hu hu'
    refine (agrees_choice (hc α u hα hu) (he β u' hβ hu') (value c) (value e) ht).weaken ?_
    intro _
    exact beq_iff_eq.mpr hk
  · exact absurd ht (by simp)

/-- **Whatever is inferred agrees with the static type.** -/
theorem inferred : ∀ n : Node, Inferred o value n
  | .leaf _ tr x => inferred_leaf tr x
  | .branch _ [a, b] => inferred_two (inferred a) (inferred b)
  | .branch _ [a, b, c] => inferred_three (inferred a) (inferred b) (inferred c)
  | .branch _ [_, _, _, _] => inferred_four
  | .branch _ [_, _, c, _, e] => inferred_five (inferred c) (inferred e)
  | .branch _ [] | .branch _ [_] | .branch _ (_ :: _ :: _ :: _ :: _ :: _ :: _) =>
      fun _ _ hτ => absurd hτ (by simp [staticType?])

end Expressions

/-! ## Primitive types -/

/-- **An inferred primitive type is the static type**, or else it is `int` and the expression is a choice, possibly in
parentheses, whose static type is `byte`, `short` or `char`. -/
theorem typeOf_primitive {o : Oracle} {value : Node → Option Int} {n : Node} {τ : StaticType} {p : Primitive}
    (hτ : staticType? o value n = some τ) (hp : o.typeOf n = some (.primitive p)) :
    τ = .primitive p ∨ isChoice n = true ∧ p = .int ∧ ∃ q, q.isNarrow = true ∧ τ = .primitive q := by
  cases inferred n τ _ hτ hp with
  | primitive => exact Or.inl rfl
  | @narrow q hchoice hq => exact Or.inr ⟨hchoice, rfl, q, hq, rfl⟩

/-- A sum with a choice in it, which is promoted whatever the choice is taken for. -/
theorem typeOf_primitive_sum : ∃ t n,
    Java.parse? "class T \x7b long f(boolean b, char c, long l) \x7b return (b ? c : 'x') + -l; \x7d \x7d" = some t ∧
    n ∈ t.root.listing ∧ n.isKind "binary_expression" = true ∧
    staticType? (.ofTree t) (fun _ => none) n = some (.primitive .long) := by
  have h : ((Java.parse? "class T \x7b long f(boolean b, char c, long l) \x7b return (b ? c : 'x') + -l; \x7d \x7d").any fun t =>
      t.root.listing.any fun n => n.isKind "binary_expression" &&
        (staticType? (.ofTree t) (fun _ => none) n).isSome && !isChoice n &&
        (Oracle.ofTree t).typeOf n == some (.primitive .long)) = true := by
    decide +kernel
  obtain ⟨t, ht, h⟩ := (Option.any_eq_true _ _).mp h
  obtain ⟨n, hn, h⟩ := List.any_eq_true.mp h
  simp only [Bool.and_eq_true, Bool.not_eq_true', beq_iff_eq] at h
  obtain ⟨⟨⟨hkind, hstatic⟩, hchoice⟩, htype⟩ := h
  obtain ⟨τ, hτ⟩ := Option.isSome_iff_exists.mp hstatic
  refine ⟨t, n, ht, hn, hkind, ?_⟩
  rcases typeOf_primitive hτ htype with rfl | ⟨hloose, -⟩
  · exact hτ
  · exact absurd (hchoice.symm.trans hloose) (by simp)

/-- **A `char` that is taken for an `int`.** The constant `1` fits into `char`, so that the choice is of that type,
and yet a metavariable for an `int` admits it. -/
theorem typeOf_choice_char : ∃ t n,
    Java.parse? "class T { char f(boolean b, char c) { return b ? c : 1; } }" = some t ∧ n ∈ t.root.listing ∧
    staticType? (.ofTree t) (fun k => if k.text? = some "1" then some 1 else none) n = some (.primitive .char) ∧
    (Oracle.ofTree t).typeOf n = some (.primitive .int) ∧
    (Constraint.primitive .int).admits ((Oracle.ofTree t).typeOf n) = true := by
  have h : ((Java.parse? "class T { char f(boolean b, char c) { return b ? c : 1; } }").any fun t =>
      t.root.listing.any fun n =>
        staticType? (.ofTree t) (fun k => if k.text? = some "1" then some 1 else none) n ==
          some (.primitive .char) && (Oracle.ofTree t).typeOf n == some (.primitive .int)) = true := by
    decide +kernel
  obtain ⟨t, ht, h⟩ := (Option.any_eq_true _ _).mp h
  obtain ⟨n, hn, h⟩ := List.any_eq_true.mp h
  obtain ⟨hstatic, htype⟩ := (Bool.and_eq_true _ _).mp h
  refine ⟨t, n, ht, hn, beq_iff_eq.mp hstatic, beq_iff_eq.mp htype, ?_⟩
  rw [beq_iff_eq.mp htype]
  rfl

end JavaRefactor.Types

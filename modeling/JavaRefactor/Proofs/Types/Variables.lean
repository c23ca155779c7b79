import JavaRefactor.Java.Parse
import JavaRefactor.Proofs.Types.Declared
import JavaRefactor.Proofs.Types.Spelling

/-!
# `Proofs.Types.Variables` — the variables of a file and the types of names

All that declares a variable in Java, whether the oracle looks at it or not. A name is plainly declared if each of
its variables stands in a declaration that the oracle looks at and has its whole type spelled out in front of it.
Of a plainly declared name the oracle knows a type exactly if all variables of the name have it. Of other names it
may know the type of some variables that is not that of others: a declaration that it skips, or that it cannot
read, leaves no trace.

## Contents
- **`Variable`** with its `Origin`, and `variablesOf`, the variables that a node declares.
- **`Variable.type`**, the erased type by the rules of Java, and **`Variable.seen`**, what the oracle sees of it.
- **`mem_declarationsOf`**: the oracle collects what it sees.
- **`declaredType_iff_of_plain`**, and `declaredType_of_var`, a name that is not plainly declared.
-/

namespace JavaRefactor.Types

open Syntax (Node Tree)

/-! ## Variables -/

/-- How a variable comes to be. -/
inductive Origin where
  /-- By a declaration of variables in a block, a class or an interface. -/
  | declarator
  | parameter
  /-- As the parameter that takes all arguments left. -/
  | rest
  /-- For the elements that a loop goes over. -/
  | element
  | caught
  | resource
  /-- By a test of a value, or as part of a pattern. -/
  | tested
  /-- As a parameter of a lambda expression that stands there without a type. -/
  | inferred
  /-- As a value of an enumeration. -/
  | constant
  deriving DecidableEq, Repr

/-- Whether the oracle looks at such declarations. -/
def Origin.isRecorded : Origin → Bool
  | declarator | parameter | element | caught => true
  | rest | resource | tested | inferred | constant => false

/-- A declared variable: the types written in front of its name, of which there are several only for what is
caught, and the dimensions behind it. -/
structure Variable where
  name : String
  origin : Origin
  written : List Node
  own : Nat

/-- The variable with the name of a node, if it has one. -/
def variableAt (origin : Origin) (written : List Node) (n : Node) : List Variable :=
  ((n.child? "name").bind Node.text?).toList.map fun name =>
    ⟨name, origin, written, ((n.child? "dimensions").map fun ds => (charsOf ds).count '[').getD 0⟩

/-- The kinds of types. -/
def typeKinds : List String :=
  ["type_identifier", "scoped_type_identifier", "generic_type", "array_type", "integral_type",
    "floating_point_type", "boolean_type", "annotated_type"]

/-- The children that are types. -/
def typesIn (n : Node) : List Node := n.children.filter fun c => typeKinds.any c.isKind

/-- The variables called by the names among some nodes. -/
def variablesAmong (origin : Origin) (written ns : List Node) : List Variable :=
  ((ns.filter (·.isKind "identifier")).filterMap Node.text?).map fun name => ⟨name, origin, written, 0⟩

/-- The variables in declarations that the oracle looks at. -/
def recordedOf (n : Node) : List Variable :=
  let type := (n.child? "type").toList
  match n.kind with
  | .named "local_variable_declaration" | .named "field_declaration"
  | .named "constant_declaration" =>
    (n.children.filter (·.isKind "variable_declarator")).flatMap (variableAt .declarator type)
  | .named "formal_parameter" => variableAt .parameter type n
  | .named "enhanced_for_statement" => variableAt .element type n
  | .named "catch_formal_parameter" =>
    variableAt .caught (((n.children.find? (·.isKind "catch_type")).map Node.namedChildren).getD []) n
  | _ => []

/-- The variables in other declarations. -/
def unrecordedOf (n : Node) : List Variable :=
  match n.kind with
  | .named "spread_parameter" =>
    (n.children.filter (·.isKind "variable_declarator")).flatMap (variableAt .rest (typesIn n))
  | .named "resource" => variableAt .resource (n.child? "type").toList n
  | .named "instanceof_expression" => variableAt .tested (n.child? "right").toList n
  | .named "type_pattern" | .named "record_pattern_component" =>
    variablesAmong .tested (typesIn n) n.children
  | .named "lambda_expression" =>
    (n.child? "parameters").toList.flatMap fun p => variablesAmong .inferred [] (p :: p.children)
  | .named "enum_constant" => variableAt .constant [] n
  | _ => []

/-- The variables that a node declares. -/
def variablesOf (n : Node) : List Variable := recordedOf n ++ unrecordedOf n

/-- The variables that a file declares. -/
def variablesIn (t : Tree) : List Variable := t.root.listing.flatMap variablesOf

/-- The names of type parameters in a file. -/
def typeParametersIn (t : Tree) : List String :=
  (t.root.listing.filter (·.isKind "type_parameter")).flatMap fun n =>
    (n.children.filter (·.isKind "type_identifier")).filterMap Node.text?

namespace Variable

/-- The erased type of a variable, where its declaration spells it out: none for `var`, for type variables and
where there is no type or more than one. -/
def type (parameters : List String) (v : Variable) : Option JavaType :=
  match v.written with
  | [n] => (spelling? n).bind fun e =>
    if e.simpleName == "var" || parameters.contains e.simpleName then none
    else some (Erased.toJavaType ⟨e.base, e.dimensions + v.own + if v.origin = .rest then 1 else 0⟩)
  | _ => none

/-- The type that the oracle sees. -/
def seen (v : Variable) : Option JavaType :=
  if v.origin.isRecorded then v.written.head?.bind typeOfTypeNode else none

/-- Whether the oracle looks at the declaration and the whole type is spelled out in front of the name, by a name
that does not look like that of a type variable. -/
def isPlain (parameters : List String) (v : Variable) : Bool :=
  v.origin.isRecorded && v.own == 0 &&
    match v.written with
    | [n] => (spelling? n).any fun e =>
      e.simpleName != "var" && !parameters.contains e.simpleName && !e.isVariable
    | _ => false

/-- **A plain declaration is seen as it is.** -/
theorem seen_of_isPlain {parameters : List String} {v : Variable} (h : v.isPlain parameters = true) :
    v.seen = v.type parameters ∧ (v.type parameters).isSome = true := by
  obtain ⟨name, origin, written, own⟩ := v
  simp only [isPlain, Bool.and_eq_true, beq_iff_eq] at h
  obtain ⟨⟨hrecorded, rfl⟩, hwritten⟩ := h
  split at hwritten
  · rename_i n
    obtain ⟨e, hspelling, he⟩ := (Option.any_eq_true _ _).mp hwritten
    simp only [Bool.and_eq_true, bne_iff_ne, ne_eq, Bool.not_eq_true'] at he
    obtain ⟨⟨hvar, hparameter⟩, hvariable⟩ := he
    have hrest : (if origin = .rest then 1 else 0) = 0 := by
      cases origin with
      | rest => exact absurd hrecorded (by simp [Origin.isRecorded])
      | _ => rfl
    have hseen : typeOfTypeNode n = some e.toJavaType := by
      rw [typeOfTypeNode_of_spelling? hspelling, if_neg (by simp [hvar, hvariable])]
    have hknown : ¬ (e.simpleName == "var" || parameters.contains e.simpleName) = true := by
      rw [hparameter]
      simpa using hvar
    have htype : type parameters ⟨name, origin, [n], 0⟩ = some e.toJavaType := by
      unfold type
      simp only [hspelling, Option.bind_some, hrest]
      rw [if_neg hknown]
      rfl
    rw [htype]
    refine ⟨?_, rfl⟩
    unfold seen
    rw [if_pos hrecorded]
    exact hseen
  · exact absurd hwritten (by simp)

end Variable

/-! ## What the oracle collects -/

section Collected

variable {name : String} {type : JavaType} {origin : Origin} {written : List Node}

theorem mem_variableAt {n : Node} {v : Variable} : v ∈ variableAt origin written n ↔
    (n.child? "name").bind Node.text? = some v.name ∧
      v = ⟨v.name, origin, written, ((n.child? "dimensions").map fun ds => (charsOf ds).count '[').getD 0⟩ := by
  unfold variableAt
  rw [List.mem_map]
  constructor
  · rintro ⟨x, hx, rfl⟩
    exact ⟨Option.mem_toList.mp hx, rfl⟩
  · rintro ⟨hname, hv⟩
    exact ⟨v.name, Option.mem_toList.mpr hname, hv.symm⟩

/-- The variable that a node names is seen with the first type written for it. -/
theorem exists_variableAt {n : Node} (h : origin.isRecorded = true) :
    (∃ v ∈ variableAt origin written n, v.name = name ∧ v.seen = some type) ↔
      (n.child? "name").bind Node.text? = some name ∧ written.head?.bind typeOfTypeNode = some type := by
  constructor
  · rintro ⟨v, hv, rfl, hseen⟩
    obtain ⟨hname, hshape⟩ := mem_variableAt.mp hv
    rw [hshape, Variable.seen, if_pos h] at hseen
    exact ⟨hname, hseen⟩
  · rintro ⟨hname, hseen⟩
    refine ⟨⟨name, origin, written, _⟩, mem_variableAt.mpr ⟨hname, rfl⟩, rfl, ?_⟩
    rw [Variable.seen, if_pos h]
    exact hseen

/-- Of a declaration that the oracle does not look at nothing is seen. -/
theorem seen_of_unrecorded {v : Variable} (hv : v.origin = origin) (h : origin.isRecorded = false) :
    v.seen = none := by
  unfold Variable.seen
  rw [hv, h]
  rfl

theorem origin_of_mem_variableAt {n : Node} {v : Variable} (h : v ∈ variableAt origin written n) :
    v.origin = origin := by
  rw [(mem_variableAt.mp h).2]

theorem origin_of_mem_variablesAmong {ns : List Node} {v : Variable}
    (h : v ∈ variablesAmong origin written ns) : v.origin = origin := by
  obtain ⟨_, -, rfl⟩ := List.mem_map.mp h
  rfl

end Collected

/-- The names of declarators, with the type in front of them if that is known. -/
def typedAll (typed : Option JavaType) (ds : List Node) : List (String × JavaType) :=
  match typed with
  | none => []
  | some t => ds.filterMap fun d => ((d.child? "name").bind Node.text?).map fun name => (name, t)

/-- A name with the type in front of it, if both are known. -/
def typedOne (typed : Option JavaType) (named : Option String) : List (String × JavaType) :=
  match typed, named with
  | some t, some name => [(name, t)]
  | _, _ => []

section Typed

variable {n : Node} {name : String} {type : JavaType} {origin : Origin} {written : List Node}

theorem mem_typedOne {typed : Option JavaType} {named : Option String} :
    (name, type) ∈ typedOne typed named ↔ named = some name ∧ typed = some type := by
  unfold typedOne
  cases typed with
  | none => simp
  | some t =>
      cases named with
      | none => simp
      | some x => simp [eq_comm]

variable {typed : Option JavaType} (hwritten : written.head?.bind typeOfTypeNode = typed)
include hwritten

/-- A name with its type is collected where it is seen. -/
theorem mem_typedOne_variableAt (h : origin.isRecorded = true) :
    (name, type) ∈ typedOne typed ((n.child? "name").bind Node.text?) ↔
      ∃ v ∈ variableAt origin written n, v.name = name ∧ v.seen = some type := by
  rw [mem_typedOne, exists_variableAt h, hwritten]

/-- So are the names of declarators. -/
theorem mem_typedAll_variableAt {ds : List Node} (h : origin.isRecorded = true) :
    (name, type) ∈ typedAll typed ds ↔
      ∃ v ∈ ds.flatMap (variableAt origin written), v.name = name ∧ v.seen = some type := by
  have hone : (name, type) ∈ typedAll typed ds ↔
      ∃ d ∈ ds, (d.child? "name").bind Node.text? = some name ∧ typed = some type := by
    unfold typedAll
    cases typed with
    | none => simp
    | some t =>
        rw [List.mem_filterMap]
        refine exists_congr fun d => and_congr_right fun _ => ?_
        simp only [Option.map_eq_some_iff, Prod.mk.injEq, Option.some.injEq]
        constructor
        · rintro ⟨x, hx, rfl, rfl⟩
          exact ⟨hx, rfl⟩
        · rintro ⟨hx, rfl⟩
          exact ⟨name, hx, rfl, rfl⟩
  rw [hone, ← hwritten]
  constructor
  · rintro ⟨d, hd, hboth⟩
    obtain ⟨v, hv, hseen⟩ := (exists_variableAt h).mpr hboth
    exact ⟨v, List.mem_flatMap.mpr ⟨d, hd, hv⟩, hseen⟩
  · rintro ⟨v, hv, hseen⟩
    obtain ⟨d, hd, hv⟩ := List.mem_flatMap.mp hv
    exact ⟨d, hd, (exists_variableAt h).mp ⟨v, hv, hseen⟩⟩

end Typed

/-- The oracle collects the variables in the declarations that it looks at. -/
theorem mem_declarationsOf_recorded {n : Node} {name : String} {type : JavaType} :
    (name, type) ∈ Oracle.declarationsOf n ↔ ∃ v ∈ recordedOf n, v.name = name ∧ v.seen = some type := by
  have htype : (n.child? "type").toList.head?.bind typeOfTypeNode = (n.child? "type").bind typeOfTypeNode := by
    cases n.child? "type" with
    | none => rfl
    | some c => rfl
  have hcaught : (((n.children.find? (·.isKind "catch_type")).map Node.namedChildren).getD []).head?.bind
      typeOfTypeNode =
      ((n.children.find? (·.isKind "catch_type")).bind (·.namedChildren.head?)).bind typeOfTypeNode := by
    cases n.children.find? (·.isKind "catch_type") with
    | none => rfl
    | some c => rfl
  unfold Oracle.declarationsOf recordedOf
  split
  case h_1 hk | h_2 hk | h_3 hk =>
    simp only [hk]
    have hrecorded : Origin.declarator.isRecorded = true := rfl
    exact mem_typedAll_variableAt htype hrecorded
  case h_4 hk =>
    simp only [hk]
    have hrecorded : Origin.parameter.isRecorded = true := rfl
    exact mem_typedOne_variableAt htype hrecorded
  case h_5 hk =>
    simp only [hk]
    have hrecorded : Origin.element.isRecorded = true := rfl
    exact mem_typedOne_variableAt htype hrecorded
  case h_6 hk =>
    simp only [hk]
    have hrecorded : Origin.caught.isRecorded = true := rfl
    exact mem_typedOne_variableAt hcaught hrecorded
  case h_7 => simp

/-- What stands in other declarations is not seen. -/
theorem seen_of_mem_unrecordedOf {n : Node} {v : Variable} (h : v ∈ unrecordedOf n) : v.seen = none := by
  unfold unrecordedOf at h
  split at h
  · obtain ⟨_, -, h⟩ := List.mem_flatMap.mp h
    exact seen_of_unrecorded (origin_of_mem_variableAt h) rfl
  · exact seen_of_unrecorded (origin_of_mem_variableAt h) rfl
  · exact seen_of_unrecorded (origin_of_mem_variableAt h) rfl
  · exact seen_of_unrecorded (origin_of_mem_variablesAmong h) rfl
  · exact seen_of_unrecorded (origin_of_mem_variablesAmong h) rfl
  · obtain ⟨_, -, h⟩ := List.mem_flatMap.mp h
    exact seen_of_unrecorded (origin_of_mem_variablesAmong h) rfl
  · exact seen_of_unrecorded (origin_of_mem_variableAt h) rfl
  · exact absurd h (by simp)

/-- **The oracle collects what it sees** of the variables that a node declares. -/
theorem mem_declarationsOf {n : Node} {name : String} {type : JavaType} :
    (name, type) ∈ Oracle.declarationsOf n ↔ ∃ v ∈ variablesOf n, v.name = name ∧ v.seen = some type := by
  rw [mem_declarationsOf_recorded]
  constructor
  · rintro ⟨v, hv, hboth⟩
    exact ⟨v, List.mem_append_left _ hv, hboth⟩
  · rintro ⟨v, hv, hname, hseen⟩
    rcases List.mem_append.mp hv with hv | hv
    · exact ⟨v, hv, hname, hseen⟩
    · rw [seen_of_mem_unrecordedOf hv] at hseen
      exact absurd hseen (by simp)

/-! ## Names of a file -/

/-- What the oracle knows of a name in a file, by the variables of that name. -/
theorem declaredType_iff_seen {t : Tree} {name : String} {type : JavaType} :
    (Oracle.ofTree t).declaredType name = some type ↔
      (∃ v ∈ variablesIn t, v.name = name ∧ v.seen = some type) ∧
      ∀ v ∈ variablesIn t, v.name = name → ∀ other, v.seen = some other → other = type := by
  rw [Oracle.declaredType_ofTree]
  simp only [mem_declarationsOf]
  unfold variablesIn
  simp only [List.mem_flatMap]
  constructor
  · rintro ⟨⟨n, hn, v, hv, hboth⟩, hall⟩
    refine ⟨⟨v, ⟨n, hn, hv⟩, hboth⟩, ?_⟩
    rintro w ⟨m, hm, hw⟩ hname other hother
    exact hall m hm other ⟨w, hw, hname, hother⟩
  · rintro ⟨⟨v, ⟨n, hn, hv⟩, hboth⟩, hall⟩
    refine ⟨⟨n, hn, v, hv, hboth⟩, ?_⟩
    rintro m hm other ⟨w, hw, hname, hother⟩
    exact hall w ⟨m, hm, hw⟩ hname other hother

/-- **The type of a plainly declared name** is known exactly if the name is declared and all its variables have
that type. -/
theorem declaredType_iff_of_plain {t : Tree} {name : String}
    (h : ∀ v ∈ variablesIn t, v.name = name → v.isPlain (typeParametersIn t) = true) (type : JavaType) :
    (Oracle.ofTree t).declaredType name = some type ↔
      (∃ v ∈ variablesIn t, v.name = name) ∧
      ∀ v ∈ variablesIn t, v.name = name → v.type (typeParametersIn t) = some type := by
  have hseen : ∀ v ∈ variablesIn t, v.name = name → v.seen = v.type (typeParametersIn t) :=
    fun v hv hname => (Variable.seen_of_isPlain (h v hv hname)).1
  rw [declaredType_iff_seen]
  constructor
  · rintro ⟨⟨v, hv, hname, -⟩, hall⟩
    refine ⟨⟨v, hv, hname⟩, ?_⟩
    intro w hw hwname
    -- a plain declaration has a type, and it is seen
    obtain ⟨other, hother⟩ := Option.isSome_iff_exists.mp (Variable.seen_of_isPlain (h w hw hwname)).2
    have hsame : other = type := hall w hw hwname other ((hseen w hw hwname).trans hother)
    rw [hother, hsame]
  · rintro ⟨⟨v, hv, hname⟩, hall⟩
    refine ⟨⟨v, hv, hname, (hseen v hv hname).trans (hall v hv hname)⟩, ?_⟩
    intro w hw hwname other hother
    rw [hseen w hw hwname, hall w hw hwname] at hother
    exact (Option.some.inj hother).symm

/-- A field and a parameter of one name and type, and a name that two parameters share with different types. -/
theorem declaredType_iff_of_plain_shadowed : ∃ t,
    Java.parse? "class T { List<String> n; void t(java.util.List<Integer> n, int m) {} void u(int[] m) {} }" = some t ∧
    (Oracle.ofTree t).declaredType "n" = some (.reference "List") ∧
    ∀ type, (Oracle.ofTree t).declaredType "m" ≠ some type := by
  have h : ((Java.parse?
      "class T { List<String> n; void t(java.util.List<Integer> n, int m) {} void u(int[] m) {} }").any fun t =>
      (variablesIn t).all (fun v => v.isPlain (typeParametersIn t)) &&
      (variablesIn t).any (·.name == "n") &&
      (variablesIn t).all (fun v => v.name != "n" || v.type (typeParametersIn t) == some (.reference "List")) &&
      (variablesIn t).any (fun v => v.name == "m" && v.type (typeParametersIn t) == some (.primitive .int)) &&
      (variablesIn t).any fun v => v.name == "m" && v.type (typeParametersIn t) == some (.reference "int[]")) = true := by
    decide +kernel
  obtain ⟨t, ht, h⟩ := (Option.any_eq_true _ _).mp h
  simp only [Bool.and_eq_true, List.all_eq_true, List.any_eq_true, beq_iff_eq] at h
  obtain ⟨⟨⟨⟨hplain, v, hv, hname⟩, hlist⟩, w, hw, hwname, hint⟩, u, hu, huname, harray⟩ := h
  refine ⟨t, ht, ?_, ?_⟩
  · refine (declaredType_iff_of_plain (fun v hv _ => hplain v hv) _).mpr ⟨⟨v, hv, hname⟩, ?_⟩
    intro v hv hname
    simpa [hname] using hlist v hv
  · intro type htype
    obtain ⟨-, hall⟩ := (declaredType_iff_of_plain (fun v hv _ => hplain v hv) type).mp htype
    have hfirst := hall w hw hwname
    have hsecond := hall u hu huname
    rw [hint] at hfirst
    rw [harray, ← hfirst] at hsecond
    exact absurd hsecond (by simp)

/-- **A type that not all variables have.** The field is of type `int`, and so is the name, although a local variable
of the name is a string. -/
theorem declaredType_of_var : ∃ t v,
    Java.parse? "class T \x7b int n; void t() \x7b var n = \"s\"; \x7d \x7d" = some t ∧
    v ∈ variablesIn t ∧ v.name = "n" ∧ v.type (typeParametersIn t) ≠ some (.primitive .int) ∧
    (Oracle.ofTree t).declaredType "n" = some (.primitive .int) := by
  have h : ((Java.parse? "class T \x7b int n; void t() \x7b var n = \"s\"; \x7d \x7d").any fun t =>
      (Oracle.ofTree t).declaredType "n" == some (.primitive .int) &&
      (variablesIn t).any fun v => v.name == "n" && v.type (typeParametersIn t) == none) = true := by
    decide +kernel
  obtain ⟨t, ht, h⟩ := (Option.any_eq_true _ _).mp h
  simp only [Bool.and_eq_true, List.any_eq_true, beq_iff_eq] at h
  obtain ⟨hdeclared, v, hv, hname, htype⟩ := h
  exact ⟨t, v, ht, hv, hname, by simp [htype], hdeclared⟩

end JavaRefactor.Types

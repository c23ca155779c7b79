import JavaRefactor.Proofs.Java.Neighbours
import JavaRefactor.Proofs.Java.Symbols

/-!
# `Proofs.Java.StatementLists` — where statements stand side by side

A statement stands in a list of statements, or it is part of a larger construct. There most statements are the
last part or have a token behind them, and a token in front of them too or a condition in parentheses. So two
constructs that stand side by side tell by their kinds that they stand in a list.

## Contents
- **Kinds.** `listKinds`, `statementKinds`, `closingKinds`, `openingKinds`; `isStatementList`, `isStatement`.
- **`Grammar.Checked`**, a layout that the productions of Java keep, and `Checked.ordered_of_parse?`, so that
  the trees of Java texts do.
- **In the tree of a Java text:** `isStatementList_of_closing` and `isStatementList_of_opening`,
  `isStatement_of_mem_list`, and `not_infix_of_label` and `isNamed_false_of_label`, for the labels between
  statements.
-/

namespace JavaRefactor.Java

open Syntax (Node Tree)

/-! ## Kinds -/

/-- The kinds of constructs whose children are statements. -/
def listKinds : List String := ["program", "block", "constructor_body", "switch_block_statement_group"]

/-- The kinds of statements that have a token behind them, or nothing, wherever they are part of another
    construct. -/
def closingKinds : List String :=
  ["labeled_statement", "if_statement", "while_statement", "enhanced_for_statement", "for_statement",
    "do_statement", "assert_statement", "return_statement", "throw_statement", "break_statement",
    "continue_statement", "expression_statement", "yield_statement", "synchronized_statement",
    "try_statement", "try_with_resources_statement", "explicit_constructor_invocation",
    "import_declaration", "package_declaration", "module_declaration"]

/-- The kinds of statements that have a token in front of them, a condition or nothing, wherever they are
    part of another construct. -/
def openingKinds : List String := "local_variable_declaration" :: closingKinds

/-- The kinds of statements and of declarations that stand among them. -/
def statementKinds : List String :=
  openingKinds ++ ["block", "switch_expression", "class_declaration", "record_declaration",
    "interface_declaration", "annotation_type_declaration", "enum_declaration", "method_declaration"]

/-- The kind of the labels of a switch. -/
def labelKind : String := "switch_label"

/-- Whether the children of a node are statements. -/
def isStatementList (n : Node) : Bool := listKinds.contains n.kindName

/-- Whether a node is a statement, or a declaration that stands among statements. -/
def isStatement (n : Node) : Bool := (Trait.among statementKinds).holds n

/-- Whether a node is the label of a branch of a switch. -/
def isLabel (n : Node) : Bool := (Trait.among [labelKind]).holds n

/-- The constructs that are no condition in parentheses. -/
def noCondition : Trait :=
  ⟨fun _ => false, true, fun kind => kind != "parenthesized_expression", false⟩

/-! ## Checks -/

namespace Grammar

open Production

/-- Whether a production that reads behind held nodes yields nodes of their shape. -/
def keepsShape (L : Layout) (of : Symbol → Shape) (kept : Shape) (p : Phrase) : Bool :=
  keeps L of kept p && (shape L of kept p).le kept

theorem keepsShape_only {L : Layout} {of : Symbol → Shape} {kept : Shape} (kinds : List String) :
    keepsShape L of kept (.only kinds .held) = true :=
  Shape.le_refl kept

theorem keepsShape_either {L : Layout} {of : Symbol → Shape} {kept : Shape} {a b : Phrase}
    (ha : keepsShape L of kept a = true) (hb : keepsShape L of kept b = true) :
    keepsShape L of kept (.either a b) = true := by
  obtain ⟨hkeeps, hle⟩ := (Bool.and_eq_true _ _).mp ha
  obtain ⟨hkeeps', hle'⟩ := (Bool.and_eq_true _ _).mp hb
  refine (Bool.and_eq_true _ _).mpr ⟨?_, Shape.join_le hle hle'⟩
  exact (Bool.and_eq_true _ _).mpr ⟨hkeeps, hkeeps'⟩

/-- A layout that the productions of Java keep, by the shapes of their symbols. -/
class Checked (L : Layout) (of : Symbol → Shape) : Prop where
  /-- What an expression starts as, it stays. -/
  level : ∀ place arrow level, of (.expression place arrow level) = of (.operand place arrow)
  symbols : ∀ s ∈ symbols, (keeps L of .none (table s) && (shape L of .none (table s)).le (of s)) = true
  steps : ∀ place ∈ places, ∀ arrow ∈ [true, false], ∀ p ∈ stepsAt place.inner arrow,
    keepsShape L of (of (.operand place arrow)) p = true
  program : admits L "program" (of .program) = true

namespace Checked

variable {L : Layout} {of : Symbol → Shape}

/-- Every production of Java has the shape of its symbol. -/
theorem table (h : Checked L of) : Table L of table := by
  refine forall_symbols ?_ h.symbols
  intro place arrow level
  have hplace : place ∈ places := by cases place <;> decide
  have harrow : arrow ∈ [true, false] := by cases arrow <;> decide
  -- what an operand may grow by, it may grow by again
  have hsteps : keepsShape L of (of (.operand place arrow)) (operatorSteps place.inner arrow level) = true :=
    operatorSteps_of_all (P := fun p => keepsShape L of (of (.operand place arrow)) p = true)
      (keepsShape_only ..) (fun _ _ => keepsShape_either) (h.steps place hplace arrow harrow)
  show ((true && keepsShape L of (of (.operand place arrow)) _) && (of (.operand place arrow)).le _) = true
  rw [h.level place arrow level, Shape.le_refl, hsteps]
  rfl

/-- **The tree of a Java text** keeps the layout. -/
theorem ordered_of_parse? (h : Checked L of) {source : String} {t : Tree} (ht : parse? source = some t) :
    L.Ordered t.root := by
  obtain ⟨ls, trailing, nodes, -, rfl, hd⟩ := derives_of_parse? ht
  have hs : L.Shaped (of .program) nodes := shaped_of_derives h.table hd rfl .nil
  exact .branch hs.ordered (allows_of_admits hs h.program)

end Checked

/-! ## Layouts -/

/-- Only a file may be without a node. -/
def isFile (s : Symbol) : Bool := s == .program

/-- The symbols for statements and for what stands at the top of a file. -/
def startsStatement : Symbol → Bool
  | .statement _ | .typeDeclaration | .topLevel _ | .program => true
  | _ => false

/-- The symbols that yield statements only, or a semicolon. -/
def yieldsStatement (s : Symbol) : Bool :=
  startsStatement s || [.localVariable, .block, .switchExpression, .method].contains s

/-- Behind a statement that closes its construct no construct stands, but in lists. In lists there are
    statements, labels and tokens. -/
def closing : Layout where
  first := .among closingKinds
  second := .named
  item := ⟨fun _ => true, false, (labelKind :: statementKinds).contains, false⟩
  isList := listKinds.contains

/-- In front of a statement that opens its construct no construct but a condition stands, but in lists. -/
def opening : Layout where
  first := noCondition
  second := .among openingKinds
  item := .all
  isList := listKinds.contains

/-- Behind a label no construct stands. -/
def behindLabel : Layout := ⟨.among [labelKind], .named, .all, fun _ => false⟩

/-- In front of a label nothing stands. -/
def beforeLabel : Layout := ⟨.all, .among [labelKind], .all, fun _ => false⟩

instance checked_closing :
    Checked closing fun s => ⟨isFile s, true, startsStatement s, isFile s,
      !(yieldsStatement s || s == .switchLabel)⟩ where
  level _ _ _ := rfl
  symbols := by decide +kernel
  steps := by decide +kernel
  program := by decide +kernel

instance checked_opening :
    Checked opening fun s =>
      ⟨isFile s, startsStatement s || s == .localVariable, s != .parenthesized, isFile s, false⟩ where
  level _ _ _ := rfl
  symbols := by decide +kernel
  steps := by decide +kernel
  program := by decide +kernel

instance checked_behindLabel :
    Checked behindLabel fun s => ⟨isFile s, true, s == .switchLabel, false, false⟩ where
  level _ _ _ := rfl
  symbols := by decide +kernel
  steps := by decide +kernel
  program := by decide +kernel

instance checked_beforeLabel :
    Checked beforeLabel fun s => ⟨isFile s, s == .switchLabel, true, false, false⟩ where
  level _ _ _ := rfl
  symbols := by decide +kernel
  steps := by decide +kernel
  program := by decide +kernel

end Grammar

/-! ## Texts -/

section

variable {source : String} {t : Tree} {m x y : Node} (ht : parse? source = some t) (hm : m ∈ t.root.listing)

include ht hm

/-- **Behind a statement that closes its construct** a construct stands in lists of statements only. -/
theorem isStatementList_of_closing (hxy : [x, y] <:+: m.children)
    (hx : (Trait.among closingKinds).holds x = true) (hy : y.isNamed = true) :
    isStatementList m = true :=
  (Grammar.checked_closing.ordered_of_parse? ht).isList_of_meet hm hxy hx
    (by rw [Grammar.closing, Trait.holds_named, hy])

/-- **In front of a statement that opens its construct** a construct that is no condition stands in lists
    of statements only. -/
theorem isStatementList_of_opening (hxy : [x, y] <:+: m.children) (hx : noCondition.holds x = true)
    (hy : (Trait.among openingKinds).holds y = true) : isStatementList m = true :=
  (Grammar.checked_opening.ordered_of_parse? ht).isList_of_meet hm hxy hx hy

/-- **The constructs of a list of statements** are statements, but for the labels of a switch. -/
theorem isStatement_of_mem_list (hlist : isStatementList m = true) (hx : x ∈ m.children)
    (hnamed : x.isNamed = true) : isStatement x = true ∨ isLabel x = true := by
  have hitem := (Grammar.checked_closing.ordered_of_parse? ht).item_of_isList hm hlist hx
  unfold Trait.holds at hitem
  rw [if_pos hnamed] at hitem
  split at hitem
  · exact absurd hitem (by decide)
  · rename_i hleaf
    have hleaf : x.isLeaf = false := by simpa using hleaf
    rcases List.mem_cons.mp (List.contains_iff_mem.mp hitem) with hlabel | hkind
    · exact Or.inr (Trait.holds_among.mpr ⟨hnamed, hleaf, by simp [hlabel]⟩)
    · exact Or.inl (Trait.holds_among.mpr ⟨hnamed, hleaf, hkind⟩)

/-- **Nothing stands in front of a label**, -/
theorem not_infix_of_label (hlabel : isLabel y = true) : ¬ [x, y] <:+: m.children := by
  intro hxy
  have hlist := (Grammar.checked_beforeLabel.ordered_of_parse? ht).isList_of_meet hm hxy
    (Trait.holds_all x) hlabel
  exact absurd hlist (by simp [Grammar.beforeLabel])

/-- and no construct stands behind it. -/
theorem isNamed_false_of_label (hlabel : isLabel x = true) (hxy : [x, y] <:+: m.children) :
    y.isNamed = false := by
  rw [← Bool.not_eq_true]
  intro hy
  have hlist := (Grammar.checked_behindLabel.ordered_of_parse? ht).isList_of_meet hm hxy hlabel
    (by rw [Grammar.behindLabel, Trait.holds_named, hy])
  exact absurd hlist (by simp [Grammar.behindLabel])

end

end JavaRefactor.Java

import JavaRefactor.Proofs.Java.StatementLists
import JavaRefactor.Proofs.Java.Statements

/-!
# `Proofs.Java.StatementBodies` — where a statement is part of another construct

Outside of lists of statements, a statement that is an expression is the body of a loop, a branch of an `if` or
of a switch, or stands behind a label with a colon. There it is the last part, or `else` or `while` stands
behind it, and where that is so there is a statement of whatever kind.

## Contents
- **`holderKinds`**, the kinds of such constructs, and **`followers`**, the tokens behind a body.
- **In the tree of a Java text:** `parent_of_expressionStatement`, `follows_expressionStatement`,
  `isStatement_of_body`, and `isLabel_head`, `isGroup_of_label`, for the groups of a switch.
-/

namespace JavaRefactor.Java

open Syntax (Node Tree)

/-- The kinds of constructs that are not lists and have statements as parts. -/
def holderKinds : List String :=
  ["labeled_statement", "if_statement", "while_statement", "enhanced_for_statement", "for_statement",
    "do_statement", "switch_rule"]

/-- The kind of a label with the statements behind it. -/
def groupKind : String := "switch_block_statement_group"

/-- The tokens that go on with a construct behind a body. -/
def followers : Trait := ⟨["else", "while"].contains, false, fun _ => false, true⟩

/-- All nodes but the tokens that go on with a construct. -/
def noFollower : Trait := ⟨fun content => !(["else", "while"].contains content), true, fun _ => true, false⟩

/-- The constructs that are no statements. -/
def noStatement : Trait := ⟨fun _ => false, true, fun kind => !statementKinds.contains kind, false⟩

/-- All nodes but labels. -/
def noLabel : Trait := ⟨fun _ => true, true, fun kind => kind != labelKind, false⟩

theorem holds_followers_of_not {n : Node} (h : ¬ noFollower.holds n = true) :
    followers.holds n = true ∧ n.isNamed = false := by
  unfold Trait.holds noFollower at h
  unfold Trait.holds followers
  cases hn : n.isNamed with
  | true => exact absurd (by cases n.isLeaf <;> simp [hn]) h
  | false => simpa [hn, Decidable.or_iff_not_imp_left] using h

theorem holds_noStatement_of_not {n : Node} (hnamed : n.isNamed = true) (h : ¬ isStatement n = true) :
    noStatement.holds n = true := by
  unfold Trait.holds noStatement
  rw [if_pos hnamed]
  split
  · rfl
  · rename_i hleaf
    have hkind : n.kindName ∉ statementKinds := fun hkind =>
      h (Trait.holds_among.mpr ⟨hnamed, by simpa using hleaf, hkind⟩)
    simpa using hkind

theorem holds_noLabel_of_not {n : Node} (h : ¬ isLabel n = true) : noLabel.holds n = true := by
  unfold Trait.holds noLabel
  split
  · rename_i hnamed
    split
    · rfl
    · rename_i hleaf
      have hkind : n.kindName ≠ labelKind := fun hkind =>
        h (Trait.holds_among.mpr ⟨hnamed, by simpa using hleaf, by simp [hkind]⟩)
      simpa using hkind
  · rfl

/-- Whether a node is a statement that is an expression. -/
def isExpressionStatement (n : Node) : Bool := (Trait.among [statementKind]).holds n

/-! ## Layouts -/

namespace Grammar

open Production

/-- A statement that is an expression is part of lists and of some constructs only. -/
def parents : Layout where
  first := .among [statementKind]
  second := { Trait.all with edge := true }
  item := .all
  isList := (listKinds ++ holderKinds).contains

/-- Behind it a token goes on with the construct, or nothing does. -/
def following : Layout := ⟨.among [statementKind], noFollower, .all, listKinds.contains⟩

/-- Where a token goes on with a construct, or nothing does, a body has ended. -/
def bodies : Layout := ⟨noStatement, followers, .all, fun kind => !holderKinds.contains kind⟩

/-- The first part of a group is a label. -/
def groups : Layout where
  first := ⟨fun _ => false, false, fun _ => false, true⟩
  second := noLabel
  item := .all
  isList kind := kind != groupKind

/-- Labels are parts of groups and of branches only. -/
def labels : Layout where
  first := { Trait.all with edge := true }
  second := .among [labelKind]
  item := .all
  isList := [groupKind, "switch_rule"].contains

instance checked_parents :
    Checked parents fun s => ⟨isFile s, true, startsStatement s, isFile s, false⟩ where
  level _ _ _ := rfl
  symbols := by decide +kernel
  steps := by decide +kernel
  program := by decide +kernel

instance checked_following :
    Checked following fun s => ⟨isFile s, true, startsStatement s, isFile s, false⟩ where
  level _ _ _ := rfl
  symbols := by decide +kernel
  steps := by decide +kernel
  program := by decide +kernel

instance checked_bodies :
    Checked bodies fun s => ⟨isFile s, false, !yieldsStatement s, false, false⟩ where
  level _ _ _ := rfl
  symbols := by decide +kernel
  steps := by decide +kernel
  program := by decide +kernel

instance checked_groups :
    Checked groups fun s => ⟨isFile s, s != .switchLabel, false, false, false⟩ where
  level _ _ _ := rfl
  symbols := by decide +kernel
  steps := by decide +kernel
  program := by decide +kernel

instance checked_labels :
    Checked labels fun s => ⟨isFile s, s == .switchLabel, true, false, false⟩ where
  level _ _ _ := rfl
  symbols := by decide +kernel
  steps := by decide +kernel
  program := by decide +kernel

end Grammar

/-! ## Texts -/

section

variable {source : String} {t : Tree} {m x y : Node} (ht : parse? source = some t) (hm : m ∈ t.root.listing)

include ht hm

/-- **Where a statement stands that is an expression**: in a list of statements, or as part of a construct that
    has statements as parts. -/
theorem parent_of_expressionStatement (hx : x ∈ m.children) (hkind : isExpressionStatement x = true) :
    isStatementList m = true ∨ m.kindName ∈ holderKinds := by
  have ho := Grammar.checked_parents.ordered_of_parse? ht
  have hlist : Grammar.parents.isList m.kindName = true := by
    obtain ⟨front, back, hchildren⟩ := List.append_of_mem hx
    cases back with
    | nil => exact ho.isList_of_last hm rfl (by simp [hchildren]) hkind
    | cons y back =>
        have hxy : [x, y] <:+: m.children := ⟨front, back, by simp [hchildren]⟩
        exact ho.isList_of_meet hm hxy hkind (Trait.holds_all y)
  rcases List.mem_append.mp (List.contains_iff_mem.mp hlist) with hlist | hholder
  · exact Or.inl (List.contains_iff_mem.mpr hlist)
  · exact Or.inr hholder

/-- **What stands behind it** there is a token that goes on with the construct. -/
theorem follows_expressionStatement (hlist : isStatementList m = false) (hxy : [x, y] <:+: m.children)
    (hkind : isExpressionStatement x = true) : followers.holds y = true ∧ y.isNamed = false := by
  refine holds_followers_of_not ?_
  intro hy
  have hmeet : isStatementList m = true :=
    (Grammar.checked_following.ordered_of_parse? ht).isList_of_meet hm hxy hkind hy
  exact absurd (hlist.symm.trans hmeet) (by simp)

/-- **A body is a statement**: a construct that is the last part there, or has such a token behind it. -/
theorem isStatement_of_body (hholder : m.kindName ∈ holderKinds) (hnamed : x.isNamed = true)
    (hx : x ∈ m.children.getLast? ∨ ∃ y, [x, y] <:+: m.children ∧ followers.holds y = true) :
    isStatement x = true := by
  have ho := Grammar.checked_bodies.ordered_of_parse? ht
  by_contra hno
  have hfirst := holds_noStatement_of_not hnamed hno
  have hlist : Grammar.bodies.isList m.kindName = true := by
    rcases hx with hlast | ⟨y, hxy, hy⟩
    · exact ho.isList_of_last hm rfl hlast hfirst
    · exact ho.isList_of_meet hm hxy hfirst hy
  exact absurd hlist (by simp [Grammar.bodies, hholder])

/-- The first part of a group is its label. -/
theorem isLabel_of_head (hgroup : m.kindName = groupKind) (hx : x ∈ m.children.head?) :
    isLabel x = true := by
  by_contra hno
  have hlist := (Grammar.checked_groups.ordered_of_parse? ht).isList_of_head hm rfl hx
    (holds_noLabel_of_not hno)
  exact absurd hlist (by simp [Grammar.groups, hgroup])

/-- A label is part of a group, or of a branch. -/
theorem parent_of_label (hx : x ∈ m.children) (hlabel : isLabel x = true) :
    m.kindName = groupKind ∨ m.kindName = "switch_rule" := by
  have ho := Grammar.checked_labels.ordered_of_parse? ht
  have hlist : Grammar.labels.isList m.kindName = true := by
    obtain ⟨front, back, hchildren⟩ := List.append_of_mem hx
    rcases List.eq_nil_or_concat front with rfl | ⟨front, y, rfl⟩
    · exact ho.isList_of_head hm rfl (by simp [hchildren]) hlabel
    · have hyx : [y, x] <:+: m.children := ⟨front, back, by simp [hchildren]⟩
      exact ho.isList_of_meet hm hyx (Trait.holds_all y) hlabel
  simpa [Grammar.labels] using hlist

end

end JavaRefactor.Java

import JavaRefactor.Proofs.Imports.Frame
import JavaRefactor.Proofs.Syntax.Layout

/-!
# `Proofs.Imports.Settled` — imports that have been mended need no mending

Which imports go and which come is decided by three things: the names that the file used, those it uses, and the
imports it has. Mending changes the last of them only. What goes is not used, so that nothing that is needed goes
with it, and what comes is used, so that it does not go the next time.

How the grammar reads the mended text is assumed and not shown: the constructs that are no imports are what they
were, and the imports are those that stay and those that come, in whatever order.

## Contents
- **Layout.** `usedNames_plain` and `nameIn?_plain`: the places of nodes tell nothing of names.
- **Files.** `others`, the constructs that are no imports; `usedNames_of_others`, `packageName?_of_others`.
- **Imports.** `Declared.plain`, `ofSpec`; `exists_provider`: what is needed is provided by what stays and what comes.
- **`Mended`**, what the tree of the mended text has, and **`fix?_settled`**.
-/

namespace JavaRefactor.Imports

open Syntax (Node Tree)
open Syntax.Node (plain plainAll plainLabel)

/-! ## Layout -/

theorem hasQualifier_plain (n : Node) : hasQualifier n.plain = hasQualifier n := by
  unfold hasQualifier
  rw [Node.isKind_plain, Node.isKind_plain, Node.child?_plain, Option.isSome_map]

theorem isMember_plain (n : Node) : isMember n.plain = isMember n := by
  unfold isMember
  rw [Node.field_plain]

mutual

/-- The names that a node uses do not depend on its layout. -/
theorem usedNames_plain : ∀ n : Node, usedNames n.plain = usedNames n
  | .leaf .. => rfl
  | .branch l cs => by
      have hqualifier : hasQualifier (.branch (plainLabel l) (plainAll cs)) = hasQualifier (.branch l cs) :=
        hasQualifier_plain (.branch l cs)
      show usedNames (.branch (plainLabel l) (plainAll cs)) = usedNames (.branch l cs)
      rw [usedNames, usedNames, hqualifier, usedNamesFirst_plain cs, usedNamesAmong_plain _ cs]
      rfl

theorem usedNamesFirst_plain : ∀ ns : List Node, usedNamesFirst (plainAll ns) = usedNamesFirst ns
  | [] => rfl
  | n :: ns => by
      rw [plainAll, usedNamesFirst, usedNamesFirst, Node.isNamed_plain, usedNames_plain n, usedNamesFirst_plain ns]

theorem usedNamesAmong_plain (qualified : Bool) : ∀ ns : List Node,
    usedNamesAmong qualified (plainAll ns) = usedNamesAmong qualified ns
  | [] => rfl
  | n :: ns => by
      rw [plainAll, usedNamesAmong, usedNamesAmong, isMember_plain, usedNames_plain n,
        usedNamesAmong_plain qualified ns]

end

theorem nameIn?_plain (n : Node) : nameIn? n.plain = nameIn? n := by
  have hkinds : (fun c : Node => c.isKind "scoped_identifier" || c.isKind "identifier") ∘ plain =
      fun c => c.isKind "scoped_identifier" || c.isKind "identifier" := by
    funext c
    show (c.plain.isKind _ || c.plain.isKind _) = _
    rw [Node.isKind_plain, Node.isKind_plain]
  have htext : (fun c : Node => String.ofList (c.normalized.toList.filter (· != ' '))) ∘ plain =
      fun c => String.ofList (c.normalized.toList.filter (· != ' ')) := by
    funext c
    show String.ofList (c.plain.normalized.toList.filter (· != ' ')) = _
    rw [Node.normalized_plain]
  unfold nameIn?
  rw [Node.namedChildren_plain, List.find?_map, Option.map_map, hkinds, htext]

/-! ## Files -/

/-- Whether a construct at the top of a file is an import. -/
def isImport (n : Node) : Bool := n.isKind "import_declaration"

/-- The constructs at the top of a file that are no imports. -/
def others (t : Tree) : List Node := t.root.children.filter (!isImport ·)

theorem usedNames_of_isImport {n : Node} (h : isImport n = true) : usedNames n = [] := by
  have hkind : n.label.kind = .named "import_declaration" := beq_iff_eq.mp h
  cases n with
  | leaf l tr text =>
      have hl : l.kind = .named "import_declaration" := hkind
      rw [usedNames, hl]
      rfl
  | branch l cs =>
      have hl : l.kind = .named "import_declaration" := hkind
      rw [usedNames, hl]
      rfl

/-- The names in a list of constructs of which none is a member are those of each, and imports use none. -/
theorem usedNamesAmong_false (ns : List Node) :
    usedNamesAmong false ns = (ns.filter (!isImport ·)).flatMap usedNames := by
  induction ns with
  | nil => rfl
  | cons n ns ih =>
      rw [usedNamesAmong, ih, Bool.false_and, if_neg Bool.false_ne_true]
      by_cases himport : isImport n = true
      · rw [List.filter_cons_of_neg (by simp [himport]), usedNames_of_isImport himport, List.nil_append]
      · rw [List.filter_cons_of_pos (by simp [himport]), List.flatMap_cons]

/-- The package of a file is read off a construct that is no import, whatever its layout. -/
theorem packageName?_eq (t : Tree) :
    packageName? t = (((others t).map plain).find? (·.isKind "package_declaration")).bind nameIn? := by
  have hkind : (fun n : Node => n.isKind "package_declaration") ∘ plain =
      fun n => n.isKind "package_declaration" := by
    funext n
    exact Node.isKind_plain n _
  have hfind : (others t).find? (·.isKind "package_declaration") =
      t.root.children.find? (·.isKind "package_declaration") := by
    unfold others
    rw [List.find?_filter]
    congr 1
    funext n
    by_cases hpackage : n.isKind "package_declaration" = true
    · have hnot : isImport n = false := by
        unfold isImport Node.isKind
        rw [beq_iff_eq.mp hpackage]
        decide
      rw [hpackage, hnot]
      rfl
    · rw [Bool.not_eq_true] at hpackage
      simp [hpackage]
  have hname : ∀ o : Option Node, (o.map plain).bind nameIn? = o.bind nameIn? := by
    intro o
    cases o with
    | none => rfl
    | some n => exact nameIn?_plain n
  unfold packageName?
  rw [List.find?_map, hkind, hname, hfind]

section Files

variable {source source' : String} {t t' : Tree} (h : Java.parse? source = some t)

include h

/-- **The names that a file uses** are those that its constructs use, but for the imports. -/
theorem usedNames_root : usedNames t.root = (others t).flatMap usedNames := by
  obtain ⟨-, ls, nodes, hs⟩ := Java.spelled_of_parse? h
  unfold others
  rw [hs.root]
  exact usedNamesAmong_false nodes

variable (h' : Java.parse? source' = some t') (hothers : (others t').map plain = (others t).map plain)

include h' hothers

/-- Files whose other constructs are alike use the same names. -/
theorem usedNames_of_others : usedNames t'.root = usedNames t.root := by
  have hplain : ∀ ns : List Node, ns.flatMap usedNames = (ns.map plain).flatMap usedNames := by
    intro ns
    rw [List.flatMap_map]
    congr 1
    funext n
    exact (usedNames_plain n).symm
  rw [usedNames_root h, usedNames_root h', hplain, hplain (others t), hothers]

omit h h'

/-- Files whose other constructs are alike have the same package. -/
theorem packageName?_of_others : packageName? t' = packageName? t := by
  rw [packageName?_eq, packageName?_eq t, hothers]

end Files

/-! ## Imports -/

/-- The import without its place. -/
def Declared.plain (d : Declared) : Declared := { d with span := ⟨0, 0⟩ }

/-- What an import of a rule becomes in a file, without its place. -/
def ofSpec (i : ImportSpec) : Declared := ⟨⟨0, 0⟩, i.path, i.isStatic, false⟩

theorem provides_ofSpec (i : ImportSpec) : (ofSpec i).provides i = true := beq_self_eq_true i.simpleName

section Mending

variable {before after fixed : Tree} {wanted : List ImportSpec} {i : ImportSpec} {d : Declared}

/-- An import that provides a name in use does not go. -/
theorem not_isGone_of_provides (hused : i.simpleName ∈ usedNames after.root) (hd : d.provides i = true) :
    ¬ IsGone before after d := by
  rintro ⟨hall, -, hunused⟩
  unfold Declared.provides at hd
  rw [hall, if_neg Bool.false_ne_true, beq_iff_eq] at hd
  rw [hd] at hunused
  exact hunused hused

/-- **What is needed is provided** by an import that stays or by one that comes. -/
theorem exists_provider (before : Tree) (hi : i ∈ wanted) (hused : i.simpleName ∈ usedNames after.root)
    (hexplicit : i.isStatic = true ∨ i.qualifier ≠ "java.lang" ∧ some i.qualifier ≠ packageName? after) :
    ∃ d ∈ kept before after ++ (added after wanted).map ofSpec, d.provides i = true := by
  by_cases hprovided : ∃ d ∈ declared after, d.provides i = true
  · obtain ⟨d, hd, hprovides⟩ := hprovided
    have hstays : d ∈ kept before after :=
      List.mem_filter.mpr ⟨hd, decide_eq_true (not_isGone_of_provides hused hprovides)⟩
    exact ⟨d, List.mem_append_left _ hstays, hprovides⟩
  · have hmissing : ∀ d ∈ declared after, d.provides i = false := by
      intro d hd
      by_cases hprovides : d.provides i = true
      · exact absurd ⟨d, hd, hprovides⟩ hprovided
      · exact Bool.eq_false_iff.mpr hprovides
    have hcomes : i ∈ added after wanted := mem_added.mpr ⟨hi, hused, hexplicit, hmissing⟩
    exact ⟨ofSpec i, List.mem_append_right _ (List.mem_map_of_mem hcomes), provides_ofSpec i⟩

/-- **What stays and what comes** does not go, as long as the names in use are the same. -/
theorem not_isGone_of_mem (hused : usedNames fixed.root = usedNames after.root)
    (hd : d ∈ kept before after ++ (added after wanted).map ofSpec) : ¬ IsGone before fixed d := by
  unfold IsGone
  rw [hused]
  rcases List.mem_append.mp hd with hd | hd
  · exact of_decide_eq_true (List.mem_filter.mp hd).2
  · obtain ⟨i, hi, rfl⟩ := List.mem_map.mp hd
    rintro ⟨-, -, hunused⟩
    exact hunused (mem_added.mp hi).2.1

/-! ## Mended files -/

/-- A file has the other constructs of another one, and the imports, wherever they stand. -/
structure Mended (after : Tree) (imports : List Declared) (fixed : Tree) : Prop where
  others : (others fixed).map plain = (others after).map plain
  imports : ((declared fixed).map Declared.plain).Perm (imports.map Declared.plain)

theorem Mended.exists_of_mem {imports : List Declared} (h : Mended after imports fixed) (hd : d ∈ imports) :
    ∃ d' ∈ declared fixed, d'.plain = d.plain :=
  List.mem_map.mp (h.imports.mem_iff.mpr (List.mem_map_of_mem hd))

theorem Mended.exists_of_mem_declared {imports : List Declared} (h : Mended after imports fixed)
    (hd : d ∈ declared fixed) : ∃ d' ∈ imports, d'.plain = d.plain :=
  List.mem_map.mp (h.imports.mem_iff.mp (List.mem_map_of_mem hd))

end Mending

/-- **Mended imports need no mending.** If the tree of the mended text has the other constructs as they were and the
    imports that stay and that come, there is nothing to mend in it. In that tree every import of the rule whose name
    is used is provided, unless it is implicit, and every import of one name that is still used is there. -/
theorem fix?_settled {source : String} {before after : Tree} {wanted : List ImportSpec}
    (hafter : Java.parse? source = some after) :
    ∀ out fixed, fix? before after wanted = some out → Java.parse? out = some fixed →
      Mended after (kept before after ++ (added after wanted).map ofSpec) fixed →
      fix? before fixed wanted = none ∧
      (∀ i ∈ wanted, i.simpleName ∈ usedNames fixed.root →
        (i.isStatic = true ∨ i.qualifier ≠ "java.lang" ∧ some i.qualifier ≠ packageName? fixed) →
        ∃ d ∈ declared fixed, d.provides i = true) ∧
      ∀ d ∈ declared after, d.onDemand = false → d.simpleName ∈ usedNames after.root →
        ∃ d' ∈ declared fixed, d'.plain = d.plain := by
  intro out fixed _ hfixed hmended
  have hused := usedNames_of_others hafter hfixed hmended.others
  have hpackage := packageName?_of_others hmended.others
  have hprovided : ∀ i ∈ wanted, i.simpleName ∈ usedNames fixed.root →
      (i.isStatic = true ∨ i.qualifier ≠ "java.lang" ∧ some i.qualifier ≠ packageName? fixed) →
      ∃ d ∈ declared fixed, d.provides i = true := by
    intro i hi hname hexplicit
    rw [hused] at hname
    rw [hpackage] at hexplicit
    obtain ⟨d, hd, hprovides⟩ := exists_provider before hi hname hexplicit
    obtain ⟨d', hd', hsame⟩ := hmended.exists_of_mem hd
    refine ⟨d', hd', ?_⟩
    show d'.plain.provides i = true
    rw [hsame]
    exact hprovides
  refine ⟨?_, hprovided, ?_⟩
  · have hgone : gone before fixed = [] := by
      refine List.filter_eq_nil_iff.mpr ?_
      intro d hd hgoes
      obtain ⟨d', hd', hsame⟩ := hmended.exists_of_mem_declared hd
      have hgoes : IsGone before fixed d.plain := of_decide_eq_true hgoes
      rw [← hsame] at hgoes
      exact not_isGone_of_mem hused hd' hgoes
    have hadded : added fixed wanted = [] := by
      refine List.eq_nil_iff_forall_not_mem.mpr ?_
      intro i hi
      obtain ⟨hwanted, hname, hexplicit, hmissing⟩ := mem_added.mp hi
      obtain ⟨d, hd, hprovides⟩ := hprovided i hwanted hname hexplicit
      rw [hmissing d hd] at hprovides
      exact Bool.false_ne_true hprovides
    rw [fix?_eq_none_iff, edits_eq, hgone, hadded]
    rfl
  · intro d hd hsingle hname
    have hstays : d ∈ kept before after := by
      refine List.mem_filter.mpr ⟨hd, decide_eq_true ?_⟩
      rintro ⟨-, -, hunused⟩
      exact hunused hname
    exact hmended.exists_of_mem (List.mem_append_left _ hstays)

/-- One import goes and one comes, beside one of all members of a path. -/
theorem fix?_settled_on_demand : ∃ before after fixed : Tree,
    Java.parse? "import a.A;\nimport b.*;\nclass T { C x; }" = some after ∧
    fix? before after [⟨"c.C", false⟩] = some "import b.*;\nimport c.C;\nclass T { C x; }" ∧
    Java.parse? "import b.*;\nimport c.C;\nclass T { C x; }" = some fixed ∧
    Mended after (kept before after ++ (added after [⟨"c.C", false⟩]).map ofSpec) fixed ∧
    fix? before fixed [⟨"c.C", false⟩] = none := by
  have h : ((Java.parse? "import a.A;\nimport b.*;\nclass T { A x; }").any fun before =>
      (Java.parse? "import a.A;\nimport b.*;\nclass T { C x; }").any fun after =>
      (Java.parse? "import b.*;\nimport c.C;\nclass T { C x; }").any fun fixed =>
        fix? before after [⟨"c.C", false⟩] == some "import b.*;\nimport c.C;\nclass T { C x; }" &&
          Node.alikeAll (others fixed) (others after) &&
          ((declared fixed).map Declared.plain).isPerm
            ((kept before after ++ (added after [⟨"c.C", false⟩]).map ofSpec).map Declared.plain)) = true := by
    decide +kernel
  obtain ⟨before, -, h⟩ := (Option.any_eq_true _ _).mp h
  obtain ⟨after, hafter, h⟩ := (Option.any_eq_true _ _).mp h
  obtain ⟨fixed, hfixed, h⟩ := (Option.any_eq_true _ _).mp h
  obtain ⟨h, hperm⟩ := (Bool.and_eq_true _ _).mp h
  obtain ⟨hout, hothers⟩ := (Bool.and_eq_true _ _).mp h
  have hout := beq_iff_eq.mp hout
  have hothers := (Node.alikeAll_iff _ _).mp hothers
  rw [Node.plainAll_eq, Node.plainAll_eq] at hothers
  have hmended : Mended after (kept before after ++ (added after [⟨"c.C", false⟩]).map ofSpec) fixed :=
    ⟨hothers, List.isPerm_iff.mp hperm⟩
  obtain ⟨hnone, -, -⟩ := fix?_settled hafter _ fixed hout hfixed hmended
  exact ⟨before, after, fixed, hafter, hout, hfixed, hmended, hnone⟩

end JavaRefactor.Imports

import JavaRefactor.Proofs.Imports.Changes
import Mathlib.Data.List.Infix

/-!
# `Proofs.Imports.Comments` — comments in front of types when the imports are mended

A comment is trivia of the token behind it, so that the range of a type starts behind its comment. The places of
imports are next to imports and behind the package, where the comment of a type does not start yet, with one exception:
in a file with neither, imports come in front of the first construct, which is behind its comment.

## Contents
- **`Precedes`**, a comment in front of a construct; **`Detaches`**, the exception.
- **Places.** `child_beside`: another construct is no part of a type and its comment; `beside_of_mem_edits`.
- **`fix?_comment`**: what stands between a comment and its type behind the edits.
-/

namespace JavaRefactor.Imports

open Java (Lexeme Spelled)
open Syntax (Node Tree)
open Text (Edit Span byteLength)

/-! ## Comments -/

/-- A comment up to the end of its line, or one in brackets. -/
def IsComment (cs : List Char) : Prop :=
  (∃ body, cs = '/' :: '/' :: body ∧ '\n' ∉ body) ∨
    ∃ body, cs = '/' :: '*' :: (body ++ ['*', '/']) ∧ ¬ ['*', '/'] <:+: body

theorem IsComment.exists_cons {cs : List Char} (h : IsComment cs) : ∃ body, cs = '/' :: body := by
  rcases h with ⟨body, rfl, -⟩ | ⟨body, rfl, -⟩
  · exact ⟨_, rfl⟩
  · exact ⟨_, rfl⟩

/-- The kinds of declarations of types. -/
def typeKinds : List String :=
  ["class_declaration", "interface_declaration", "enum_declaration", "record_declaration",
    "annotation_type_declaration"]

/-- The node declares a type. -/
def IsType (n : Node) : Prop := ∃ kind ∈ typeKinds, n.isKind kind = true

/-- A comment stands in front of a node, with nothing but blanks in between. -/
structure Precedes (comment blank : List Char) (n : Node) : Prop where
  isComment : IsComment comment
  isBlank : ∀ c ∈ blank, Text.isBlank c = true
  leading : comment ++ blank <:+ n.leading

/-- A file has no imports and no package, and the node is its first construct. -/
def Detaches (after : Tree) (n : Node) : Prop :=
  declared after = [] ∧ (∀ p ∈ after.root.children, p.isKind "package_declaration" = false) ∧
    after.root.namedChildren.head? = some n

theorem ne_of_isType {m n : Node} {kind : String} (hn : IsType n) (hm : m.isKind kind = true)
    (hkind : kind ∉ typeKinds) : m ≠ n := by
  rintro rfl
  obtain ⟨kind', hkind', hn⟩ := hn
  unfold Node.isKind at hm hn
  rw [beq_iff_eq] at hm hn
  rw [hm] at hn
  obtain rfl : kind = kind' := by injection hn
  exact hkind hkind'

/-! ## Places -/

section Places

variable {before after : Tree} {wanted : List ImportSpec} {ls : List Lexeme} {nodes : List Node} {n m : Node}
  {front comment blank rest : List Char} {d : Declared} {e : Edit} (h : Spelled after ls nodes)
  (hn : n ∈ after.root.children)

include h hn

/-- The text around a construct and the comment in front of it. -/
theorem Precedes.exists_around (hcomment : Precedes comment blank n) :
    ∃ front rest, after.source.toList = front ++ (comment ++ blank ++ n.print.toList) ++ rest ∧
      n.span =
        ⟨byteLength (front ++ (comment ++ blank)), byteLength (front ++ (comment ++ blank ++ n.print.toList))⟩ := by
  obtain ⟨inner, hleading⟩ := hcomment.leading
  obtain ⟨outer, _, _, rest, htext, hspan, -, -⟩ := h.exists_around hn
  rw [← hleading] at htext hspan
  refine ⟨outer ++ inner, rest, ?_, ?_⟩
  · rw [htext]
    simp only [List.append_assoc]
  · rw [hspan]
    simp only [List.append_assoc]

variable (htype : IsType n) (hcomment : Precedes comment blank n)
  (htext : after.source.toList = front ++ (comment ++ blank ++ n.print.toList) ++ rest)
  (hstart : n.span.start = byteLength (front ++ (comment ++ blank)))

include hcomment hstart

/-- **Another construct** ends in front of the comment, or starts behind the construct that has it. -/
theorem child_beside (hm : m ∈ after.root.children) (hne : m ≠ n) :
    m.span.stop ≤ byteLength front ∨ n.span.stop ≤ m.span.start := by
  obtain ⟨inner, hleading⟩ := hcomment.leading
  rcases h.apart hm hn hne with hbefore | hbehind
  · rw [hstart, ← hleading] at hbefore
    simp only [Text.byteLength_append] at hbefore
    exact Or.inl (by omega)
  · exact Or.inr (by omega)

include htype

/-- An import stands in front of the comment, or behind the construct that has it. -/
theorem declared_beside (hd : d ∈ declared after) :
    d.span.stop ≤ byteLength front ∨ n.span.stop ≤ d.span.start := by
  obtain ⟨m, hm, hby⟩ := List.mem_filterMap.mp hd
  have hkind : m.isKind "import_declaration" = true := by
    unfold declaredBy? at hby
    exact (Option.ite_none_right_eq_some.mp hby).1
  rw [span_of_declaredBy? hby]
  exact child_beside h hn hcomment hstart hm (ne_of_isType htype hkind (by decide))

include htext

/-- What the removal of an import takes out ends in front of the comment as well. -/
theorem removal_beside (hd : d ∈ declared after) :
    (removal after.source.toList d).span.stop ≤ byteLength front ∨
      n.span.stop ≤ (removal after.source.toList d).span.start := by
  obtain ⟨before, breaks, behind, hsource, hbefore, hbreaks, hplace, hstop⟩ := (removes_of_mem_declared h hd).blank
  rw [hplace]
  rcases declared_beside h hn htype hcomment hstart hd with hfront | hrest
  · obtain ⟨body, hbody⟩ := hcomment.isComment.exists_cons
    have hsame : before ++ breaks ++ behind = front ++ '/' :: (body ++ blank ++ n.print.toList ++ rest) := by
      rw [← hsource, htext, hbody]
      simp only [List.cons_append, List.append_assoc]
    have hle := Text.byteLength_le_of_class hsame (by omega) hbreaks (by decide)
    rw [Text.byteLength_append] at hle
    exact Or.inl (by omega)
  · exact Or.inr hrest

omit htext in
/-- **A new import** comes in front of the comment or behind the construct that has it, but for the exception. -/
theorem insertion_beside (hattached : ¬ Detaches after n) (i : ImportSpec) :
    (insertion after (kept before after) ((gone before after).head?.map (·.span.start)) i).span.start ≤
        byteLength front ∨
      n.span.stop ≤
        (insertion after (kept before after) ((gone before after).head?.map (·.span.start)) i).span.start := by
  rcases (insertion_cases after (kept before after) ((gone before after).head?.map (·.span.start)) i).2 with
    ⟨d, hd, hplace⟩ | hvacated | ⟨hkept, hgone, hbelow⟩
  · have hd := List.mem_of_mem_filter hd
    obtain ⟨-, hbyte⟩ := cuts_of_mem_declared h hd
    rcases declared_beside h hn htype hcomment hstart hd with hfront | hrest
    · exact Or.inl (by omega)
    · exact Or.inr (by omega)
  · obtain ⟨d, hfirst, hplace⟩ := Option.map_eq_some_iff.mp hvacated
    have hd := List.mem_of_mem_filter (List.mem_of_head? hfirst)
    obtain ⟨-, hbyte⟩ := cuts_of_mem_declared h hd
    rw [← hplace]
    rcases declared_beside h hn htype hcomment hstart hd with hfront | hrest
    · exact Or.inl (by omega)
    · exact Or.inr hrest
  · rw [hbelow]
    rcases (insertionBelowPackage_cases after i).2 with ⟨p, hp, hkind, hplace⟩ | ⟨hpackage, hplace⟩
    · obtain ⟨-, hbyte⟩ := cuts_of_mem_children h hp
      rw [hplace]
      rcases child_beside h hn hcomment hstart hp (ne_of_isType htype hkind (by decide)) with hfront | hrest
      · exact Or.inl hfront
      · exact Or.inr (by omega)
    · rw [hplace]
      cases hhead : after.root.namedChildren.head? with
      | none => exact Or.inl (Nat.zero_le _)
      | some m =>
          have hm : m ∈ after.root.children := List.mem_of_mem_filter (List.mem_of_head? hhead)
          obtain ⟨-, hbyte⟩ := cuts_of_mem_children h hm
          show m.span.start ≤ _ ∨ _ ≤ m.span.start
          have hne : m ≠ n := by
            rintro rfl
            rw [Option.map_eq_none_iff, List.head?_eq_none_iff] at hgone
            have hnone := perm_declared before after
            rw [hkept, hgone] at hnone
            exact hattached ⟨List.nil_perm.mp hnone, hpackage, hhead⟩
          rcases child_beside h hn hcomment hstart hm hne with hfront | hrest
          · exact Or.inl (by omega)
          · exact Or.inr hrest

/-- Every edit is made in front of the comment or behind the construct that has it, but for the exception. -/
theorem edit_beside (hattached : ¬ Detaches after n) (he : e ∈ edits before after wanted) :
    e.span.stop ≤ byteLength front ∨ n.span.stop ≤ e.span.start := by
  rw [edits_eq] at he
  rcases List.mem_append.mp he with he | he
  · obtain ⟨d, hd, rfl⟩ := List.mem_map.mp he
    exact removal_beside h hn htype hcomment htext hstart (List.mem_of_mem_filter hd)
  · obtain ⟨i, -, rfl⟩ := List.mem_map.mp he
    have hempty := (insertion_spec after (kept before after) ((gone before after).head?.map (·.span.start)) i).1.1
    rw [← hempty]
    exact insertion_beside h hn htype hcomment hstart hattached i

end Places

/-! ## Both -/

section Both

variable {before after : Tree} {wanted : List ImportSpec} {out : String} {n : Node}

/-- **In a file without imports and package**, those that come stand in front of the first construct. -/
theorem edits_of_detaches (before : Tree) (wanted : List ImportSpec) (hdetached : Detaches after n) :
    edits before after wanted = (added after wanted).map fun i => insertAt n.span.start (i.declaration ++ "\n\n") := by
  obtain ⟨hnone, hpackage, hfirst⟩ := hdetached
  have hinsertion : ∀ i, insertion after [] none i = insertAt n.span.start (i.declaration ++ "\n\n") := by
    intro i
    show insertionBelowPackage after i = _
    rcases (insertionBelowPackage_cases after i).2 with ⟨p, hp, hkind, -⟩ | ⟨-, hplace⟩
    · rw [hpackage p hp] at hkind
      exact absurd hkind Bool.false_ne_true
    · rw [hplace, hfirst]
      rfl
  rw [edits_eq]
  unfold gone kept
  rw [hnone]
  exact List.map_congr_left fun i _ => hinsertion i

theorem fix?_of_detaches {front rest : List Char} (hdetached : Detaches after n)
    (htext : after.source.toList = front ++ rest) (hstart : n.span.start = byteLength front)
    (hout : fix? before after wanted = some out) :
    added after wanted ≠ [] ∧ out.toList =
      front ++ ((added after wanted).reverse.flatMap fun i => (i.declaration ++ "\n\n").toList) ++ rest := by
  have hedits := edits_of_detaches before wanted hdetached
  have hsorted : sortWith (fun d e => Nat.ble e.span.start d.span.start) (edits before after wanted) =
      edits before after wanted := by
    refine sortWith_of_pairwise ?_
    rw [hedits]
    refine List.pairwise_map.mpr (List.pairwise_of_forall ?_)
    intro i j
    exact Nat.ble_eq.mpr (Nat.le_refl _)
  unfold fix? at hout
  split at hout
  · exact absurd hout (by simp)
  · rename_i hsome
    obtain rfl := Option.some.inj hout
    refine ⟨?_, ?_⟩
    · intro hnone
      rw [hnone] at hedits
      exact hsome hedits
    · rw [String.toList_ofList, hsorted, hedits, htext, hstart]
      exact Text.applyWhereFits_insertions (fun i : ImportSpec => (i.declaration ++ "\n\n").toList) _ front rest

end Both

/-- **Comments in front of types.** The imports are mended around a comment and its type: a part of the edits is made in
    front of the comment, and the others behind the type. In a file without imports and package whose first construct
    is the type, the imports come between the two. -/
theorem fix?_comment {source out : String} {before after : Tree} {wanted : List ImportSpec} {n : Node}
    {comment blank : List Char} (hafter : Java.parse? source = some after) (hn : n ∈ after.root.children)
    (htype : IsType n) (hcomment : Precedes comment blank n) (hout : fix? before after wanted = some out) :
    ∃ front rest, source.toList = front ++ (comment ++ blank ++ n.print.toList) ++ rest ∧
      n.span.start = byteLength (front ++ (comment ++ blank)) ∧
      (¬ Detaches after n → ∃ es₁ es₂ front' rest', (es₁ ++ es₂).Perm (edits before after wanted) ∧
        Text.applyAtOnce 0 es₁ front = some front' ∧
        Text.applyAtOnce (byteLength (front ++ (comment ++ blank ++ n.print.toList))) es₂ rest = some rest' ∧
        out.toList = front' ++ (comment ++ blank ++ n.print.toList) ++ rest') ∧
      (Detaches after n → added after wanted ≠ [] ∧ out.toList = front ++ (comment ++ blank) ++
        ((added after wanted).reverse.flatMap fun i => (i.declaration ++ "\n\n").toList) ++
          (n.print.toList ++ rest)) := by
  obtain ⟨rfl, ls, nodes, h⟩ := Java.spelled_of_parse? hafter
  obtain ⟨front, rest, htext, hspan⟩ := hcomment.exists_around h hn
  have hstart : n.span.start = byteLength (front ++ (comment ++ blank)) := by rw [hspan]
  have hstop : n.span.stop = byteLength (front ++ (comment ++ blank ++ n.print.toList)) := by rw [hspan]
  refine ⟨front, rest, htext, hstart, ?_, ?_⟩
  · intro hattached
    have hperm := perm_arrangedEdits before after wanted
    have honce := applyAtOnce_edits h hout
    have hcuts : ∀ e ∈ arrangedEdits before after wanted, byteLength [] ≤ e.span.start ∧
        ∃ cut, e.span.Cuts ([] ++ (front ++ (comment ++ blank ++ n.print.toList) ++ rest)) cut := by
      intro e he
      rw [List.nil_append, ← htext]
      exact ⟨Nat.zero_le _, cuts_of_mem_edits h (hperm.mem_iff.mp he)⟩
    have hbeside : ∀ e ∈ arrangedEdits before after wanted, e.span.stop ≤ byteLength ([] ++ front) ∨
        byteLength ([] ++ front ++ (comment ++ blank ++ n.print.toList)) ≤ e.span.start := by
      intro e he
      rw [List.nil_append, ← hstop]
      exact edit_beside h hn htype hcomment htext hstart hattached (hperm.mem_iff.mp he)
    rw [htext] at honce
    obtain ⟨es₁, es₂, front', rest', hsplit, hes₁, hes₂, hout⟩ :=
      Text.applyAtOnce_around [] front hcuts (apart_arrangedEdits h) hbeside honce
    rw [hsplit] at hperm
    exact ⟨es₁, es₂, front', rest', hperm, hes₁, hes₂, hout⟩
  · intro hdetached
    refine fix?_of_detaches hdetached ?_ hstart hout
    rw [htext]
    simp only [List.append_assoc]

/-- A bracketed comment on the line in front of a node. -/
theorem precedes_doc {n : Node} (h : "/** Doc. */".toList ++ ['\n'] <:+ n.leading) :
    Precedes "/** Doc. */".toList ['\n'] n := by
  refine ⟨Or.inr ⟨"* Doc. ".toList, by decide +kernel, by decide +kernel⟩, ?_, h⟩
  intro c hc
  rw [List.mem_singleton.mp hc]
  rfl

/-- An import that comes in the stead of another one, in front of a comment. -/
theorem fix?_comment_kept : ∃ (before after : Tree) (n : Node) (front rest : List Char),
    Java.parse? "import a.A;\n/** Doc. */\nclass T { B x; }" = some after ∧
    n ∈ after.root.children ∧ IsType n ∧ Precedes "/** Doc. */".toList ['\n'] n ∧
    fix? before after [⟨"b.B", false⟩] = some "import b.B;\n/** Doc. */\nclass T { B x; }" ∧
    "import b.B;\n/** Doc. */\nclass T { B x; }".toList =
      front ++ ("/** Doc. */".toList ++ ['\n'] ++ n.print.toList) ++ rest := by
  have h : ((Java.parse? "import a.A;\n/** Doc. */\nclass T { A x; }").any fun before =>
      (Java.parse? "import a.A;\n/** Doc. */\nclass T { B x; }").any fun after =>
        (fix? before after [⟨"b.B", false⟩] == some "import b.B;\n/** Doc. */\nclass T { B x; }" &&
          !(declared after).isEmpty) &&
        after.root.children.any fun n =>
          n.isKind "class_declaration" && ("/** Doc. */".toList ++ ['\n']).isSuffixOf n.leading) = true := by
    decide +kernel
  obtain ⟨before, -, h⟩ := (Option.any_eq_true _ _).mp h
  obtain ⟨after, hafter, h⟩ := (Option.any_eq_true _ _).mp h
  obtain ⟨h, hn⟩ := (Bool.and_eq_true _ _).mp h
  obtain ⟨hout, himports⟩ := (Bool.and_eq_true _ _).mp h
  obtain ⟨n, hn, h⟩ := List.any_eq_true.mp hn
  obtain ⟨hkind, hleading⟩ := (Bool.and_eq_true _ _).mp h
  have htype : IsType n := ⟨"class_declaration", by decide, hkind⟩
  have hcomment : Precedes "/** Doc. */".toList ['\n'] n := precedes_doc (List.isSuffixOf_iff_suffix.mp hleading)
  have hout := beq_iff_eq.mp hout
  obtain ⟨_, _, -, -, hattached, -⟩ := fix?_comment hafter hn htype hcomment hout
  have hnot : ¬ Detaches after n := by
    rintro ⟨hnone, -, -⟩
    rw [hnone] at himports
    exact absurd himports (by simp)
  obtain ⟨_, _, front, rest, -, -, -, hsame⟩ := hattached hnot
  exact ⟨before, after, n, front, rest, hafter, hn, htype, hcomment, hout, hsame⟩

/-- Where a comment precedes something, that starts behind the comment and blanks. -/
theorem exists_tail_of_precedes {cs front comment gap declaration rest : List Char} {c : Char}
    (h : cs = front ++ (comment ++ gap ++ c :: declaration) ++ rest) (hgap : ∀ x ∈ gap, Text.isBlank x = true)
    (hc : Text.isBlank c = false) :
    ∃ t ∈ cs.tails, comment <+: t ∧ ((t.drop comment.length).dropWhile Text.isBlank).head? = some c := by
  refine ⟨comment ++ (gap ++ c :: (declaration ++ rest)), (List.mem_tails _ _).mpr ⟨front, ?_⟩,
    List.prefix_append _ _, ?_⟩
  · rw [h]
    simp only [List.cons_append, List.append_assoc]
  · rw [List.drop_left, List.dropWhile_append_of_pos hgap, List.dropWhile_cons_of_neg (by simp [hc])]
    rfl

/-- An import that comes between a comment and its type. -/
theorem fix?_comes_between : ∃ (before after : Tree) (n : Node),
    Java.parse? "/** Doc. */\nclass T { void t(int a) { f(a); } }" = some before ∧
    Java.parse? "/** Doc. */\nclass T { void t(int a) { X.g(a); } }" = some after ∧
    n ∈ after.root.children ∧ IsType n ∧ Precedes "/** Doc. */".toList ['\n'] n ∧
    fix? before after [⟨"a.X", false⟩] =
      some "/** Doc. */\nimport a.X;\n\nclass T { void t(int a) { X.g(a); } }" ∧
    ∀ front gap rest, (∀ c ∈ gap, Text.isBlank c = true) →
      "/** Doc. */\nimport a.X;\n\nclass T { void t(int a) { X.g(a); } }".toList ≠
        front ++ ("/** Doc. */".toList ++ gap ++ n.print.toList) ++ rest := by
  have h : ((Java.parse? "/** Doc. */\nclass T { void t(int a) { f(a); } }").any fun before =>
      (Java.parse? "/** Doc. */\nclass T { void t(int a) { X.g(a); } }").any fun after =>
        fix? before after [⟨"a.X", false⟩] ==
          some "/** Doc. */\nimport a.X;\n\nclass T { void t(int a) { X.g(a); } }" &&
        after.root.children.any fun n => (n.isKind "class_declaration" &&
          ("/** Doc. */".toList ++ ['\n']).isSuffixOf n.leading) && n.print.toList.head? == some 'c') = true := by
    decide +kernel
  -- behind the comment and blanks there is no type
  have hnone : ("/** Doc. */\nimport a.X;\n\nclass T { void t(int a) { X.g(a); } }".toList.tails.all fun t =>
      !"/** Doc. */".toList.isPrefixOf t ||
        ((t.drop "/** Doc. */".toList.length).dropWhile Text.isBlank).head? != some 'c') = true := by
    decide +kernel
  obtain ⟨before, hbefore, h⟩ := (Option.any_eq_true _ _).mp h
  obtain ⟨after, hafter, h⟩ := (Option.any_eq_true _ _).mp h
  obtain ⟨hout, hn⟩ := (Bool.and_eq_true _ _).mp h
  obtain ⟨n, hn, h⟩ := List.any_eq_true.mp hn
  obtain ⟨h, hprint⟩ := (Bool.and_eq_true _ _).mp h
  obtain ⟨hkind, hleading⟩ := (Bool.and_eq_true _ _).mp h
  have htype : IsType n := ⟨"class_declaration", by decide, hkind⟩
  have hcomment : Precedes "/** Doc. */".toList ['\n'] n := precedes_doc (List.isSuffixOf_iff_suffix.mp hleading)
  refine ⟨before, after, n, hbefore, hafter, hn, htype, hcomment, beq_iff_eq.mp hout, ?_⟩
  intro front gap rest hgap hsame
  obtain ⟨cs, hcs⟩ := List.head?_eq_some_iff.mp (beq_iff_eq.mp hprint)
  rw [hcs] at hsame
  obtain ⟨t, ht, hprefix, hbehind⟩ := exists_tail_of_precedes hsame hgap (by decide)
  have hnot := List.all_eq_true.mp hnone t ht
  rw [List.isPrefixOf_iff_prefix.mpr hprefix, hbehind] at hnot
  exact absurd hnot (by simp)

end JavaRefactor.Imports

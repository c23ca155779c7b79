import JavaRefactor.Proofs.Java.Statements
import JavaRefactor.Proofs.Match.Weight
import JavaRefactor.Proofs.Template.Compile
import JavaRefactor.Proofs.Template.Normal
import JavaRefactor.Proofs.Template.Place

/-!
# `Proofs.Template.Weight` — the tokens of a template weigh as much as its text

The text of a template, with placeholders for its metavariables, is what its roots take out of the text of a tree. If
blanks, semicolons and placeholders weigh nothing, and there is no comment in the text, then all that weighs something
are tokens that are no part of a placeholder.

## Contents
- **`SparesLayout`**, weights of this kind, and **`tokenWeight`**, of lexemes.
- **Placeholders.** `Template.metavariableAt?_inv`, the nodes that stand for metavariables.
- **`Template.Stands`**: where the normalised text of a template stands in its tree.
- **`Template.tokenWeight_le_nodeWeight`**, by recursion on the tree, and **`Template.weight_le_ownWeight`**.
-/

namespace JavaRefactor

open Java (Lexeme Covers CoversAll Spelled Closed extent)
open Java.Lexeme (spelling)
open Syntax (Node Tree spanOf)
open Text (Span InOrder byteLength weight spanWeight)

variable {w : Char → Nat}

/-- Weights of which blanks, semicolons, and all that metavariables are spelled with carry nothing. -/
structure SparesLayout (w : Char → Nat) : Prop extends Metavariable.SparesNames w where
  blank : ∀ c, Text.isBlank c = true → w c = 0
  mark : w Lexeme.byteOrderMark = 0
  semicolon : w ';' = 0

/-! ## Lexemes -/

/-- What the texts of lexemes weigh, without what stands in front of them. -/
def tokenWeight (w : Char → Nat) (ls : List Lexeme) : Nat := (ls.map fun l => weight w l.text.toList).sum

theorem tokenWeight_cons (l : Lexeme) (ls : List Lexeme) :
    tokenWeight w (l :: ls) = weight w l.text.toList + tokenWeight w ls := rfl

theorem tokenWeight_append (ls ms : List Lexeme) :
    tokenWeight w (ls ++ ms) = tokenWeight w ls + tokenWeight w ms := by
  unfold tokenWeight
  rw [List.map_append, List.sum_append]

theorem tokenWeight_le (ls : List Lexeme) : tokenWeight w ls ≤ weight w (spelling ls) := by
  induction ls with
  | nil => exact Nat.le_refl _
  | cons l ls ih =>
      rw [tokenWeight_cons, Lexeme.spelling_cons, Text.weight_append, Text.weight_append]
      omega

/-- What stands in front of lexemes counts for nothing if it weighs nothing. -/
theorem weight_spelling {ls : List Lexeme} (h : ∀ l ∈ ls, weight w l.trivia.toList = 0) :
    weight w (spelling ls) = tokenWeight w ls := by
  induction ls with
  | nil => rfl
  | cons l ls ih =>
      have hl : weight w l.trivia.toList = 0 := h l (List.mem_cons_self ..)
      rw [tokenWeight_cons, Lexeme.spelling_cons, Text.weight_append, Text.weight_append, hl,
        ih fun k hk => h k (List.mem_cons_of_mem l hk), Nat.zero_add]

/-- The lexemes of a leaf weigh no more than its text. -/
theorem tokenWeight_of_leaf {part : List Lexeme} {l : Syntax.Label} {tr x : String}
    (h : Covers part (.leaf l tr x)) : tokenWeight w part ≤ weight w x.toList := by
  cases h with
  | @leaf l ls _ _ _ htext =>
      have hle := tokenWeight_le (w := w) ls
      rw [htext, tokenWeight_cons, Text.weight_append]
      omega

/-! ## Placeholders -/

/-- A placeholder is the only text that stands for its metavariable. -/
theorem Metavariable.eq_placeholder {text name : String} (h : nameOfPlaceholder? text = some name) :
    text = placeholder name := by
  unfold nameOfPlaceholder? Text.stripFront Text.stripBack at h
  obtain ⟨cs, hcs, rfl⟩ := Option.map_eq_some_iff.mp h
  obtain ⟨rest, hrest, hcs⟩ := Option.bind_eq_some_iff.mp hcs
  split at hrest
  · rename_i hfront
    obtain ⟨behind, hbehind⟩ := List.isPrefixOf_iff_prefix.mp hfront
    split at hcs
    · rename_i hback
      obtain ⟨name, hname⟩ := List.isSuffixOf_iff_suffix.mp hback
      obtain rfl : behind = rest := by
        rw [← hbehind, List.drop_left] at hrest
        exact Option.some.inj hrest
      obtain rfl : name = cs := by
        have hlength : behind.length - placeholderBack.toList.length = name.length := by
          rw [← hname, List.length_append, Nat.add_sub_cancel]
        rw [hlength, ← hname, List.take_left] at hcs
        exact Option.some.inj hcs
      apply String.toList_injective
      rw [toList_placeholder, String.toList_ofList, ← hbehind, ← hname, List.append_assoc]
    · exact absurd hcs (by simp)
  · exact absurd hrest (by simp)

namespace Template

variable {t : Template} {n p : Node} {v : Metavariable}

/-- **A node that stands for a metavariable** is a leaf with the placeholder, or a statement in which such a leaf is the
    only construct. -/
theorem metavariableAt?_inv (h : t.metavariableAt? n = some v) :
    v ∈ t.metavariables ∧ ∃ l tr, (n = .leaf l tr (Metavariable.placeholder v.name) ∨
      n.isKind Java.statementKind = true ∧
        n.namedChildren = [.leaf l tr (Metavariable.placeholder v.name)]) := by
  have hrecorded := metavariableAt?_recorded h
  refine ⟨List.mem_of_find?_eq_some hrecorded, ?_⟩
  unfold metavariableAt? at h
  split at h
  · exact absurd h (by simp)
  · rename_i leaf hleaf
    split at h
    · obtain ⟨name, hname, hfind⟩ := Option.bind_eq_some_iff.mp h
      obtain rfl : v.name = name := by simpa using List.find?_some hfind
      have htext := Metavariable.eq_placeholder hname
      -- the text of a branch is empty, and a placeholder is not
      obtain ⟨l, tr, x, rfl⟩ : ∃ l tr x, leaf = .leaf l tr x := by
        cases leaf with
        | leaf l tr x => exact ⟨l, tr, x, rfl⟩
        | branch l cs =>
            have hempty : "" = Metavariable.placeholder v.name := htext
            have hchars := congrArg String.toList hempty
            unfold Metavariable.placeholder at hchars
            rw [String.toList_append, String.toList_append] at hchars
            exact absurd hchars (by simp [Metavariable.placeholderFront])
      obtain rfl : x = Metavariable.placeholder v.name := htext
      refine ⟨l, tr, ?_⟩
      unfold placeholderLeaf? at hleaf
      split at hleaf
      · rename_i hkind
        split at hleaf
        · rename_i only honly
          obtain rfl := Option.some.inj hleaf
          exact Or.inr ⟨hkind, honly⟩
        · exact absurd hleaf (by simp)
      · exact Or.inl (Option.some.inj hleaf)
    · exact absurd h (by simp)

/-- So it has such a leaf in it. -/
theorem exists_leaf_of_metavariableAt? (h : t.metavariableAt? n = some v) :
    ∃ l tr, Node.leaf l tr (Metavariable.placeholder v.name) ∈ n.listing := by
  obtain ⟨-, l, tr, rfl | ⟨-, honly⟩⟩ := metavariableAt?_inv h
  · exact ⟨l, tr, Node.mem_listing_self _⟩
  · have hchild : Node.leaf l tr (Metavariable.placeholder v.name) ∈ n.namedChildren := by
      rw [honly]
      exact List.mem_singleton_self _
    exact ⟨l, tr, Node.mem_listing_of_mem_children (List.mem_of_mem_filter hchild)⟩

/-! ## Templates in their trees -/

/-- **The roots of a template** take its normalised text out of the text of its tree. -/
structure Stands (t : Template) (text : String) (ls part : List Lexeme) (nodes : List Node) : Prop where
  normal : Metavariable.normalise t.source = .ok (t.metavariables, text)
  read : Lexeme.ofText? t.tree.source = some (ls, t.tree.trailing)
  spelled : Spelled t.tree ls nodes
  closed : Closed t.tree.root
  run : t.tree.root.HasRun t.roots
  inside : part <:+: ls
  covers : CoversAll part t.roots
  cuts : (spanOf t.roots).Cuts t.tree.source.toList text.toList

theorem exists_stands {source : String} {ds : List Declaration} (h : compile source ds = .ok t) :
    ∃ text ls part nodes, t.Stands text ls part nodes := by
  obtain ⟨htrim, -, -, text, hnormal, wrapping, -, hread⟩ := compile_inv h
  rw [← htrim] at hnormal
  unfold readWrapped at hread
  simp only at hread
  split at hread
  · exact absurd hread (by simp)
  · rename_i tree htree
    obtain ⟨place, hplace, he⟩ := Option.map_eq_some_iff.mp hread
    obtain ⟨rfl, rfl⟩ := Prod.mk.inj he
    obtain ⟨hsource, ls, nodes, hlexemes, hspelled⟩ := Java.lexemes_of_parse? htree
    obtain ⟨parent, hparent, hneighbours, hne, hspan⟩ := nodes_of_placeOf? hplace
    have hrun : t.tree.root.HasRun t.roots := ⟨parent, hparent, hneighbours, hne⟩
    obtain ⟨part, hpart, -, hcovers⟩ := hspelled.coversAll_of_hasRun hrun
    have hcuts : (spanOf t.roots).Cuts t.tree.source.toList text.toList := by
      refine ⟨wrapping.1.toList, wrapping.2.toList, ?_, ?_⟩
      · rw [hsource, String.toList_append, String.toList_append]
      · have hroots : spanOf t.roots =
            ⟨wrapping.1.utf8ByteSize, wrapping.1.utf8ByteSize + text.utf8ByteSize⟩ := hspan
        rw [hroots, Text.byteLength_append, Text.utf8ByteSize_eq, Text.utf8ByteSize_eq]
    exact ⟨text, ls, part, nodes,
      { normal := hnormal
        read := hsource ▸ hlexemes
        spelled := hspelled
        closed := Java.closed_of_parse? htree
        run := hrun
        inside := hpart
        covers := hcovers
        cuts := hcuts }⟩

namespace Stands

variable {text : String} {ls part : List Lexeme} {nodes : List Node}
  (h : t.Stands text ls part nodes)
include h

theorem closed_roots : ∀ p ∈ t.roots, Closed p := by
  obtain ⟨parent, hparent, hneighbours, -⟩ := h.run
  intro p hp m hm
  refine h.closed m (Node.mem_listing_trans hparent ?_)
  exact Node.mem_listing_trans (Node.mem_listing_of_mem_children (hneighbours.subset hp)) hm

/-- The lexemes of the roots spell the normalised text. -/
theorem exists_cons : ∃ l rest, part = l :: rest ∧ text.toList = l.text.toList ++ spelling rest := by
  have hne : part ≠ [] := by
    rintro rfl
    obtain ⟨-, -, -, hne⟩ := h.run
    exact hne h.covers.eq_nil
  obtain ⟨l, rest, rfl⟩ := List.exists_cons_of_ne_nil hne
  have hcuts := h.spelled.cuts_extent h.inside
  have hsame := Text.slice?_of_cuts h.cuts
  rw [h.covers.spanOf_eq, Text.slice?_of_cuts hcuts] at hsame
  exact ⟨l, rest, rfl, (String.ofList_injective (Option.some.inj hsame)).symm⟩

end Stands

/-! ## Before-templates -/

mutual

/-- **The lexemes of a template node** weigh no more than those of its tokens that are no part of a placeholder. -/
theorem tokenWeight_le_nodeWeight (hw : SparesLayout w)
    (hnames : ∀ v ∈ t.metavariables, weight w (Metavariable.placeholder v.name).toList = 0) :
    ∀ {p : Node} {part : List Lexeme}, Closed p → Covers part p →
      tokenWeight w part ≤ nodeWeight w t p
  | .leaf l tr x, part, _, hp => by
      have hle := tokenWeight_of_leaf (w := w) hp
      cases hv : t.metavariableAt? (.leaf l tr x) with
      | none => rwa [nodeWeight, hv]
      | some v =>
          obtain ⟨hmem, l', tr', hleaf | ⟨-, honly⟩⟩ := metavariableAt?_inv hv
          · obtain ⟨-, -, rfl⟩ := Node.leaf.inj hleaf
            rw [hnames v hmem] at hle
            exact Nat.le_trans hle (Nat.zero_le _)
          · exact absurd honly (by simp [Node.namedChildren, Node.children])
  | .branch _ cs, part, hclosed, hp => by
      cases hp with
      | @branch l ls kind field _ hcs =>
          cases hv : t.metavariableAt? (.branch ⟨kind, field, extent (l :: ls)⟩ cs) with
          | none =>
              rw [nodeWeight, hv]
              exact tokenWeight_le_nodesWeight hw hnames (fun c hc => hclosed.of_mem_children hc) hcs
          | some v =>
              obtain ⟨hmem, l', tr', hleaf | ⟨hkind, honly⟩⟩ := metavariableAt?_inv hv
              · exact absurd hleaf (by simp)
              · -- but for the placeholder there is only the semicolon
                obtain ⟨l'', tr'', hchildren⟩ := hclosed.children_of_namedChildren hkind honly
                obtain rfl : cs = [.leaf l' tr' (Metavariable.placeholder v.name), .leaf l'' tr'' ";"] :=
                  hchildren
                have hcs' : CoversAll (l :: ls)
                    ([.leaf l' tr' (Metavariable.placeholder v.name)] ++ [.leaf l'' tr'' ";"]) := hcs
                obtain ⟨front, behind, hpart, hfront, hbehind⟩ := hcs'.append_inv
                have hname := tokenWeight_of_leaf (w := w) (hfront.of_single)
                have hsemicolon := tokenWeight_of_leaf (w := w) (hbehind.of_single)
                have hnone : weight w ";".toList = 0 := by
                  rw [Text.weight_eq_zero_iff]
                  intro c hc
                  rw [List.mem_singleton.mp hc]
                  exact hw.semicolon
                rw [hnames v hmem] at hname
                rw [hnone] at hsemicolon
                rw [hpart, tokenWeight_append]
                omega

theorem tokenWeight_le_nodesWeight (hw : SparesLayout w)
    (hnames : ∀ v ∈ t.metavariables, weight w (Metavariable.placeholder v.name).toList = 0) :
    ∀ {ps : List Node} {part : List Lexeme}, (∀ p ∈ ps, Closed p) → CoversAll part ps →
      tokenWeight w part ≤ nodesWeight w t ps
  | [], _, _, h => by
      cases h
      exact Nat.le_refl _
  | p :: ps, _, hclosed, h => by
      cases h with
      | cons hp hps =>
          have hhead := tokenWeight_le_nodeWeight hw hnames (hclosed p (List.mem_cons_self ..)) hp
          have htail := tokenWeight_le_nodesWeight hw hnames
            (fun q hq => hclosed q (List.mem_cons_of_mem p hq)) hps
          rw [tokenWeight_append, nodesWeight]
          omega

end

/-- What is in front of the lexemes of a text without a slash weighs nothing, but for the first of them. -/
theorem Stands.weight_trivia {text : String} {ls part : List Lexeme} {nodes : List Node}
    (h : t.Stands text ls part nodes) (hw : SparesLayout w) (hslash : '/' ∉ text.toList) {l : Lexeme}
    {rest : List Lexeme} (hpart : part = l :: rest)
    (htext : text.toList = l.text.toList ++ spelling rest) :
    ∀ k ∈ rest, weight w k.trivia.toList = 0 := by
  intro k hk
  rw [Text.weight_eq_zero_iff]
  have hk' : k ∈ ls := by
    refine h.inside.subset ?_
    rw [hpart]
    exact List.mem_cons_of_mem l hk
  have hnone : '/' ∉ k.trivia.toList := by
    intro hmem
    refine hslash ?_
    rw [htext]
    refine List.mem_append_right _ (List.mem_flatMap.mpr ⟨k, hk, ?_⟩)
    exact List.mem_append_left _ hmem
  rcases h.spelled.clear k hk' with hthere | hblank
  · exact absurd hthere hnone
  · intro c hc
    rcases hblank c hc with hblank | rfl
    · exact hw.blank c hblank
    · exact hw.mark

/-- **The tokens of a template** weigh as much as its text, at least, if there is no comment in it. -/
theorem weight_le_ownWeight (hw : SparesLayout w) {source : String} {ds : List Declaration}
    (h : compile source ds = .ok t) (hslash : '/' ∉ t.source.toList) :
    weight w t.source.toList ≤ t.ownWeight w := by
  obtain ⟨text, ls, part, nodes, hstands⟩ := exists_stands h
  obtain ⟨hnames, hweight⟩ := Metavariable.normalise_spec hw.toSparesNames hstands.normal
  -- slashes are counted by weights of their own
  have hslash' : '/' ∉ text.toList := by
    let slashes : Char → Nat := fun c => if c = '/' then 1 else 0
    have hspares : Metavariable.SparesNames slashes := by
      refine ⟨rfl, ?_⟩
      intro c hc
      have hne : c ≠ '/' := by
        rintro rfl
        exact absurd hc (by decide)
      exact if_neg hne
    obtain ⟨-, hcount⟩ := Metavariable.normalise_spec hspares hstands.normal
    have hnone : weight slashes t.source.toList = 0 := by
      rw [Text.weight_eq_zero_iff]
      intro c hc
      have hne : c ≠ '/' := by
        rintro rfl
        exact hslash hc
      exact if_neg hne
    rw [hnone, Text.weight_eq_zero_iff] at hcount
    intro hmem
    exact absurd (hcount '/' hmem) (by decide)
  have hplaceholders : ∀ v ∈ t.metavariables,
      weight w (Metavariable.placeholder v.name).toList = 0 := by
    intro v hv
    have hnone := Metavariable.weight_placeholder hw.toSparesNames (hnames v hv)
    rwa [String.ofList_toList] at hnone
  have htokens := tokenWeight_le_nodesWeight hw hplaceholders hstands.closed_roots hstands.covers
  have hown : t.ownWeight w = nodesWeight w t t.roots := by
    unfold ownWeight
    cases hroot : t.root? with
    | none => rfl
    | some root => rw [roots_eq_singleton h hroot, nodesWeight, nodesWeight, Nat.add_zero]
  obtain ⟨l, rest, hpart, htext⟩ := hstands.exists_cons
  have htrivia := hstands.weight_trivia hw hslash' hpart htext
  rw [← hweight, htext, Text.weight_append, weight_spelling htrivia, hown, ← tokenWeight_cons, ← hpart]
  exact htokens

end Template

end JavaRefactor

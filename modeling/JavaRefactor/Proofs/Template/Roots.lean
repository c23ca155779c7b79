import JavaRefactor.Proofs.Java.Brackets
import JavaRefactor.Proofs.Java.Nested
import JavaRefactor.Proofs.Template.Weight

/-!
# `Proofs.Template.Roots` — the roots of a template are the template

A template is read inside a text that is put around it. What is found there as its roots starts and ends where the template
does; and since brackets below every node are in pairs, the roots have no bracket of which the other one is in the text
around them.

## Contents
- **`innermost_of_placeOf?`**: the node that is found for a span is the innermost one.
- **Brackets.** `readWrapped_bracket`, a template that is one bracket; `balanced_of_bracketed`, for neighbouring nodes.
- **`compile_roots`**.
-/

namespace JavaRefactor.Template

open Java (Balanced Bracketed Covers CoversAll kindsOf isBracket)
open Syntax (Node Tree spanOf)
open Text (Span)

/-! ## Spans -/

/-- **The node at the place of a span**, if it is no run, is the innermost one that has the span. -/
theorem innermost_of_placeOf? {root : Node} {span : Span} {p : Place} (h : placeOf? root span = some p)
    (hrun : p.isRun = false) (hroot : root.Nested) :
    ∃ c, p.nodes root = [c] ∧ c.span = span ∧ ∀ m ∈ Node.listingAll c.children, m.span ≠ span := by
  unfold placeOf? at h
  split at h
  · rename_i path hpath
    obtain ⟨front, last, parent, c, rfl, hparent, hc, hspan, hnone⟩ := innermostPath_spec hpath
    rw [List.getLast?_concat, List.dropLast_concat] at h
    obtain rfl := Option.some.inj h
    have hmem := Node.mem_listing_trans (nodeAt?_mem hparent)
      (Node.mem_listing_of_mem_children (List.mem_of_getElem? hc))
    exact ⟨c, nodes_of_child hparent hc, hspan,
      span_ne_of_innermostPath (hroot.of_mem_listing hmem).1.enclosing hnone⟩
  · rw [isRun_of_runPlace h] at hrun
    exact absurd hrun (by simp)

/-! ## Brackets -/

/-- All brackets. -/
def brackets : List String := Java.bracketPairs.flatMap fun (opens, closes) => [opens, closes]

theorem mem_brackets {content : String} (h : isBracket content = true) : content ∈ brackets := by
  unfold isBracket Java.closerOf Java.isCloser at h
  rcases (Bool.or_eq_true _ _).mp h with h | h
  · rw [Option.isSome_map, List.find?_isSome] at h
    obtain ⟨pair, hpair, hopens⟩ := h
    obtain rfl := beq_iff_eq.mp hopens
    exact List.mem_flatMap.mpr ⟨pair, hpair, by simp⟩
  · obtain ⟨pair, hpair, hcloses⟩ := List.any_eq_true.mp h
    obtain rfl := beq_iff_eq.mp hcloses
    exact List.mem_flatMap.mpr ⟨pair, hpair, by simp⟩

/-- A bracket alone is no template. -/
theorem readWrapped_bracket : ∀ content ∈ brackets, ∀ wrapping ∈ wrappings,
    (readWrapped content wrapping).isNone = true := by decide +kernel

/-- A leaf of a kind that is not plain is a bracket. -/
theorem exists_bracket {n : Node} (hleaf : n.isLeaf = true) (hplain : ¬Java.isPlain n.kind = true) :
    ∃ l tr x content, n = .leaf l tr x ∧ l.kind = .token content ∧ isBracket content = true := by
  cases n with
  | branch l cs => exact absurd hleaf (by simp [Node.isLeaf])
  | leaf l tr x =>
      have hbare : ¬Java.isPlain l.kind = true := hplain
      cases hk : l.kind with
      | named name => exact absurd (hk ▸ rfl) hbare
      | token content => exact ⟨l, tr, x, content, rfl, hk, by simpa [hk, Java.isPlain] using hbare⟩

/-- The brackets of neighbouring nodes are in pairs, unless one of them is a bracket. -/
theorem balanced_of_bracketed {ns : List Node} (h : ∀ n ∈ ns, Bracketed n)
    (hplain : ∀ n ∈ ns, n.isLeaf = true → Java.isPlain n.kind = true) : Balanced (kindsOf ns) := by
  induction ns with
  | nil => exact Java.acts_nil.balanced
  | cons n ns ih =>
      rw [← List.singleton_append, Java.kindsOf_append]
      refine Balanced.append ?_ (ih (fun m hm => h m (by simp [hm])) fun m hm => hplain m (by simp [hm]))
      cases n with
      | leaf l tr x => exact (Java.acts_plain (hplain _ (by simp) rfl)).balanced
      | branch l cs =>
          have hpaired : Balanced (kindsOf cs) := h (.branch l cs) (by simp) _ (Node.mem_listing_self _)
          unfold kindsOf at hpaired ⊢
          rwa [Node.tokensAll, Node.tokens, Node.tokensAll, List.append_nil]

/-! ## Templates -/

/-- What a leaf is printed as is its text. -/
theorem Stands.eq_of_leaf {t : Template} {text : String} {ls part : List Java.Lexeme} {nodes : List Node}
    (h : t.Stands text ls part nodes) {l : Syntax.Label} {tr x : String} (hroots : t.roots = [.leaf l tr x]) :
    x = text := by
  obtain ⟨first, rest, rfl, htext⟩ := h.exists_cons
  have hcovers := h.covers
  rw [hroots] at hcovers
  have hcovers := hcovers.of_single
  cases hcovers with
  | leaf hx => exact String.toList_injective (hx.trans htext.symm)

/-- What is printed of the roots is the normalised text. -/
theorem Stands.print_eq {t : Template} {text : String} {ls part : List Java.Lexeme} {nodes : List Node}
    (h : t.Stands text ls part nodes) (label : Syntax.Label) : (Node.branch label t.roots).print = text := by
  obtain ⟨first, rest, rfl, htext⟩ := h.exists_cons
  obtain ⟨label', x, others, htokens⟩ := h.covers.exists_token
  apply String.toList_injective
  unfold Node.print
  rw [Node.tokens, htokens, htext]
  exact Java.print_of_token htokens h.covers.printAll_tokens

/-- **The roots of a template are the template.** They start where the normalised text starts in the text that is put
    around it, end where it ends, and are printed as it is. They are one node, below which no other one has the same
    place, or neighbouring constructs below one node; and their brackets are in pairs, so none of them closes or opens
    what is around the template. -/
theorem compile_roots {source : String} {ds : List Declaration} {t : Template} (h : compile source ds = .ok t) :
    ∃ wrapping ∈ wrappings, ∃ text, Metavariable.normalise (Text.trim source) = .ok (t.metavariables, text) ∧
      t.tree.source = wrapping.1 ++ text ++ wrapping.2 ∧
      t.roots ≠ [] ∧
      spanOf t.roots = ⟨wrapping.1.utf8ByteSize, wrapping.1.utf8ByteSize + text.utf8ByteSize⟩ ∧
      (∀ label, (Node.branch label t.roots).print = text) ∧
      (t.isRun = false → ∃ root, t.root? = some root ∧ t.roots = [root] ∧ root.span = spanOf t.roots ∧
        ∀ m ∈ Node.listingAll root.children, m.span ≠ root.span) ∧
      (t.isRun = true → (∀ n ∈ t.roots, n.isNamed = true) ∧
        ∃ parent ∈ t.tree.root.listing, t.roots <:+: parent.children) ∧
      Balanced (kindsOf t.roots) := by
  obtain ⟨text', ls, part, nodes, hstands⟩ := exists_stands h
  obtain ⟨htrim, -, -, text, hnormal, wrapping, hwrapping, hread⟩ := compile_inv h
  obtain rfl : text' = text := by
    have hsame := hstands.normal
    rw [htrim, hnormal] at hsame
    exact (Prod.mk.inj (Except.ok.inj hsame)).2.symm
  have hfound := hread
  unfold readWrapped at hread
  simp only at hread
  split at hread
  · exact absurd hread (by simp)
  · rename_i tree htree
    obtain ⟨place, hplace, he⟩ := Option.map_eq_some_iff.mp hread
    obtain ⟨rfl, rfl⟩ := Prod.mk.inj he
    obtain ⟨parent, hparent, hneighbours, hne, hspan⟩ := nodes_of_placeOf? hplace
    have hsingle : t.isRun = false → ∃ root, t.roots = [root] ∧ root.span = spanOf t.roots ∧
        ∀ m ∈ Node.listingAll root.children, m.span ≠ root.span := by
      intro hrun
      obtain ⟨root, hroot, hrootspan, hbelow⟩ := innermost_of_placeOf? hplace hrun hstands.spelled.nested
      exact ⟨root, hroot, hrootspan.trans hspan.symm, hrootspan ▸ hbelow⟩
    have hbracketed : ∀ n ∈ t.roots, Bracketed n := by
      intro n hn
      have hmem := Node.mem_listing_trans hparent (Node.mem_listing_of_mem_children (hneighbours.subset hn))
      exact (Java.bracketed_of_parse? htree).of_mem_listing hmem
    refine ⟨wrapping, hwrapping, text', hnormal, (Java.spelled_of_parse? htree).1, hne, hspan, hstands.print_eq,
      fun hrun => ?_, fun hrun => ⟨isNamed_of_placeOf? hplace hrun, parent, hparent, hneighbours⟩,
      balanced_of_bracketed hbracketed fun n hn hleaf => ?_⟩
    · obtain ⟨root, hroot, hrest⟩ := hsingle hrun
      exact ⟨root, by rw [root?, hrun, hroot]; rfl, hroot, hrest⟩
    · -- a root that is a bracket would be the whole template
      by_contra hplain
      obtain ⟨l, tr, x, content, rfl, hkind, hcontent⟩ := exists_bracket hleaf hplain
      have hrun : t.isRun = false := by
        rw [Bool.eq_false_iff]
        intro hrun
        have hnamed : l.kind.isNamed = true := isNamed_of_placeOf? hplace hrun _ hn
        rw [hkind] at hnamed
        exact absurd hnamed (by simp [Syntax.Kind.isNamed])
      have hpaired : Java.Paired (.leaf l tr x) := hbracketed _ hn _ (Node.mem_listing_self _)
      have hx : x = content := hpaired content hkind hcontent
      obtain ⟨root, hroot, -⟩ := hsingle hrun
      rw [hroot, List.mem_singleton] at hn
      have htext := hstands.eq_of_leaf (hroot.trans (congrArg (fun n => [n]) hn.symm))
      have hnone := readWrapped_bracket content (mem_brackets hcontent) wrapping hwrapping
      rw [← hx, htext, hfound] at hnone
      exact absurd hnone (by simp)

/-- A template that is a run of statements, and one that is a member of a class. -/
theorem compile_roots_statements :
    (∃ t wrapping text, compile "f($X); g[1] = 2;" [] = .ok t ∧ wrapping ∈ wrappings ∧
      t.tree.source = wrapping.1 ++ text ++ wrapping.2 ∧
      spanOf t.roots = ⟨wrapping.1.utf8ByteSize, wrapping.1.utf8ByteSize + text.utf8ByteSize⟩ ∧
      t.isRun = true ∧ (∀ n ∈ t.roots, n.isNamed = true) ∧ Balanced (kindsOf t.roots)) ∧
    ∃ t wrapping text root, compile "T(int x) \x7b this.x = $X; \x7d" [] = .ok t ∧ wrapping ∈ wrappings ∧
      t.tree.source = wrapping.1 ++ text ++ wrapping.2 ∧ t.roots = [root] ∧
      root.span = ⟨wrapping.1.utf8ByteSize, wrapping.1.utf8ByteSize + text.utf8ByteSize⟩ ∧
      root.isKind "constructor_declaration" = true ∧ ∀ m ∈ Node.listingAll root.children, m.span ≠ root.span := by
  refine ⟨?_, ?_⟩
  · have h : ((compile "f($X); g[1] = 2;" []).toOption.any fun t => t.isRun) = true := by decide +kernel
    obtain ⟨t, ht, hrun⟩ := (Option.any_eq_true _ _).mp h
    have ht := Attempts.toOption_eq_some.mp ht
    obtain ⟨wrapping, hmem, text, -, hsource, -, hspan, -, -, hnamed, hbalanced⟩ := compile_roots ht
    exact ⟨t, wrapping, text, ht, hmem, hsource, hspan, hrun, (hnamed hrun).1, hbalanced⟩
  · have h : ((compile "T(int x) \x7b this.x = $X; \x7d" []).toOption.any fun t =>
        !t.isRun && t.roots.all (·.isKind "constructor_declaration")) = true := by decide +kernel
    obtain ⟨t, ht, h⟩ := (Option.any_eq_true _ _).mp h
    have ht := Attempts.toOption_eq_some.mp ht
    obtain ⟨hrun, hkind⟩ := (Bool.and_eq_true _ _).mp h
    obtain ⟨wrapping, hmem, text, -, hsource, -, hspan, -, hsingle, -⟩ := compile_roots ht
    obtain ⟨root, -, hroots, hroot, hbelow⟩ := hsingle (by simpa using hrun)
    exact ⟨t, wrapping, text, root, ht, hmem, hsource, hroots, hroot.trans hspan,
      List.all_eq_true.mp hkind root (hroots ▸ List.mem_singleton_self _), hbelow⟩

end JavaRefactor.Template

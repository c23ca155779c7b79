import JavaRefactor.Proofs.Java.StatementBodies
import JavaRefactor.Proofs.Match.Statements

/-!
# `Proofs.Match.Bodies` — placeholders inside statements

A placeholder for a statement inside a statement of the template, as in `while (c) $S;`, takes what stands at its
place in a construct of the same kind, whatever else the template asks for. That is a statement.

## Contents
- **`Template.Reached`**: the nodes of a template that are laid over nodes of their own, and
  `Overlay.of_reached`.
- **`statement_of_list`** and **`statement_of_holder`**: what a placeholder for a statement lies over, in a list
  of statements and in a construct with a body.
- **`Matcher.BindsInside`** and **`binds_inside`**: it is bound to a statement.
- **`Matcher.sites_of_statements`**, for all placeholders of a template of several statements.
-/

namespace JavaRefactor

open Syntax (Node Tree spanOf)
open Java (Trait isStatement isStatementList isLabel isExpressionStatement listKinds holderKinds)

variable {t : Template} {p q n root : Node} {ps ns : List Node} {fs : List Facing} {v : Metavariable}

/-! ## Nodes of a template -/

namespace Template

/-- The node is reached from the root through nodes that stand for themselves, and is one of them. -/
inductive Reached (t : Template) (root : Node) : Node → Prop where
  | root (hw : t.isWritten root = true) : Reached t root root
  | child {p c : Node} (hp : Reached t root p) (hc : c ∈ p.children) (hw : t.isWritten c = true) :
      Reached t root c

theorem Reached.mem_listing (h : t.Reached root p) : p ∈ root.listing := by
  induction h with
  | root => exact Node.mem_listing_self root
  | child _ hc _ ih => exact Node.mem_listing_trans ih (Node.mem_listing_of_mem_children hc)

theorem Reached.isWritten_root (h : t.Reached root p) : t.isWritten root = true := by
  induction h with
  | root hw => exact hw
  | child _ _ _ ih => exact ih

/-- Only names and statements that are expressions are placeholders. -/
theorem isWritten_of_kind
    (h : ∀ name ∈ ["identifier", "type_identifier", "expression_statement"], p.isKind name = false) :
    t.isWritten p = true := by
  simp [isWritten, metavariableAt?, placeholderLeaf?, h]

theorem isWritten_of_token (h : p.isNamed = false) : t.isWritten p = true := by
  refine isWritten_of_kind ?_
  intro name _
  refine beq_eq_false_iff_ne.mpr ?_
  intro hkind
  rw [Node.isNamed, hkind] at h
  exact absurd h (by simp [Syntax.Kind.isNamed])

theorem isWritten_of_label (h : isLabel p = true) : t.isWritten p = true := by
  obtain ⟨-, -, hlabel⟩ := Trait.holds_among.mp h
  refine isWritten_of_kind ?_
  intro name hname
  refine beq_eq_false_iff_ne.mpr ?_
  intro hkind
  have hlabel : name = Java.labelKind := by
    rw [Node.kindName, hkind] at hlabel
    exact List.mem_singleton.mp hlabel
  rw [hlabel] at hname
  exact absurd hname (by decide)

end Template

/-- A reached node of the template lies over a node of its kind, child by child. -/
theorem Overlay.of_reached (ho : Overlay t root n fs) (hp : t.Reached root p) :
    ∃ k ∈ n.listing, k.kind = p.kind ∧ ∃ gs, OverlayAll t p.children k.children gs ∧ ∀ f ∈ gs, f ∈ fs := by
  have hself : ∀ {p n : Node} {fs : List Facing}, Overlay t p n fs → t.isWritten p = true →
      n.kind = p.kind ∧ OverlayAll t p.children n.children fs := by
    intro p n fs ho hw
    have hnone : t.metavariableAt? p = none := Option.isNone_iff_eq_none.mp hw
    cases ho with
    | single hv _ | alone hv _ => exact absurd (hnone.symm.trans hv) (by simp)
    | leaf _ hk => exact ⟨hk, .nil⟩
    | branch _ hk hc => exact ⟨hk, hc⟩
  induction hp with
  | root hw =>
      obtain ⟨hk, hc⟩ := hself ho hw
      exact ⟨n, Node.mem_listing_self n, hk, fs, hc, fun f hf => hf⟩
  | child _ hc hw ih =>
      obtain ⟨k, hk, -, gs, hall, hsub⟩ := ih
      obtain ⟨n', hmem, gs', hn', hsub'⟩ := hall.exists_of_mem hc (Template.isSingle_of_isWritten hw)
      obtain ⟨hkind, hover⟩ := hself hn' hw
      exact ⟨n', Node.mem_listing_trans hk (Node.mem_listing_of_mem_children hmem), hkind, gs', hover,
        fun f hf => hsub f (hsub' f hf)⟩

/-! ## Places of statements -/

section

variable {source text : String} {tree tree' : Tree} {k : Node} {front back : List Node}
  (hparse : Java.parse? source = some tree) (hparse' : Java.parse? text = some tree')
  (hk : k ∈ tree.root.listing) (hq : q ∈ tree'.root.listing)
  (hchildren : q.children = front ++ p :: back) (hstatement : isExpressionStatement p = true)
  (ho : OverlayAll t q.children k.children fs) (hsingle : t.isSingle p = true)

include hparse hparse' hk hq hchildren hstatement ho hsingle

/-- **In a construct with a body** a statement of the template lies over a statement, or over a token. -/
theorem statement_of_holder (hholder : k.kindName ∈ holderKinds) (hlist : isStatementList q = false) :
    ∃ n ∈ k.children, ∃ gs, Overlay t p n gs ∧ (∀ f ∈ gs, f ∈ fs) ∧
      (n.isNamed = true → isStatement n = true) := by
  rw [hchildren] at ho
  obtain ⟨xs, ys, gs₀, hs, hns, rfl, -, hrest⟩ := ho.of_append
  obtain ⟨n, ms, gs, hs', rfl, rfl, hn, hback⟩ := hrest.of_cons hsingle
  refine ⟨n, by simp [hns], gs, hn, fun f hf => by simp [hf], fun hnamed => ?_⟩
  refine Java.isStatement_of_body hparse hk hholder hnamed ?_
  cases back with
  | nil =>
      -- the last part of the template lies over the last part
      cases hback with
      | nil => exact Or.inl (by simp [hns])
  | cons f back =>
      have hpf : [p, f] <:+: q.children := ⟨front, back, by simp [hchildren]⟩
      obtain ⟨hfollower, htoken⟩ := Java.follows_expressionStatement hparse' hq hlist hpf hstatement
      have hwritten : t.isWritten f = true := Template.isWritten_of_token htoken
      obtain ⟨f', ms', _, _, rfl, rfl, hf', -⟩ := hback.of_cons (Template.isSingle_of_isWritten hwritten)
      refine Or.inr ⟨f', ⟨xs, ms', by simp [hns]⟩, ?_⟩
      rw [hf'.holds_eq hwritten, hfollower]

/-- **In a list of statements** a statement of the template lies over a statement, or over a token. -/
theorem statement_of_list (hname : k.kindName = q.kindName) (hlist : isStatementList q = true) :
    ∃ n ∈ k.children, ∃ gs, Overlay t p n gs ∧ (∀ f ∈ gs, f ∈ fs) ∧
      (n.isNamed = true → isStatement n = true) := by
  rw [hchildren] at ho
  obtain ⟨xs, ys, gs₀, hs, hns, rfl, hfront, hrest⟩ := ho.of_append
  obtain ⟨n, ms, gs, hs', rfl, rfl, hn, -⟩ := hrest.of_cons hsingle
  have hmem : n ∈ k.children := by simp [hns]
  have hlist' : isStatementList k = true := by rw [isStatementList, hname]; exact hlist
  refine ⟨n, hmem, gs, hn, fun f hf => by simp [hf], fun hnamed => ?_⟩
  refine (Java.isStatement_of_mem_list hparse hk hlist' hmem hnamed).resolve_right ?_
  intro hlabel
  -- a label is the first part of a group, and so it is in the template
  have hgroup : k.kindName = Java.groupKind := by
    refine (Java.parent_of_label hparse hk hmem hlabel).resolve_right ?_
    intro hrule
    rw [isStatementList, hrule] at hlist'
    exact absurd hlist' (by decide)
  have hxs : xs = [] := by
    rcases List.eq_nil_or_concat xs with rfl | ⟨xs, x, rfl⟩
    · rfl
    · exact absurd ⟨xs, ms, by simp [hns]⟩ (Java.not_infix_of_label (x := x) hparse hk hlabel)
  cases front with
  | nil =>
      have hhead := Java.isLabel_of_head hparse' hq (hname ▸ hgroup) (x := p) (by simp [hchildren])
      obtain ⟨-, -, hlabel⟩ := Trait.holds_among.mp hhead
      obtain ⟨-, -, hexpression⟩ := Trait.holds_among.mp hstatement
      rw [List.mem_singleton.mp hlabel] at hexpression
      exact absurd hexpression (by decide)
  | cons f front =>
      have hhead := Java.isLabel_of_head hparse' hq (hname ▸ hgroup) (x := f) (by simp [hchildren])
      have hwritten : t.isWritten f = true := Template.isWritten_of_label hhead
      rw [hxs] at hfront
      obtain ⟨_, _, _, _, hcons, -⟩ := hfront.of_cons (Template.isSingle_of_isWritten hwritten)
      exact absurd hcons (by simp)

end

namespace Matcher

/-- A placeholder for a statement, inside a statement of the template, is bound to a statement. -/
def BindsInside (t : Template) (b : Binding) : Prop :=
  ∀ root ∈ t.roots, ∀ q p v, t.Reached root q → p ∈ q.children → isExpressionStatement p = true →
    t.metavariableAt? p = some v → v.shape = .single → v.name ≠ Metavariable.wildcard →
    ∃ n, b.get? v.name = some (.node n) ∧ isStatement n = true

section

variable {source text : String} {ds : List Declaration} {tree : Tree} {list : Node} {xs : List Node}
  {typing : Types.Typing} {b : Binding}

/-- **A placeholder inside a statement** is bound to a statement, wherever the template is found. -/
theorem binds_inside (hparse : Java.parse? source = some tree) (ht : Template.compile text ds = .ok t)
    (hlist : list ∈ tree.root.listing) (hxs : xs <:+: list.children)
    (ho : OverlayAll t t.roots xs fs) (he : Explained ⟨t, typing⟩ t.roots fs b) : BindsInside t b := by
  intro root hroot q p v hq hp hstatement hv hs hwildcard
  obtain ⟨_, span, hparse', hplace⟩ := Template.exists_placeOf? ht
  have hsingle : t.isSingle p = true := Template.isSingle_of_single hv hs
  -- where the construct around the placeholder is in the template, and what it lies over
  have hq' : q ∈ t.tree.root.listing := by
    obtain ⟨parent, hparent, hinfix, -⟩ := Template.nodes_of_placeOf? hplace
    have hmem : root ∈ parent.children := hinfix.mem hroot
    exact Node.mem_listing_trans hparent
      (Node.mem_listing_trans (Node.mem_listing_of_mem_children hmem) hq.mem_listing)
  obtain ⟨n₀, hn₀, gs₀, hover, hsub₀⟩ :=
    ho.exists_of_mem hroot (Template.isSingle_of_isWritten hq.isWritten_root)
  obtain ⟨k, hk, hkind, gs₁, hall, hsub₁⟩ := hover.of_reached hq
  have hk' : k ∈ tree.root.listing :=
    Node.mem_listing_trans hlist
      (Node.mem_listing_trans (Node.mem_listing_of_mem_children (hxs.mem hn₀)) hk)
  have hname : k.kindName = q.kindName := by rw [Node.kindName, hkind, Node.kindName]
  obtain ⟨front, back, hchildren⟩ := List.append_of_mem hp
  obtain ⟨n, -, gs, hn, hsub, hnstatement⟩ : ∃ n ∈ k.children, ∃ gs, Overlay t p n gs ∧
      (∀ f ∈ gs, f ∈ gs₁) ∧ (n.isNamed = true → isStatement n = true) := by
    by_cases hstatements : isStatementList q = true
    · exact statement_of_list hparse hparse' hk' hq' hchildren hstatement hall hsingle hname hstatements
    · have hholder := (Java.parent_of_expressionStatement hparse' hq' hp hstatement).resolve_left hstatements
      rw [← hname] at hholder
      exact statement_of_holder hparse hparse' hk' hq' hchildren hstatement hall hsingle hholder
        (by simpa using hstatements)
  have hface : (⟨v, .node n⟩ : Facing) ∈ fs := by
    refine hsub₀ _ (hsub₁ _ (hsub _ ?_))
    rw [hn.eq_of_single hv hs]
    exact List.mem_singleton_self _
  exact bound_of_facing he hface hwildcard (hnstatement (isNamed_of_explained he _ hface n rfl))

end

/-- **Templates of several statements.** In the tree of a Java text, every site of a template that has an anchor
    covers neighbouring elements of a list of statements, and every placeholder for a statement that stands
    beside another root is bound to a statement or a declaration. A placeholder inside a statement is bound to
    one at every site, whether there is an anchor or not. -/
theorem sites_of_statements {source text : String} {ds : List Declaration} {tree : Tree} {t : Template}
    (hparse : Java.parse? source = some tree) (ht : Template.compile text ds = .ok t)
    (hrun : t.isRun = true) (typing : Types.Typing) (accept : Binding → Bool) {s : Site}
    (hs : s ∈ (Matcher.mk t typing).sitesWhere accept tree.root) :
    (t.anchored = true → StandsAmongStatements tree.root s ∧ BindsStatements t s.binding) ∧
      BindsInside t s.binding := by
  obtain ⟨list, xs, fs, hlist, hxs, hne, hspan, ho, he⟩ := overlay_of_mem_sitesWhere hrun hs
  refine ⟨fun hanchored => ?_, binds_inside hparse ht hlist hxs ho he⟩
  have hstatements := isStatementList_of_anchored hparse ht hrun hlist hxs ho he hanchored
  refine ⟨⟨list, hlist, hstatements, xs, hxs, hne, hspan, ?_⟩, ?_⟩
  · intro x hx hnamed
    exact Java.isStatement_of_mem_list hparse hlist hstatements (hxs.mem hx) hnamed
  · exact bindsStatements_of_list hparse ht hrun hlist hxs ho he hstatements

/-- A call, any statement, and a loop with any body: here a declaration and a block, bound as a whole. -/
theorem sites_of_statements_loop : ∃ tree t s n k,
    Java.parse? "class T { void t() { f(); int x = 1; while (x < 3) { x++; } } }" = some tree ∧
    Template.compile "f(); $S; while ($C) $B;" [] = .ok t ∧ t.isRun = true ∧ t.anchored = true ∧
    s ∈ (Matcher.mk t .empty).sitesWhere (fun _ => true) tree.root ∧ StandsAmongStatements tree.root s ∧
    s.binding.get? "S" = some (.node n) ∧ isStatement n = true ∧
    s.binding.get? "B" = some (.node k) ∧ isStatement k = true := by
  have h : ((Java.parse? "class T { void t() { f(); int x = 1; while (x < 3) { x++; } } }").any fun tree =>
      (Template.compile "f(); $S; while ($C) $B;" []).toOption.any fun t => t.isRun && t.anchored &&
        (t.roots.zip t.roots.tail).any (fun pair => t.isSingle pair.1 &&
          (t.metavariableAt? pair.2).any fun v => v.shape == .single && v.name == "S") &&
        t.roots.any (fun root => t.isWritten root && root.children.any fun p => isExpressionStatement p &&
          (t.metavariableAt? p).any fun v => v.shape == .single && v.name == "B") &&
        !((Matcher.mk t .empty).sitesWhere (fun _ => true) tree.root).isEmpty) = true := by
    decide +kernel
  obtain ⟨tree, htree, h⟩ := (Option.any_eq_true _ _).mp h
  obtain ⟨t, ht, h⟩ := (Option.any_eq_true _ _).mp h
  have ht := Attempts.toOption_eq_some.mp ht
  simp only [Bool.and_eq_true, List.any_eq_true, Option.any_eq_true, beq_iff_eq, Prod.exists] at h
  obtain ⟨⟨⟨⟨hrun, hanchored⟩, q, p, hpair, hq, v, hv, hshape, hname⟩, root, hroot, hwritten, p', hp',
    hstatement, v', hv', hshape', hname'⟩, hsites⟩ := h
  obtain ⟨s, hs⟩ := List.exists_mem_of_ne_nil _ (by simpa using hsites)
  obtain ⟨hanchor, hinside⟩ := sites_of_statements htree ht hrun .empty (fun _ => true) hs
  obtain ⟨hstands, hbeside⟩ := hanchor hanchored
  obtain ⟨n, hn, hstatement₁⟩ := hbeside p q v (.inr (Template.infix_of_mem_zip_tail hpair)) hq hv hshape
    (by rw [hname]; decide)
  obtain ⟨k, hk, hstatement₂⟩ := hinside root hroot root p' v' (.root hwritten) hp' hstatement hv' hshape'
    (by rw [hname']; decide)
  rw [hname] at hn
  rw [hname'] at hk
  exact ⟨tree, t, s, n, k, htree, ht, hrun, hanchored, hs, hstands, hn, hstatement₁, hk, hstatement₂⟩

end Matcher

end JavaRefactor

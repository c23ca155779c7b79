import JavaRefactor.Proofs.Attempts
import JavaRefactor.Proofs.Match.Sites
import JavaRefactor.Proofs.Types.Layout

/-!
# `Proofs.Match.Layout` — matching does not depend on the layout

A template is laid over two trees that are alike, by the types that each of them shows. Every step of the
matcher asks for kinds, token texts and types alone, so it goes the same way over both trees; what it binds
and where it finds a site are counterparts.

## Contents
- **Counterparts** of byte offsets, bound values, bindings and sites.
- **Binding.** `insert?_counterpart`, one step.
- **The walk.** `matchNode_counterpart` and `matchList_counterpart`, by recursion on the template.
- **Sites.** `sitesOfNode_counterpart` and `sitesInChildren_counterpart`, by recursion on the tree.
- **`sites_of_alike`**.
-/

namespace JavaRefactor

open Syntax (Node Tree spanOf)
open JavaRefactor.Types (Typing)

variable {root root' : Node}

/-- Two searches both fail, or both find something and what they find is related. -/
theorem rel_cases {α β : Type} {R : α → β → Prop} {x : Option α} {y : Option β}
    (h : Option.Rel R x y) :
    x = none ∧ y = none ∨ ∃ a b, x = some a ∧ y = some b ∧ R a b := by
  cases h with
  | none => exact Or.inl ⟨rfl, rfl⟩
  | some hab => exact Or.inr ⟨_, _, rfl, rfl, hab⟩

/-! ## Counterparts -/

/-- Two counterparts start at the two bytes, or they stop there. -/
def SameEdge (root root' : Node) (a a' : Nat) : Prop :=
  ∃ n n', Node.Counterpart root root' n n' ∧
    (a = n.span.start ∧ a' = n'.span.start ∨ a = n.span.stop ∧ a' = n'.span.stop)

/-- Bound values that are of one shape and have counterparts for their nodes. -/
inductive Bound.Counterpart (root root' : Node) : Bound → Bound → Prop where
  | node {n n' : Node} (value : Node.Counterpart root root' n n') :
      Counterpart root root' (.node n) (.node n')
  | run {ns ns' : List Node} {a a' : Nat}
      (nodes : List.Forall₂ (Node.Counterpart root root') ns ns') (anchor : SameEdge root root' a a') :
      Counterpart root root' (.run ns a) (.run ns' a')

/-- Bindings of the same names, in the same order, to counterparts. -/
def Binding.Counterpart (root root' : Node) (b b' : Binding) : Prop :=
  List.Forall₂ (fun e e' => e.1 = e'.1 ∧ Bound.Counterpart root root' e.2 e'.2) b.entries b'.entries

/-- The site covers the given nodes, which are what its template has matched. -/
def Site.Covers (m : Matcher) (s : Site) (xs : List Node) : Prop :=
  s.span = spanOf xs ∧
    ((∃ n, xs = [n] ∧ m.node? n = some s.binding) ∨ m.run? xs = some s.binding)

/-- Sites that cover counterparts and bind counterparts. -/
structure Site.Counterpart (m m' : Matcher) (root root' : Node) (s s' : Site) : Prop where
  place : ∃ xs xs', List.Forall₂ (Node.Counterpart root root') xs xs' ∧ s.Covers m xs ∧ s'.Covers m' xs'
  binding : Binding.Counterpart root root' s.binding s'.binding

/-! ## Binding -/

section Binding

variable {b b' : Binding} {x x' y y' : Bound}

theorem Binding.get?_counterpart (h : Binding.Counterpart root root' b b') (name : String) :
    Option.Rel (Bound.Counterpart root root') (b.get? name) (b'.get? name) := by
  obtain ⟨entries⟩ := b
  obtain ⟨entries'⟩ := b'
  have hentries : List.Forall₂ (fun e e' => e.1 = e'.1 ∧ Bound.Counterpart root root' e.2 e'.2)
      entries entries' := h
  show Option.Rel _ (entries.lookup name) (entries'.lookup name)
  clear h
  induction hentries with
  | nil => exact .none
  | @cons e e' es es' he _ ih =>
      obtain ⟨hname, hvalue⟩ := he
      rw [List.lookup_cons, List.lookup_cons, hname]
      by_cases hn : (name == e'.1) = true
      · rw [hn]
        exact .some hvalue
      · rw [Bool.not_eq_true] at hn
        rw [hn]
        exact ih

/-- Counterparts agree in kinds and token texts. -/
theorem Bound.Counterpart.bare_eq (hroots : root.plain = root'.plain)
    (h : Bound.Counterpart root root' x x') : x.bare = x'.bare := by
  cases h with
  | @node n n' value =>
      show Bound.node n.bare = Bound.node n'.bare
      rw [← Node.bare_plain, value.plain_eq hroots, Node.bare_plain]
  | @run ns ns' a a' nodes anchor =>
      have hplain : Node.plainAll ns = Node.plainAll ns' := by
        clear anchor
        induction nodes with
        | nil => rfl
        | cons hn _ ih => rw [Node.plainAll, Node.plainAll, hn.plain_eq hroots, ih]
      show Bound.run (Node.bareAll ns) 0 = Bound.run (Node.bareAll ns') 0
      rw [← Node.bareAll_plain, hplain, Node.bareAll_plain]

/-- Two values agree exactly if their counterparts do. -/
theorem Bound.same_counterpart (hroots : root.plain = root'.plain)
    (hx : Bound.Counterpart root root' x x') (hy : Bound.Counterpart root root' y y') :
    x.same y = x'.same y' := by
  rw [Bool.eq_iff_iff, Bound.same_iff, Bound.same_iff, hx.bare_eq hroots, hy.bare_eq hroots]

/-- **Binding a name** to counterparts gives counterparts, or fails for both. -/
theorem Binding.insert?_counterpart (hroots : root.plain = root'.plain)
    (hb : Binding.Counterpart root root' b b') (hx : Bound.Counterpart root root' x x')
    (name : String) :
    Option.Rel (Binding.Counterpart root root') (b.insert? name x) (b'.insert? name x') := by
  unfold Binding.insert?
  by_cases hw : (name == Metavariable.wildcard) = true
  · rw [if_pos hw, if_pos hw]
    exact .some hb
  · rw [if_neg hw, if_neg hw]
    rcases rel_cases (Binding.get?_counterpart hb name) with ⟨hnew, hnew'⟩ | ⟨y, y', hy, hy', hknown⟩
    · rw [hnew, hnew']
      exact .some (List.rel_append hb (.cons ⟨rfl, hx⟩ .nil))
    · rw [hy, hy']
      simp only [Bound.same_counterpart hroots hknown hx]
      by_cases hs : y'.same x' = true
      · rw [if_pos hs, if_pos hs]
        exact .some hb
      · rw [if_neg hs, if_neg hs]
        exact .none

end Binding

/-! ## The walk -/

/-- Searches that go the same way at every element find counterparts, or nothing. -/
theorem findSome?_rel {α β γ : Type} {R : β → γ → Prop} {f : α → Option β} {g : α → Option γ}
    {xs : List α} (h : ∀ x ∈ xs, Option.Rel R (f x) (g x)) :
    Option.Rel R (xs.findSome? f) (xs.findSome? g) := by
  induction xs with
  | nil => exact .none
  | cons x xs ih =>
      rw [List.findSome?_cons, List.findSome?_cons]
      rcases rel_cases (h x (by simp)) with ⟨hf, hg⟩ | ⟨y, z, hf, hg, hyz⟩
      · rw [hf, hg]
        exact ih fun x' hx' => h x' (List.mem_cons_of_mem _ hx')
      · rw [hf, hg]
        exact .some hyz

namespace Matcher

variable {m : Matcher} {n n' : Node} {ns ns' : List Node} {b b' : Binding} {a a' : Nat}

theorem anchorOf_edge (hstop : SameEdge root root' a a')
    (hns : List.Forall₂ (Node.Counterpart root root') ns ns') :
    SameEdge root root' (anchorOf a ns) (anchorOf a' ns') := by
  cases hns with
  | nil => exact hstop
  | cons hn _ => exact ⟨_, _, hn, Or.inl ⟨rfl, rfl⟩⟩

theorem stopOf_edge (hstart : SameEdge root root' a a')
    (hns : List.Forall₂ (Node.Counterpart root root') ns ns') :
    SameEdge root root' (stopOf a ns) (stopOf a' ns') := by
  have hlast := List.forall₂_reverse_iff.mpr hns
  unfold stopOf
  rw [List.getLast?_eq_head?_reverse, List.getLast?_eq_head?_reverse]
  generalize ns.reverse = back at hlast ⊢
  generalize ns'.reverse = back' at hlast ⊢
  cases hlast with
  | nil => exact hstart
  | cons hn _ => exact ⟨_, _, hn, Or.inr ⟨rfl, rfl⟩⟩

/-- The trees are alike, and so are the types of expressions that are alike. -/
structure Alike (m : Matcher) (root root' : Node) : Prop where
  plain : root.plain = root'.plain
  types : ∀ {n n' : Node}, n.plain = n'.plain → m.typing.typeOf n = m.typing.typeOf n'

theorem bindNode?_counterpart (h : m.Alike root root') (v : Metavariable) (hn : Node.Counterpart root root' n n')
    (hb : Binding.Counterpart root root' b b') :
    Option.Rel (Binding.Counterpart root root') (m.bindNode? v n b) (m.bindNode? v n' b') := by
  have hplain := hn.plain_eq h.plain
  have hnamed : n.isNamed = n'.isNamed := by
    rw [← Node.isNamed_plain n, hplain, Node.isNamed_plain]
  have hadmits : m.admits v n = m.admits v n' := by
    unfold admits
    rw [h.types hplain]
  unfold bindNode?
  cases v.shape with
  | single =>
      simp only [hnamed, hadmits]
      by_cases hc : (n'.isNamed && m.admits v n') = true
      · rw [if_pos hc, if_pos hc]
        exact Binding.insert?_counterpart h.plain hb (.node hn) v.name
      · rw [if_neg hc, if_neg hc]
        exact .none
  | run =>
      have hanchor : SameEdge root root' n.span.start n'.span.start :=
        ⟨n, n', hn, Or.inl ⟨rfl, rfl⟩⟩
      exact Binding.insert?_counterpart h.plain hb (.run (.cons hn .nil) hanchor) v.name

mutual

/-- **Counterparts match alike**: both match with counterparts for bindings, or neither does. -/
theorem matchNode_counterpart (h : m.Alike root root') : ∀ (p : Node) {n n' : Node} {b b' : Binding},
    Node.Counterpart root root' n n' → Binding.Counterpart root root' b b' →
    Option.Rel (Binding.Counterpart root root') (m.matchNode p n b) (m.matchNode p n' b')
  | .leaf l tr t, n, n', b, b', hn, hb => by
      have hplain := hn.plain_eq h.plain
      rw [matchNode, matchNode]
      cases m.template.metavariableAt? (.leaf l tr t) with
      | some v => exact bindNode?_counterpart h v hn hb
      | none =>
          have hkind : n.kind = n'.kind := by
            rw [← Node.kind_plain n, hplain, Node.kind_plain]
          have htext : n.text? = n'.text? := by
            rw [← Node.text?_plain n, hplain, Node.text?_plain]
          simp only [hkind, htext]
          by_cases hc : (n'.kind == l.kind && n'.text? == some t) = true
          · rw [if_pos hc, if_pos hc]
            exact .some hb
          · rw [if_neg hc, if_neg hc]
            exact .none
  | .branch l ps, n, n', b, b', hn, hb => by
      have hplain := hn.plain_eq h.plain
      unfold matchNode
      cases m.template.metavariableAt? (.branch l ps) with
      | some v => exact bindNode?_counterpart h v hn hb
      | none =>
          cases n with
          | leaf k tr t =>
              cases n' with
              | leaf k' tr' t' => exact .none
              | branch k' cs' => exact absurd hplain (by simp [Node.plain])
          | branch k cs =>
              cases n' with
              | leaf k' tr' t' => exact absurd hplain (by simp [Node.plain])
              | branch k' cs' =>
                  have hkind : k.kind = k'.kind := by
                    have := congrArg Node.kind hplain
                    rw [Node.kind_plain, Node.kind_plain] at this
                    exact this
                  have hchildren : List.Forall₂ (Node.Counterpart root root') cs cs' := hn.children h.plain
                  have hstart : SameEdge root root' k.span.start k'.span.start :=
                    ⟨_, _, hn, Or.inl ⟨rfl, rfl⟩⟩
                  simp only [hkind]
                  by_cases hc : (k'.kind == l.kind) = true
                  · rw [if_pos hc, if_pos hc]
                    exact matchList_counterpart h ps (stopOf_edge hstart hchildren) hchildren hb
                  · rw [if_neg hc, if_neg hc]
                    exact .none

/-- **Lists of counterparts match alike.** A run tries the same lengths in both lists. -/
theorem matchList_counterpart (h : m.Alike root root') : ∀ (ps : List Node) {a a' : Nat}
    {ns ns' : List Node} {b b' : Binding},
    SameEdge root root' a a' → List.Forall₂ (Node.Counterpart root root') ns ns' →
    Binding.Counterpart root root' b b' →
    Option.Rel (Binding.Counterpart root root') (m.matchList ps a ns b) (m.matchList ps a' ns' b')
  | [], a, a', ns, ns', b, b', _, hns, hb => by
      rw [matchList, matchList]
      cases hns with
      | nil => exact .some hb
      | cons _ _ => exact .none
  | p :: ps, a, a', ns, ns', b, b', ha, hns, hb => by
      unfold matchList
      cases m.runAt? p with
      | some v =>
          simp only [hns.length_eq]
          refine findSome?_rel ?_
          intro k _
          have hrun : Bound.Counterpart root root' (.run (ns.take k) (anchorOf a ns))
              (.run (ns'.take k) (anchorOf a' ns')) :=
            .run (List.forall₂_take k hns) (anchorOf_edge ha hns)
          rcases rel_cases (Binding.insert?_counterpart h.plain hb hrun v.name) with
            ⟨hi, hi'⟩ | ⟨c, c', hi, hi', hc⟩
          · rw [hi, hi']
            exact .none
          · rw [hi, hi']
            exact matchList_counterpart h ps ha (List.forall₂_drop k hns) hc
      | none =>
          cases hns with
          | nil => exact .none
          | @cons t t' ts ts' ht hts =>
              rcases rel_cases (matchNode_counterpart h p ht hb) with
                ⟨hn, hn'⟩ | ⟨c, c', hn, hn', hc⟩
              · simp only [hn, hn']
                exact .none
              · simp only [hn, hn']
                exact matchList_counterpart h ps ha hts hc

end

/-! ## Sites -/

/-- No binding is refused. -/
def all : Binding → Bool := fun _ => true

theorem counterpart_empty : Binding.Counterpart root root' .empty .empty := .nil

theorem node?_counterpart (h : m.Alike root root') (hn : Node.Counterpart root root' n n') :
    Option.Rel (Binding.Counterpart root root') (m.node? n) (m.node? n') := by
  unfold node?
  cases m.template.root? with
  | none => exact .none
  | some p => exact matchNode_counterpart h p hn counterpart_empty

theorem siblings?_counterpart (h : m.Alike root root')
    (hns : List.Forall₂ (Node.Counterpart root root') ns ns') (hne : ns ≠ []) :
    Option.Rel (Binding.Counterpart root root') (m.siblings? ns) (m.siblings? ns') := by
  cases hns with
  | nil => exact absurd rfl hne
  | @cons t t' ts ts' ht hts =>
      have hstart : SameEdge root root' t.span.start t'.span.start := ⟨t, t', ht, Or.inl ⟨rfl, rfl⟩⟩
      have hns := List.Forall₂.cons ht hts
      exact matchList_counterpart h _ (stopOf_edge hstart hns) hns counterpart_empty

theorem accepted?_all (m : Matcher) (n : Node) : m.accepted? all n = m.node? n := by
  unfold accepted?
  cases m.node? n with
  | none => rfl
  | some b => rfl

/-- Counterparts match, or else the sites below them are counterparts if those below their children are. -/
theorem sitesOfNode_of_children (h : m.Alike root root') (hn : Node.Counterpart root root' n n')
    (hbelow : List.Forall₂ (Site.Counterpart m m root root') (m.sitesOfNodes all n.children)
      (m.sitesOfNodes all n'.children)) :
    List.Forall₂ (Site.Counterpart m m root root') (m.sitesOfNode all n) (m.sitesOfNode all n') := by
  rw [sitesOfNode_eq, sitesOfNode_eq, accepted?_all, accepted?_all]
  rcases rel_cases (node?_counterpart h hn) with ⟨hb, hb'⟩ | ⟨b, b', hb, hb', hbinding⟩
  · rw [hb, hb']
    exact hbelow
  · rw [hb, hb']
    refine .cons ⟨⟨[n], [n'], .cons hn .nil, ?_, ?_⟩, hbinding⟩ .nil
    · exact ⟨rfl, Or.inl ⟨n, rfl, hb⟩⟩
    · exact ⟨rfl, Or.inl ⟨n', rfl, hb'⟩⟩

mutual

/-- **The sites of a template with one root** are counterparts. -/
theorem sitesOfNode_counterpart (h : m.Alike root root') : ∀ {n n' : Node},
    Node.Counterpart root root' n n' →
    List.Forall₂ (Site.Counterpart m m root root') (m.sitesOfNode all n) (m.sitesOfNode all n')
  | .leaf .., n', hn => by
      refine sitesOfNode_of_children h hn ?_
      have hchildren : List.Forall₂ (Node.Counterpart root root') [] n'.children :=
        hn.children h.plain
      rw [List.forall₂_nil_left_iff.mp hchildren]
      exact .nil
  | .branch _ cs, n', hn => by
      refine sitesOfNode_of_children h hn ?_
      have hchildren : List.Forall₂ (Node.Counterpart root root') cs n'.children :=
        hn.children h.plain
      exact sitesOfNodes_counterpart h hchildren

theorem sitesOfNodes_counterpart (h : m.Alike root root') : ∀ {ns ns' : List Node},
    List.Forall₂ (Node.Counterpart root root') ns ns' →
    List.Forall₂ (Site.Counterpart m m root root') (m.sitesOfNodes all ns) (m.sitesOfNodes all ns')
  | [], _, .nil => .nil
  | _ :: _, _, .cons hn hns =>
      List.rel_append (sitesOfNode_counterpart h hn) (sitesOfNodes_counterpart h hns)

end

/-! ## Runs -/

theorem window?_all (m : Matcher) (xs : List Node) :
    m.window? all xs = (m.siblings? xs).map fun b => ⟨spanOf xs, b⟩ := by
  unfold window?
  cases m.siblings? xs with
  | none => rfl
  | some b => rfl

theorem window?_counterpart (h : m.Alike root root') (hrun : m.template.isRun = true)
    (hns : List.Forall₂ (Node.Counterpart root root') ns ns') (hne : ns ≠ []) :
    Option.Rel (Site.Counterpart m m root root') (m.window? all ns) (m.window? all ns') := by
  rw [window?_all, window?_all]
  rcases rel_cases (siblings?_counterpart h hns hne) with ⟨hb, hb'⟩ | ⟨b, b', hb, hb', hbinding⟩
  · rw [hb, hb']
    exact .none
  · rw [hb, hb']
    refine .some ⟨⟨ns, ns', hns, ⟨rfl, Or.inr ?_⟩, ⟨rfl, Or.inr ?_⟩⟩, hbinding⟩
    · rw [run?, if_pos hrun]
      exact hb
    · rw [run?, if_pos hrun]
      exact hb'

/-- The shortest runs in front are equally long, and their sites are counterparts. -/
theorem shortestRun?_counterpart (h : m.Alike root root') (hrun : m.template.isRun = true)
    (hns : List.Forall₂ (Node.Counterpart root root') ns ns') :
    Option.Rel (fun e e' => e.1 = e'.1 ∧ Site.Counterpart m m root root' e.2 e'.2)
      (m.shortestRun? all ns) (m.shortestRun? all ns') := by
  cases hns with
  | nil => exact .none
  | @cons c c' cs cs' hc hcs =>
      have hnamed : c.isNamed = c'.isNamed := by
        rw [← Node.isNamed_plain c, hc.plain_eq h.plain, Node.isNamed_plain]
      unfold shortestRun?
      simp only [hnamed, hcs.length_eq]
      by_cases hn : c'.isNamed = true
      · rw [if_pos hn, if_pos hn]
        refine findSome?_rel ?_
        intro k _
        have hfront : List.Forall₂ (Node.Counterpart root root') (c :: cs.take k) (c' :: cs'.take k) :=
          .cons hc (List.forall₂_take k hcs)
        rcases rel_cases (window?_counterpart h hrun hfront (by simp)) with
          ⟨hw, hw'⟩ | ⟨s, s', hw, hw', hs⟩
        · rw [hw, hw']
          exact .none
        · rw [hw, hw']
          exact .some ⟨rfl, hs⟩
      · rw [if_neg hn, if_neg hn]
        exact .none

mutual

/-- **The sites of a template for runs** are counterparts. -/
theorem sitesInChildren_counterpart (h : m.Alike root root') (hrun : m.template.isRun = true) :
    ∀ {n n' : Node}, Node.Counterpart root root' n n' →
    List.Forall₂ (Site.Counterpart m m root root') (m.sitesInChildren all n)
      (m.sitesInChildren all n')
  | .leaf .., n', hn => by
      cases n' with
      | leaf l' tr' t' => exact .nil
      | branch l' cs' => exact absurd (hn.plain_eq h.plain) (by simp [Node.plain])
  | .branch _ cs, n', hn => by
      cases n' with
      | leaf l' tr' t' => exact absurd (hn.plain_eq h.plain) (by simp [Node.plain])
      | branch l' cs' =>
          have hchildren : List.Forall₂ (Node.Counterpart root root') cs cs' := hn.children h.plain
          exact sitesInList_counterpart h hrun 0 hchildren

theorem sitesInList_counterpart (h : m.Alike root root') (hrun : m.template.isRun = true) :
    ∀ (skip : Nat) {ns ns' : List Node}, List.Forall₂ (Node.Counterpart root root') ns ns' →
    List.Forall₂ (Site.Counterpart m m root root') (m.sitesInList all skip ns)
      (m.sitesInList all skip ns')
  | _, [], _, .nil => by
      rw [sitesInList]
      exact .nil
  | skip + 1, _ :: _, _, .cons _ hns => sitesInList_counterpart h hrun skip hns
  | 0, c :: cs, c' :: cs', .cons hc hcs => by
      rw [sitesInList, sitesInList]
      rcases rel_cases (shortestRun?_counterpart h hrun (.cons hc hcs)) with
        ⟨hr, hr'⟩ | ⟨⟨k, s⟩, ⟨k', s'⟩, hr, hr', rfl, hs⟩
      · rw [hr, hr']
        exact List.rel_append (sitesInChildren_counterpart h hrun hc)
          (sitesInList_counterpart h hrun 0 hcs)
      · rw [hr, hr']
        exact .cons hs (sitesInList_counterpart h hrun (k - 1) hcs)

end

/-! ## Trees -/

/-- **Matching does not depend on the layout.** Let two trees agree in kinds, roles and token texts. A template
    that is searched in each of them, by the types that each of them shows, has equally many sites in both;
    one by one, in order, the sites cover nodes at the same positions in pre-order, and bind the same
    names to nodes at the same positions. -/
theorem sites_of_alike (template : Template) (t t' : Tree) (h : t.root.alike t'.root = true) :
    List.Forall₂
      (Site.Counterpart ⟨template, .ofTree t⟩ ⟨template, .ofTree t'⟩ t.root t'.root)
      ((Matcher.mk template (.ofTree t)).sites t.root)
      ((Matcher.mk template (.ofTree t')).sites t'.root) := by
  have hplain : t.root.plain = t'.root.plain := (Node.alike_iff _ _).mp h
  rw [← Typing.ofTree_eq hplain]
  have halike : (Matcher.mk template (.ofTree t)).Alike t.root t'.root :=
    ⟨hplain, fun hn => Typing.typeOf_eq t hn⟩
  have hroots := Node.counterpart_roots t.root t'.root
  unfold sites sitesWhere
  by_cases hrun : template.isRun = true
  · rw [if_pos hrun, if_pos hrun]
    exact sitesInChildren_counterpart halike hrun hroots
  · rw [if_neg hrun, if_neg hrun]
    exact sitesOfNode_counterpart halike hroots

/-- Blanks and a comment between the tokens of two calls. -/
theorem sites_of_alike_comment : ∃ template t t',
    Template.compile "f($X, $$$R)" [] = .ok template ∧
    Java.parse? "class T { int t() { return f(a, b, c) + f(1, 2); } }" = some t ∧
    Java.parse? "class T{int t(){return f (a,b, /* last */ c)+f( 1,2 );}}" = some t' ∧
    t.root.alike t'.root = true ∧ ((Matcher.mk template (.ofTree t)).sites t.root).length = 2 ∧
    List.Forall₂
      (Site.Counterpart ⟨template, .ofTree t⟩ ⟨template, .ofTree t'⟩ t.root t'.root)
      ((Matcher.mk template (.ofTree t)).sites t.root)
      ((Matcher.mk template (.ofTree t')).sites t'.root) := by
  have h : ((Template.compile "f($X, $$$R)" []).toOption.any fun template =>
      (Java.parse? "class T { int t() { return f(a, b, c) + f(1, 2); } }").any fun t =>
        (Java.parse? "class T{int t(){return f (a,b, /* last */ c)+f( 1,2 );}}").any fun t' =>
          t.root.alike t'.root &&
            ((Matcher.mk template (.ofTree t)).sites t.root).length == 2) = true := by
    decide +kernel
  obtain ⟨template, htemplate, h⟩ := (Option.any_eq_true _ _).mp h
  obtain ⟨t, ht, h⟩ := (Option.any_eq_true _ _).mp h
  obtain ⟨t', ht', h⟩ := (Option.any_eq_true _ _).mp h
  obtain ⟨halike, hlength⟩ := Bool.and_eq_true_iff.mp h
  exact ⟨template, t, t', Attempts.toOption_eq_some.mp htemplate, ht, ht', halike, beq_iff_eq.mp hlength,
    sites_of_alike template t t' halike⟩

end Matcher

end JavaRefactor

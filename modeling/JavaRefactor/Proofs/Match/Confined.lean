import JavaRefactor.Proofs.Java.Nested
import JavaRefactor.Proofs.Match.Sites
import JavaRefactor.Proofs.Match.Soundness
import JavaRefactor.Proofs.Pass.Frame

/-!
# `Proofs.Match.Confined` — what a site binds stands inside it

The matcher lays the template over the candidate from the left to the right, so that the values which its
placeholders face stand in order inside the candidate. A run that takes no sibling has a place as well: where the next
sibling starts, or the last one ends. So no value reaches beyond the site, no two names share a byte of it, and what a
name is bound to is a piece of the text.

## Contents
- **`WellFormed`** trees; those that are read are such (`wellFormed_of_parse?`).
- **`Within`**, what a value is made of.
- **Runs.** `run_between`, the place of a run between what is before it and what it leaves.
- **`Placing`**, how the values of a match stand; **`placing_of_matchNode`** and **`placing_of_matchList`**, by
  recursion on the template.
- **Names.** `Placing.exists_first` and `Placing.behind`: names are bound in the order of their placeholders.
- **`Confined`** bindings, and **`binding_confined`**.
-/

namespace JavaRefactor

open Syntax (Node Tree spanOf)
open Text (Span InOrder)
open Text.Span (Inside)

/-! ## Trees -/

/-- The place is one between characters, or at an end of the text. -/
def Text.Boundary (cs : List Char) (place : Nat) : Prop := (⟨place, place⟩ : Span).Cuts cs []

/-- The ranges of a tree are nested, and they end between characters of its text. -/
structure Syntax.Tree.WellFormed (t : Tree) : Prop where
  nested : t.root.Nested
  cuts : ∀ n ∈ t.root.listing, ∃ middle, n.span.Cuts t.source.toList middle

/-- **The tree of a text** is well formed. -/
theorem Java.wellFormed_of_parse? {source : String} {t : Tree} (h : Java.parse? source = some t) : t.WellFormed := by
  obtain ⟨-, ls, nodes, hspelled⟩ := Java.spelled_of_parse? h
  refine ⟨hspelled.nested, ?_⟩
  intro n hn
  obtain ⟨middle, hcuts, -⟩ := hspelled.cuts_of_mem_listing hn
  exact ⟨middle, hcuts⟩

/-! ## What values are made of -/

namespace Bound

/-- A node below the siblings, or neighbours among the siblings or among the children of a node below them. -/
def Within (window : List Node) : Bound → Prop
  | .node n => n ∈ Node.listingAll window
  | .run ns _ => ns <:+: window ∨ ∃ p ∈ Node.listingAll window, ns <:+: p.children

variable {x : Bound} {window part : List Node} {n : Node}

theorem Within.mono (h : x.Within part) (hpart : part <:+: window) : x.Within window := by
  have hlisting : ∀ k ∈ Node.listingAll part, k ∈ Node.listingAll window := by
    intro k hk
    obtain ⟨n, hn, hk⟩ := Node.mem_listingAll_iff.mp hk
    exact Node.mem_listingAll (hpart.subset hn) hk
  cases x with
  | node n => exact hlisting n h
  | run ns anchor =>
      rcases h with h | ⟨p, hp, h⟩
      · exact Or.inl (h.trans hpart)
      · exact Or.inr ⟨p, hlisting p hp, h⟩

/-- What is made of the children of a node is made of the node. -/
theorem Within.of_children (h : x.Within n.children) : x.Within [n] := by
  have hlisting : ∀ k ∈ Node.listingAll n.children, k ∈ Node.listingAll [n] := by
    intro k hk
    refine Node.mem_listingAll (List.mem_singleton_self n) ?_
    rw [Node.listing_eq]
    exact List.mem_cons_of_mem n hk
  cases x with
  | node k => exact hlisting k h
  | run ns anchor =>
      rcases h with h | ⟨p, hp, h⟩
      · exact Or.inr ⟨n, Node.mem_listingAll (List.mem_singleton_self n) (Node.mem_listing_self n), h⟩
      · exact Or.inr ⟨p, hlisting p hp, h⟩

end Bound

namespace Matcher

variable {m : Matcher} {P : Nat → Prop} {n : Node} {ns : List Node} {first stop last : Nat}

/-! ## Runs -/

theorem stopOf_eq_spanOf (h : ns ≠ []) (start : Nat) : stopOf start ns = (spanOf ns).stop := by
  obtain ⟨n, rest, rfl⟩ := List.exists_cons_of_ne_nil h
  unfold stopOf spanOf
  rw [List.getLast?_eq_some_getLast h]
  rfl

/-- Siblings in order are so up to where they end. -/
theorem inOrder_stopOf (h : InOrder first (ns.map Node.span) last) :
    InOrder first (ns.map Node.span) (stopOf first ns) ∧ stopOf first ns ≤ last := by
  by_cases hne : ns = []
  · subst hne
    exact ⟨Nat.le_refl _, h⟩
  · obtain ⟨htight, hinside, -⟩ := Syntax.inOrder_spanOf h hne
    rw [stopOf_eq_spanOf hne]
    exact ⟨htight.mono hinside.1 (Nat.le_refl _), hinside.2⟩

theorem span_run_of_ne_nil (h : ns ≠ []) (anchor : Nat) : (Bound.run ns anchor).span = spanOf ns := by
  obtain ⟨n, rest, rfl⟩ := List.exists_cons_of_ne_nil h
  rfl

/-- **A run** of the first siblings stands behind what is before them, and in front of those that are left. -/
theorem run_between {x : Bound} {count : Nat} (h : InOrder first (ns.map Node.span) stop)
    (hx : x = .run (ns.take count) (anchorOf stop ns)) :
    first ≤ x.span.start ∧ x.span.start ≤ x.span.stop ∧
      InOrder x.span.stop ((ns.drop count).map Node.span) stop := by
  by_cases hne : ns.take count = []
  · -- without a sibling, the run stands where the next one starts
    have hdrop : ns.drop count = ns := by
      have hboth := List.take_append_drop count ns
      rwa [hne, List.nil_append] at hboth
    have hspan : x.span = ⟨anchorOf stop ns, anchorOf stop ns⟩ := by
      rw [hx, hne]
      rfl
    rw [hspan, hdrop]
    cases ns with
    | nil => exact ⟨h, Nat.le_refl _, Nat.le_refl _⟩
    | cons next rest => exact ⟨h.1, Nat.le_refl _, Nat.le_refl _, h.2⟩
  · obtain ⟨hstart, hbyte, hleft⟩ := Syntax.inOrder_drop h hne
    rw [hx, span_run_of_ne_nil hne]
    exact ⟨hstart, Nat.le_of_lt hbyte, hleft⟩

/-- All ranges below a node end at places of a kind. -/
def EndsAt (P : Nat → Prop) (n : Node) : Prop := ∀ k ∈ n.listing, P k.span.start ∧ P k.span.stop

theorem EndsAt.self (h : EndsAt P n) : P n.span.start ∧ P n.span.stop := h n (Node.mem_listing_self n)

theorem EndsAt.children (h : EndsAt P n) : ∀ c ∈ n.children, EndsAt P c := by
  intro c hc k hk
  exact h k (Node.mem_listing_trans (Node.mem_listing_of_mem_children hc) hk)

theorem ends_of_spanOf (h : ∀ n ∈ ns, EndsAt P n) (hne : ns ≠ []) :
    P (spanOf ns).start ∧ P (spanOf ns).stop := by
  obtain ⟨n, rest, rfl⟩ := List.exists_cons_of_ne_nil hne
  unfold spanOf
  rw [List.head?_cons, List.getLast?_eq_some_getLast hne]
  exact ⟨(h n (List.mem_cons_self ..)).self.1, (h _ (List.getLast_mem hne)).self.2⟩

theorem ends_stopOf (h : ∀ n ∈ ns, EndsAt P n) (hfirst : P first) : P (stopOf first ns) := by
  by_cases hne : ns = []
  · subst hne
    exact hfirst
  · rw [stopOf_eq_spanOf hne]
    exact (ends_of_spanOf h hne).2

/-- The range of a run of the first siblings ends at such places, as those of the siblings do. -/
theorem ends_of_run (h : ∀ n ∈ ns, EndsAt P n) (hstop : P stop) (count : Nat) :
    P (Bound.run (ns.take count) (anchorOf stop ns)).span.start ∧
      P (Bound.run (ns.take count) (anchorOf stop ns)).span.stop := by
  by_cases hne : ns.take count = []
  · have hanchor : P (anchorOf stop ns) := by
      cases ns with
      | nil => exact hstop
      | cons next rest => exact (h next (List.mem_cons_self ..)).self.1
    rw [hne]
    exact ⟨hanchor, hanchor⟩
  · rw [span_run_of_ne_nil hne]
    exact ends_of_spanOf (fun n hn => h n (List.mem_of_mem_take hn)) hne

/-! ## Matches -/

/-- How the values stand that a binding has grown by: in order between two bytes, made of some siblings, and with
ranges that end at places of a kind. -/
structure Placing (m : Matcher) (P : Nat → Prop) (roots window : List Node) (first last : Nat) (b b' : Binding)
    (fs : List Facing) : Prop where
  grown : Binding.extend? fs b = some b'
  placeholders : fs.map (·.placeholder) = m.template.placeholdersOfAll roots
  order : Text.Successive first (fs.map (·.value.span)) last
  within : ∀ f ∈ fs, f.value.Within window
  ends : ∀ f ∈ fs, P f.value.span.start ∧ P f.value.span.stop

variable {b b' b'' : Binding} {fs gs : List Facing} {p : Node} {ps : List Node} {v : Metavariable}

theorem Placing.nil (h : first ≤ last) : m.Placing P [] [] first last b b [] where
  grown := rfl
  placeholders := rfl
  order := h
  within _ hf := absurd hf List.not_mem_nil
  ends _ hf := absurd hf List.not_mem_nil

/-- A token has no placeholders. -/
theorem placing_of_no_placeholder (hp : m.template.placeholdersOf p = []) (hn : n.Nested) :
    m.Placing P [p] [n] n.span.start n.span.stop b b [] where
  grown := rfl
  placeholders := by rw [Template.placeholdersOfAll_cons, hp]; rfl
  order := hn.children.1.le
  within _ hf := absurd hf List.not_mem_nil
  ends _ hf := absurd hf List.not_mem_nil

/-- **A placeholder by itself** is bound to all of the node. -/
theorem placing_of_bindNode? (hv : m.template.metavariableAt? p = some v) (h : m.bindNode? v n b = some b')
    (hn : n.Nested) (hends : EndsAt P n) : ∃ fs, m.Placing P [p] [n] n.span.start n.span.stop b b' fs := by
  have hplaced : ∀ x : Bound, b.insert? v.name x = some b' → x.span = n.span → x.Within [n] →
      m.Placing P [p] [n] n.span.start n.span.stop b b' [⟨v, x⟩] := by
    intro x hx hspan hwithin
    refine ⟨?grown, ?placeholders, ?order, ?within, ?ends⟩
    case grown => simp [Binding.extend?, Facing.name, hx]
    case placeholders => simp [Template.placeholdersOf_of_some hv]
    case order =>
      rw [List.map_singleton, hspan]
      exact ⟨Nat.le_refl _, hn.children.1.le, Nat.le_refl _⟩
    case within =>
      intro f hf
      rw [List.mem_singleton.mp hf]
      exact hwithin
    case ends =>
      intro f hf
      rw [List.mem_singleton.mp hf, hspan]
      exact hends.self
  unfold bindNode? at h
  cases hs : v.shape with
  | single =>
      rw [hs] at h
      by_cases ha : (n.isNamed && m.admits v n) = true
      · simp only [ha, if_true] at h
        refine ⟨_, hplaced (.node n) h rfl ?_⟩
        exact Node.mem_listingAll (List.mem_singleton_self n) (Node.mem_listing_self n)
      · simp [ha] at h
  | run =>
      rw [hs] at h
      exact ⟨_, hplaced (.run [n] n.span.start) h rfl (Or.inl List.infix_rfl)⟩

/-- **The values below a node** are values in it. -/
theorem Placing.below (h : m.Placing P ps n.children n.span.start stop b b' fs) (hstop : stop ≤ n.span.stop)
    (hp : m.template.placeholdersOf p = m.template.placeholdersOfAll ps) :
    m.Placing P [p] [n] n.span.start n.span.stop b b' fs where
  grown := h.grown
  placeholders := by
    rw [h.placeholders, Template.placeholdersOfAll_cons, hp, Template.placeholdersOfAll_nil, List.append_nil]
  order := by
    have hbehind : Text.Successive stop [] n.span.stop := hstop
    have := h.order.append hbehind
    rwa [List.append_nil] at this
  within f hf := (h.within f hf).of_children
  ends := h.ends

/-- **The values of a run** in front of those of the siblings that it leaves. -/
theorem Placing.cons_run {count : Nat} {anchor : Nat} (hv : m.template.metavariableAt? p = some v)
    (hanchor : anchor = anchorOf stop ns)
    (hbind : b.insert? v.name (.run (ns.take count) anchor) = some b')
    (hns : InOrder first (ns.map Node.span) stop) (hends : ∀ n ∈ ns, EndsAt P n) (hstop : P stop)
    (h : m.Placing P ps (ns.drop count) (Bound.run (ns.take count) anchor).span.stop stop b' b'' fs) :
    m.Placing P (p :: ps) ns first stop b b'' (⟨v, .run (ns.take count) anchor⟩ :: fs) where
  grown := by simp [Binding.extend?, Facing.name, hbind, h.grown]
  placeholders := by
    rw [List.map_cons, h.placeholders, Template.placeholdersOfAll_cons, Template.placeholdersOf_of_some hv]
    rfl
  order := by
    subst hanchor
    obtain ⟨hstart, hle, -⟩ := run_between hns rfl
    exact ⟨hstart, hle, h.order⟩
  within f hf := by
    rcases List.mem_cons.mp hf with rfl | hf
    · exact Or.inl (List.take_prefix count ns).isInfix
    · exact (h.within f hf).mono (List.drop_suffix count ns).isInfix
  ends f hf := by
    rcases List.mem_cons.mp hf with rfl | hf
    · subst hanchor
      exact ends_of_run hends hstop count
    · exact h.ends f hf

/-- **The values of a sibling** in front of those of the other ones. -/
theorem Placing.cons_node (hn : m.Placing P [p] [n] n.span.start n.span.stop b b' fs)
    (h : m.Placing P ps ns n.span.stop stop b' b'' gs) (hfirst : first ≤ n.span.start) :
    m.Placing P (p :: ps) (n :: ns) first stop b b'' (fs ++ gs) where
  grown := Binding.extend?_trans hn.grown h.grown
  placeholders := by
    rw [List.map_append, hn.placeholders, h.placeholders]
    simp
  order := by
    rw [List.map_append]
    exact (hn.order.append h.order).mono hfirst
  within f hf := by
    rcases List.mem_append.mp hf with hf | hf
    · exact (hn.within f hf).mono (List.prefix_append [n] ns).isInfix
    · exact (h.within f hf).mono (List.suffix_cons n ns).isInfix
  ends f hf := by
    rcases List.mem_append.mp hf with hf | hf
    · exact hn.ends f hf
    · exact h.ends f hf

mutual

/-- **A matched node** has the values in it. -/
theorem placing_of_matchNode (m : Matcher) (P : Nat → Prop) : ∀ (p n : Node) {b b' : Binding},
    m.matchNode p n b = some b' → n.Nested → EndsAt P n →
    ∃ fs, m.Placing P [p] [n] n.span.start n.span.stop b b' fs
  | .leaf l tr x, n, b, b', h, hn, hends => by
      rw [matchNode] at h
      cases hv : m.template.metavariableAt? (.leaf l tr x) with
      | some v =>
          rw [hv] at h
          exact placing_of_bindNode? hv h hn hends
      | none =>
          rw [hv] at h
          by_cases hk : (n.kind == l.kind && n.text? == some x) = true
          · simp only [hk, if_true, Option.some.injEq] at h
            subst h
            exact ⟨[], placing_of_no_placeholder (Template.placeholdersOf_leaf hv) hn⟩
          · simp [hk] at h
  | .branch l ps, n, b, b', h, hn, hends => by
      unfold matchNode at h
      cases hv : m.template.metavariableAt? (.branch l ps) with
      | some v =>
          rw [hv] at h
          exact placing_of_bindNode? hv h hn hends
      | none =>
          rw [hv] at h
          cases n with
          | leaf l' tr' x' => exact absurd h (by simp)
          | branch l' ns =>
              by_cases hk : (l'.kind == l.kind) = true
              · simp only [hk, if_true] at h
                obtain ⟨horder, hnested⟩ := hn.children
                obtain ⟨hsiblings, hstop⟩ := inOrder_stopOf horder
                have hchildren := hends.children
                obtain ⟨fs, hfs⟩ := placing_of_matchList m P ps _ ns h hsiblings hnested hchildren
                  (ends_stopOf hchildren hends.self.1)
                exact ⟨fs, hfs.below hstop (Template.placeholdersOf_branch hv)⟩
              · simp [hk] at h

/-- **Matched siblings** have the values in them, wherever a run without any of them stands. -/
theorem placing_of_matchList (m : Matcher) (P : Nat → Prop) : ∀ (ps : List Node) (stop : Nat) (ns : List Node)
    {b b' : Binding} {first : Nat}, m.matchList ps stop ns b = some b' →
    InOrder first (ns.map Node.span) stop → (∀ n ∈ ns, n.Nested) → (∀ n ∈ ns, EndsAt P n) → P stop →
    ∃ fs, m.Placing P ps ns first stop b b' fs
  | [], stop, ns, b, b', first, h, horder, _, _, _ => by
      rw [matchList] at h
      cases ns with
      | nil =>
          obtain rfl := Option.some.inj h
          exact ⟨[], .nil horder⟩
      | cons n ns => exact absurd h (by simp)
  | p :: ps, stop, ns, b, b', first, h, horder, hnested, hends, hstop => by
      unfold matchList at h
      cases hr : m.runAt? p with
      | some v =>
          rw [hr] at h
          obtain ⟨hv, -⟩ := runAt?_eq_some hr
          obtain ⟨count, -, hk⟩ := List.exists_of_findSome?_eq_some h
          cases hi : b.insert? v.name (.run (ns.take count) (anchorOf stop ns)) with
          | none =>
              rw [hi] at hk
              exact absurd hk (by simp)
          | some b₁ =>
              rw [hi] at hk
              obtain ⟨-, -, hleft⟩ := run_between horder rfl
              obtain ⟨fs, hfs⟩ := placing_of_matchList m P ps stop (ns.drop count) hk hleft
                (fun n hn => hnested n (List.mem_of_mem_drop hn)) (fun n hn => hends n (List.mem_of_mem_drop hn)) hstop
              exact ⟨_, .cons_run hv rfl hi horder hends hstop hfs⟩
      | none =>
          rw [hr] at h
          cases ns with
          | nil => exact absurd h (by simp)
          | cons n ns =>
              cases hn : m.matchNode p n b with
              | none =>
                  simp only [hn] at h
                  exact absurd h (by simp)
              | some b₁ =>
                  simp only [hn] at h
                  obtain ⟨hfirst, -, hrest⟩ := horder
                  obtain ⟨fs, hfs⟩ := placing_of_matchNode m P p n hn (hnested n (List.mem_cons_self ..))
                    (hends n (List.mem_cons_self ..))
                  obtain ⟨gs, hgs⟩ := placing_of_matchList m P ps stop ns h hrest
                    (fun k hk => hnested k (List.mem_cons_of_mem n hk))
                    (fun k hk => hends k (List.mem_cons_of_mem n hk)) hstop
                  exact ⟨fs ++ gs, hfs.cons_node hgs hfirst⟩

end

/-! ## Names -/

/-- What is first under a name that comes before another one is in front of what is first under that one. -/
theorem behind_of_find? {r : Facing → Facing → Prop} {key key' : String} {f g : Facing} (h : fs.Pairwise r)
    (hf : fs.find? (·.name == key) = some f) (hg : fs.find? (·.name == key') = some g)
    (hlt : (fs.map Facing.name).idxOf key < (fs.map Facing.name).idxOf key') : r f g := by
  induction h with
  | nil => exact absurd hf (by simp)
  | @cons first fs hfirst _ ih =>
      rw [List.map_cons] at hlt
      have hother : first.name ≠ key' := by
        intro hname
        rw [← hname, List.idxOf_cons_self] at hlt
        exact absurd hlt (Nat.not_lt_zero _)
      rw [List.find?_cons_of_neg (by simpa using hother)] at hg
      by_cases hname : first.name = key
      · rw [List.find?_cons_of_pos (by simpa using hname)] at hf
        obtain rfl := Option.some.inj hf
        exact hfirst g (List.mem_of_find?_eq_some hg)
      · rw [List.find?_cons_of_neg (by simpa using hname)] at hf
        rw [List.idxOf_cons_ne _ hname, List.idxOf_cons_ne _ hother] at hlt
        exact ih hf hg (Nat.lt_of_succ_lt_succ hlt)

section

variable {roots window rest : List Node} {name name' : String} {x x' : Bound}

/-- A bound value is the first one that stands under its name. -/
theorem Placing.exists_first (h : m.Placing P roots window first last .empty b fs) (hx : b.get? name = some x) :
    ∃ f ∈ fs, fs.find? (·.name == name) = some f ∧ f.value = x := by
  obtain ⟨f, hf, hvalue⟩ := Binding.find?_of_extend? h.grown (Binding.get?_empty name) hx
  exact ⟨f, List.mem_of_find?_eq_some hf, hf, hvalue⟩

theorem Placing.mem_names (h : m.Placing P roots window first last .empty b fs) (hx : b.get? name = some x) :
    name ∈ fs.map Facing.name := by
  obtain ⟨f, hmem, hf, -⟩ := h.exists_first hx
  have hname : f.name = name := by simpa using List.find?_some hf
  exact hname ▸ List.mem_map_of_mem hmem

/-- The names that are bound come in the order of the template. -/
theorem Placing.idxOf_eq (h : m.Placing P roots window first last .empty b fs)
    (hroots : m.template.roots = roots ++ rest) (hx : b.get? name = some x) :
    m.template.placeholderNames.idxOf name = (fs.map Facing.name).idxOf name := by
  have hnames : m.template.placeholderNames =
      fs.map Facing.name ++ (m.template.placeholdersOfAll rest).map (·.name) := by
    unfold Template.placeholderNames Template.placeholders
    rw [hroots, Template.placeholdersOfAll_append, ← h.placeholders, List.map_append, List.map_map]
    rfl
  rw [hnames, List.idxOf_append_of_mem (h.mem_names hx)]

/-- **A name in front of another one** is bound to what ends in front of the other value. -/
theorem Placing.behind (h : m.Placing P roots window first last .empty b fs)
    (hroots : m.template.roots = roots ++ rest) (hx : b.get? name = some x) (hx' : b.get? name' = some x')
    (hlt : m.template.placeholderNames.idxOf name < m.template.placeholderNames.idxOf name') :
    x.span.stop ≤ x'.span.start := by
  rw [h.idxOf_eq hroots hx, h.idxOf_eq hroots hx'] at hlt
  obtain ⟨f, -, hf, rfl⟩ := h.exists_first hx
  obtain ⟨g, -, hg, rfl⟩ := h.exists_first hx'
  exact behind_of_find? (List.pairwise_map.mp h.order.pairwise_behind) hf hg hlt

/-- **Different names** are bound to values that share no byte. -/
theorem Placing.apart (h : m.Placing P roots window first last .empty b fs)
    (hroots : m.template.roots = roots ++ rest) (hx : b.get? name = some x) (hx' : b.get? name' = some x')
    (hne : name ≠ name') : x.span.overlaps x'.span = false := by
  have hdiffer : m.template.placeholderNames.idxOf name ≠ m.template.placeholderNames.idxOf name' := by
    rw [h.idxOf_eq hroots hx, h.idxOf_eq hroots hx']
    intro hsame
    exact hne ((List.idxOf_inj (h.mem_names hx)).mp hsame)
  rcases Nat.lt_or_gt_of_ne hdiffer with hlt | hgt
  · exact Span.overlaps_eq_false_of_le (h.behind hroots hx hx' hlt)
  · rw [Span.overlaps_comm]
    exact Span.overlaps_eq_false_of_le (h.behind hroots hx' hx hgt)

end

/-! ## Bindings -/

/-- **A binding that is confined** to siblings. -/
structure Confined (m : Matcher) (source : String) (window : List Node) (b : Binding) : Prop where
  /-- What it binds is made of the siblings. -/
  within : ∀ name x, b.get? name = some x → x.Within window
  /-- It stands inside their range, a run of none as well. -/
  inside : ∀ name x, b.get? name = some x → Inside x.span (spanOf window)
  /-- Names are bound in the order in which the template has a first placeholder for them. -/
  ordered : ∀ name name' x x', b.get? name = some x → b.get? name' = some x' →
    m.template.placeholderNames.idxOf name < m.template.placeholderNames.idxOf name' →
    x.span.stop ≤ x'.span.start
  /-- Different names share no byte. -/
  apart : ∀ name name' x x', b.get? name = some x → b.get? name' = some x' → name ≠ name' →
    x.span.overlaps x'.span = false
  /-- The text of a value is what its range takes out of the source. -/
  text : ∀ name x, b.get? name = some x → Text.slice? source x.span = some (x.textIn source) ∧
    x.span.Cuts source.toList (x.textIn source).toList

/-- Values that stand in order in the range of siblings are confined to it. -/
theorem confined_of_placing {source : String} {roots window rest : List Node}
    (h : m.Placing (Text.Boundary source.toList) roots window (spanOf window).start (spanOf window).stop .empty b fs)
    (hroots : m.template.roots = roots ++ rest) : m.Confined source window b := by
  have hinside : ∀ f ∈ fs, Inside f.value.span (spanOf window) ∧ f.value.span.start ≤ f.value.span.stop := by
    intro f hf
    exact h.order.of_mem (List.mem_map_of_mem hf)
  refine ⟨?within, ?inside, fun _ _ _ _ => h.behind hroots, fun _ _ _ _ => h.apart hroots, ?text⟩
  case within =>
    intro name x hx
    obtain ⟨f, hf, -, rfl⟩ := h.exists_first hx
    exact h.within f hf
  case inside =>
    intro name x hx
    obtain ⟨f, hf, -, rfl⟩ := h.exists_first hx
    exact (hinside f hf).1
  case text =>
    intro name x hx
    obtain ⟨f, hf, -, rfl⟩ := h.exists_first hx
    obtain ⟨hstart, hstop⟩ := h.ends f hf
    obtain ⟨middle, hcuts⟩ := hstart.between hstop (hinside f hf).2
    have htext : f.value.textIn source = String.ofList middle := Text.slice_of_cuts hcuts
    rw [htext, String.toList_ofList]
    exact ⟨Text.slice?_of_cuts hcuts, hcuts⟩

variable {t : Tree} {window : List Node}

theorem endsAt_of_mem_listing (h : t.WellFormed) (hn : n ∈ t.root.listing) :
    EndsAt (Text.Boundary t.source.toList) n := by
  intro k hk
  obtain ⟨middle, hcuts⟩ := h.cuts k (Node.mem_listing_trans hn hk)
  exact ⟨hcuts.start, hcuts.stop⟩

/-- **The binding of a node** is confined to it. -/
theorem confined_of_node? (h : t.WellFormed) (hn : n ∈ t.root.listing) (hb : m.node? n = some b) :
    m.Confined t.source [n] b := by
  unfold node? at hb
  cases hroot : m.template.root? with
  | none =>
      rw [hroot] at hb
      exact absurd hb (by simp)
  | some root =>
      rw [hroot] at hb
      have hroots : ∃ rest, m.template.roots = [root] ++ rest := by
        unfold Template.root? at hroot
        split at hroot
        · exact absurd hroot (by simp)
        · exact ⟨_, List.eq_cons_of_mem_head? (Option.mem_def.mpr hroot)⟩
      obtain ⟨rest, hroots⟩ := hroots
      obtain ⟨hnested, -, -⟩ := h.nested.of_mem_listing hn
      obtain ⟨fs, hfs⟩ := placing_of_matchNode m _ root n hb hnested (endsAt_of_mem_listing h hn)
      exact confined_of_placing hfs hroots

/-- **The binding of neighbouring children** is confined to them. -/
theorem confined_of_siblings? (h : t.WellFormed) (hwindow : t.root.HasRun window)
    (hb : m.siblings? window = some b) : m.Confined t.source window b := by
  obtain ⟨p, hp, hpart, hne⟩ := hwindow
  obtain ⟨htight, hnested⟩ := h.nested.neighbours hp hpart hne
  have hends : ∀ n ∈ window, EndsAt (Text.Boundary t.source.toList) n := by
    intro n hn
    refine endsAt_of_mem_listing h (Node.mem_listing_trans hp ?_)
    exact Node.mem_listing_of_mem_children (hpart.subset hn)
  unfold siblings? at hb
  simp only [stopOf_eq_spanOf hne] at hb
  obtain ⟨fs, hfs⟩ := placing_of_matchList m _ _ _ window hb htight hnested hends (ends_of_spanOf hends hne).2
  exact confined_of_placing hfs (List.append_nil _).symm

/-- **What is bound stays inside**: for a node that matches, inside that node, and for a site, inside its range,
whether it is a node or some neighbouring children of one. -/
theorem binding_confined (m : Matcher) {t : Tree} (h : t.WellFormed) :
    (∀ n ∈ t.root.listing, ∀ b, m.node? n = some b → m.Confined t.source [n] b) ∧
    (∀ accept, ∀ s ∈ m.sitesWhere accept t.root, ∃ window, s.span = spanOf window ∧
      ((∃ n ∈ t.root.listing, window = [n] ∧ m.node? n = some s.binding) ∨
        t.root.HasRun window ∧ m.siblings? window = some s.binding) ∧
      m.Confined t.source window s.binding) := by
  constructor
  · intro n hn b hb
    exact confined_of_node? h hn hb
  · intro accept s hs
    rcases origin_of_mem_sitesWhere hs with ⟨n, hn, hb, hspan⟩ | ⟨-, window, hwindow, hb⟩
    · obtain ⟨hb, -⟩ := node?_of_accepted? hb
      exact ⟨[n], hspan, Or.inl ⟨n, hn, rfl, hb⟩, confined_of_node? h hn hb⟩
    · obtain ⟨hb, -, hspan⟩ := siblings?_of_window? hb
      exact ⟨window, hspan, Or.inr ⟨hwindow, hb⟩, confined_of_siblings? h hwindow hb⟩

/-- A call without arguments: their run stands behind the name of the method, in front of the bracket. -/
theorem binding_confined_empty_run : ∃ t tree n b method anchor,
    Template.compile "$F($$$R)" [] = .ok t ∧ Java.parse? "f( );" = some tree ∧ tree.WellFormed ∧
    n ∈ tree.root.listing ∧ (Matcher.mk t .empty).node? n = some b ∧
    b.get? "F" = some method ∧ b.get? "R" = some (.run [] anchor) ∧
    method.span.stop ≤ anchor ∧ Inside ⟨anchor, anchor⟩ n.span ∧
    (Matcher.mk t .empty).Confined tree.source [n] b := by
  have h : ((Template.compile "$F($$$R)" []).toOption.any fun t => (Java.parse? "f( );").any fun tree =>
      (tree.root.preorder[2]?).any fun n => ((Matcher.mk t .empty).node? n).any fun b =>
        (b.get? "F").isSome && ((b.get? "R").any fun x => decide (x.shape = .run) && x.nodes.isEmpty) &&
        decide (t.placeholderNames.idxOf "F" < t.placeholderNames.idxOf "R")) = true := by
    decide +kernel
  obtain ⟨t, ht, h⟩ := (Option.any_eq_true _ _).mp h
  obtain ⟨tree, htree, h⟩ := (Option.any_eq_true _ _).mp h
  obtain ⟨n, hn, h⟩ := (Option.any_eq_true _ _).mp h
  obtain ⟨b, hb, h⟩ := (Option.any_eq_true _ _).mp h
  simp only [Bool.and_eq_true, decide_eq_true_iff] at h
  obtain ⟨⟨hmethod, hrun⟩, hlt⟩ := h
  obtain ⟨method, hmethod⟩ := Option.isSome_iff_exists.mp hmethod
  obtain ⟨x, hx, hrun⟩ := (Option.any_eq_true _ _).mp hrun
  obtain ⟨anchor, rfl⟩ : ∃ anchor, x = .run [] anchor := by
    cases x with
    | node k => exact absurd hrun (by simp [Bound.shape])
    | run ns anchor =>
        have hns : ns = [] := by simpa [Bound.shape, Bound.nodes] using hrun
        exact ⟨anchor, by rw [hns]⟩
  have hwell := Java.wellFormed_of_parse? htree
  have hmem : n ∈ tree.root.listing := by
    rw [← Node.preorder_eq_listing]
    exact List.mem_of_getElem? hn
  have hconfined := (binding_confined ⟨t, .empty⟩ hwell).1 n hmem b hb
  exact ⟨t, tree, n, b, method, anchor, Attempts.toOption_eq_some.mp ht, htree, hwell, hmem, hb, hmethod, hx,
    hconfined.ordered _ _ _ _ hmethod hx hlt, hconfined.inside _ _ hx, hconfined⟩

end Matcher

end JavaRefactor

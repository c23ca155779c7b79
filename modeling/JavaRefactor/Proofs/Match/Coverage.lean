import JavaRefactor.Proofs.Match.Sites
import JavaRefactor.Proofs.Syntax.Nested

/-!
# `Proofs.Match.Coverage` — the search for one template leaves nothing behind

A template with one root is searched from the root of the tree down to the first nodes that match, so that a
node that matches is below a site or is one. A template for runs is searched in each list of children from the left;
a run that matches, and starts with a construct, starts with a node that is in a site, or below one. And the
sites of one search share no byte.

## Contents
- **Nodes.** `exists_site_of_accepted`.
- **Runs.** `taken_or_visited`, one list of siblings, and `reached_of_window`, by recursion on the tree.
- **Order.** `sitesOfNodes_inOrder`, `sitesInList_inOrder`, and **`pairwise_sitesWhere`**.
- **`MatchOf`**, a match in a tree, and **`exists_site_of_matchOf`**.
-/

namespace JavaRefactor

open Syntax (Node spanOf)
open Text (Span InOrder)

namespace Matcher

variable {m : Matcher} {accept : Binding → Bool}

/-! ## Nodes -/

mutual

/-- **A node that matches** is below a site, or is one. -/
theorem exists_site_of_accepted : ∀ {root n : Node} {b : Binding}, n ∈ root.listing →
    m.accepted? accept n = some b →
    ∃ s ∈ m.sitesOfNode accept root, ∃ k ∈ root.listing, s.span = k.span ∧ n ∈ k.listing
  | .leaf l tr t, n, b, hn, hb => by
      rw [Node.listing, List.mem_singleton] at hn
      subst hn
      rw [sitesOfNode, hb]
      exact ⟨_, List.mem_singleton_self _, _, Node.mem_listing_self _, rfl, Node.mem_listing_self _⟩
  | .branch l cs, n, b, hn, hb => by
      cases ha : m.accepted? accept (.branch l cs) with
      | some b' =>
          rw [sitesOfNode, ha]
          exact ⟨_, List.mem_singleton_self _, _, Node.mem_listing_self _, rfl, hn⟩
      | none =>
          rw [sitesOfNode, ha]
          rw [Node.listing, List.mem_cons] at hn
          rcases hn with rfl | hn
          · rw [ha] at hb
            exact absurd hb (by simp)
          · obtain ⟨s, hs, k, hk, hspan, hbelow⟩ := exists_site_of_accepted_below hn hb
            exact ⟨s, hs, k, List.mem_cons_of_mem _ hk, hspan, hbelow⟩

theorem exists_site_of_accepted_below : ∀ {roots : List Node} {n : Node} {b : Binding},
    n ∈ Node.listingAll roots → m.accepted? accept n = some b →
    ∃ s ∈ m.sitesOfNodes accept roots, ∃ k ∈ Node.listingAll roots, s.span = k.span ∧ n ∈ k.listing
  | [], _, _, hn, _ => absurd hn (by simp [Node.listingAll])
  | root :: roots, n, b, hn, hb => by
      rw [sitesOfNodes]
      rw [Node.listingAll, List.mem_append] at hn
      rcases hn with hn | hn
      · obtain ⟨s, hs, k, hk, hspan, hbelow⟩ := exists_site_of_accepted hn hb
        exact ⟨s, List.mem_append_left _ hs, k, List.mem_append_left _ hk, hspan, hbelow⟩
      · obtain ⟨s, hs, k, hk, hspan, hbelow⟩ := exists_site_of_accepted_below hn hb
        exact ⟨s, List.mem_append_right _ hs, k, List.mem_append_right _ hk, hspan, hbelow⟩

end

/-! ## Runs -/

/-- Where a run matches that starts with a construct, there is a shortest one. -/
theorem shortestRun?_ne_none {c : Node} {xs rest : List Node} {s : Site} (hc : c.isNamed = true)
    (h : m.window? accept (c :: xs) = some s) :
    m.shortestRun? accept (c :: (xs ++ rest)) ≠ none := by
  intro hnone
  simp only [shortestRun?] at hnone
  rw [if_pos hc, List.findSome?_eq_none_iff] at hnone
  have hlength : xs.length ∈ List.range ((xs ++ rest).length + 1) := by
    rw [List.mem_range, List.length_append]
    omega
  have hthis := hnone xs.length hlength
  rw [List.take_left, h] at hthis
  exact absurd hthis (by simp)

theorem sitesInList_succ (skip : Nat) (n : Node) (ns : List Node) :
    m.sitesInList accept (skip + 1) (n :: ns) = m.sitesInList accept skip ns := by
  rw [sitesInList]

theorem sitesInList_of_run {n : Node} {ns : List Node} {k : Nat} {s : Site}
    (h : m.shortestRun? accept (n :: ns) = some (k, s)) :
    m.sitesInList accept 0 (n :: ns) = s :: m.sitesInList accept (k - 1) ns := by
  rw [sitesInList, h]

theorem sitesInList_of_none {n : Node} {ns : List Node} (h : m.shortestRun? accept (n :: ns) = none) :
    m.sitesInList accept 0 (n :: ns) =
      m.sitesInChildren accept n ++ m.sitesInList accept 0 ns := by
  rw [sitesInList, h]

/-- A site in the list takes the node. -/
def Taken (m : Matcher) (accept : Binding → Bool) (skip : Nat) (ns : List Node) (c : Node) : Prop :=
  ∃ s ∈ m.sitesInList accept skip ns, ∃ ys, ys <:+: ns ∧ ys ≠ [] ∧ s.span = spanOf ys ∧ c ∈ ys

/-- No run that matches starts at the node, and the sites below it are among those in the list. -/
def Visited (m : Matcher) (accept : Binding → Bool) (skip : Nat) (ns : List Node) (c : Node)
    (rest : List Node) : Prop :=
  m.shortestRun? accept (c :: rest) = none ∧
    ∀ s ∈ m.sitesInChildren accept c, s ∈ m.sitesInList accept skip ns

variable {c n : Node} {front rest ns : List Node} {skip skip' : Nat}

/-- What becomes of a node behind the first one becomes of it in the whole list. -/
theorem taken_or_visited_cons
    (hsub : ∀ s ∈ m.sitesInList accept skip' ns, s ∈ m.sitesInList accept skip (n :: ns))
    (h : m.Taken accept skip' ns c ∨ m.Visited accept skip' ns c rest) :
    m.Taken accept skip (n :: ns) c ∨ m.Visited accept skip (n :: ns) c rest := by
  rcases h with ⟨s, hs, ys, hys, hyield⟩ | ⟨hnone, hbelow⟩
  · exact Or.inl ⟨s, hsub s hs, ys, hys.trans (List.suffix_cons n ns).isInfix, hyield⟩
  · exact Or.inr ⟨hnone, fun s hs => hsub s (hbelow s hs)⟩

/-- A run at the start of the list takes the nodes that it is long enough for. -/
theorem taken_of_run {k : Nat} {s : Site} (hns : n :: ns = front ++ c :: rest)
    (hrun : m.shortestRun? accept (n :: ns) = some (k, s)) (hk : front.length < k) :
    m.Taken accept 0 (n :: ns) c := by
  obtain ⟨hw, -, hne⟩ := window?_of_shortestRun? hrun
  refine ⟨s, ?_, (n :: ns).take k, (List.take_prefix k (n :: ns)).isInfix, hne,
    (siblings?_of_window? hw).2.2, ?_⟩
  · rw [sitesInList_of_run hrun]
    exact List.mem_cons_self ..
  · rw [hns]
    refine List.mem_of_getElem? (i := front.length) ?_
    rw [List.getElem?_take_of_lt hk]
    simp

/-- **One list of siblings.** A node that is not passed over is taken by a site, or the search visits it. -/
theorem taken_or_visited (hns : ns = front ++ c :: rest) (hskip : skip ≤ front.length) :
    m.Taken accept skip ns c ∨ m.Visited accept skip ns c rest := by
  induction ns generalizing skip front with
  | nil => exact absurd hns (by simp)
  | cons n ns ih =>
      cases skip with
      | succ skip =>
          cases front with
          | nil => exact absurd hskip (by simp)
          | cons x front =>
              have htail := (List.cons.inj hns).2
              refine taken_or_visited_cons ?_ (ih htail (Nat.le_of_succ_le_succ hskip))
              intro s hs
              rw [sitesInList_succ]
              exact hs
      | zero =>
          cases hrun : m.shortestRun? accept (n :: ns) with
          | some found =>
              obtain ⟨k, s⟩ := found
              by_cases hk : front.length < k
              · exact Or.inl (taken_of_run hns hrun hk)
              · -- the run ends in front of the node, and the search goes on behind it
                have hpos := (window?_of_shortestRun? hrun).2.1
                cases front with
                | nil => exact absurd hpos hk
                | cons x front =>
                    have htail := (List.cons.inj hns).2
                    have hbehind : k - 1 ≤ front.length := by
                      rw [List.length_cons] at hk
                      omega
                    refine taken_or_visited_cons ?_ (ih htail hbehind)
                    intro s' hs'
                    rw [sitesInList_of_run hrun]
                    exact List.mem_cons_of_mem _ hs'
          | none =>
              cases front with
              | nil =>
                  obtain ⟨rfl, rfl⟩ := List.cons.inj hns
                  refine Or.inr ⟨hrun, ?_⟩
                  intro s hs
                  rw [sitesInList_of_none hrun]
                  exact List.mem_append_left _ hs
              | cons x front =>
                  have htail := (List.cons.inj hns).2
                  refine taken_or_visited_cons ?_ (ih htail (Nat.zero_le _))
                  intro s hs
                  rw [sitesInList_of_none hrun]
                  exact List.mem_append_right _ hs

/-! ## Runs in a tree -/

/-- A site below the root takes the node, or a node that it is below. -/
def Reached (m : Matcher) (accept : Binding → Bool) (root c : Node) : Prop :=
  ∃ s ∈ m.sitesInChildren accept root, ∃ ys, root.HasRun ys ∧ s.span = spanOf ys ∧
    ∃ k ∈ ys, c ∈ k.listing

theorem reached_of_taken {l : Syntax.Label} {cs : List Node} (h : m.Taken accept 0 cs n)
    (hc : c ∈ n.listing) : m.Reached accept (.branch l cs) c := by
  obtain ⟨s, hs, ys, hys, hne, hspan, hn⟩ := h
  exact ⟨s, hs, ys, ⟨_, Node.mem_listing_self _, hys, hne⟩, hspan, n, hn, hc⟩

/-- What is reached below a child is reached below its parent, where the search visits the child. -/
theorem Reached.of_child {l : Syntax.Label} {cs : List Node} (hn : n ∈ cs)
    (hsub : ∀ s ∈ m.sitesInChildren accept n, s ∈ m.sitesInList accept 0 cs)
    (h : m.Reached accept n c) : m.Reached accept (.branch l cs) c := by
  obtain ⟨s, hs, ys, ⟨p, hp, hys⟩, hspan, hreach⟩ := h
  have hbelow : p ∈ (Node.branch l cs).listing := List.mem_cons_of_mem _ (Node.mem_listingAll hn hp)
  exact ⟨s, hsub s hs, ys, ⟨p, hbelow, hys⟩, hspan, hreach⟩

variable {xs : List Node} {s : Site}

mutual

/-- **A run that matches** starts with a node that a site takes, or that is below such a one. -/
theorem reached_of_window : ∀ {root p : Node}, p ∈ root.listing → c :: xs <:+: p.children →
    c.isNamed = true → m.window? accept (c :: xs) = some s → m.Reached accept root c
  | .leaf l tr t, p, hp, hxs, _, _ => by
      rw [Node.listing, List.mem_singleton] at hp
      subst hp
      exact absurd (List.infix_nil.mp hxs) (by simp)
  | .branch l cs, p, hp, hxs, hc, hw => by
      rw [Node.listing, List.mem_cons] at hp
      rcases hp with rfl | hp
      · obtain ⟨front, rest, hcs⟩ := hxs
        have hcs : cs = front ++ c :: (xs ++ rest) := by
          rw [← show front ++ (c :: xs) ++ rest = cs from hcs]
          simp
        rcases taken_or_visited hcs (Nat.zero_le _) with htaken | ⟨hnone, -⟩
        · exact reached_of_taken htaken (Node.mem_listing_self c)
        · exact absurd hnone (shortestRun?_ne_none hc hw)
      · obtain ⟨n, hn, hp⟩ := Node.mem_listingAll_iff.mp hp
        obtain ⟨front, rest, hcs⟩ := List.append_of_mem hn
        rcases taken_or_visited hcs (Nat.zero_le _) with htaken | ⟨-, hsub⟩
        · have hchild : c ∈ p.children := hxs.subset (List.mem_cons_self ..)
          have hbelow := Node.mem_listing_trans hp (Node.mem_listing_of_mem_children hchild)
          exact reached_of_taken htaken hbelow
        · exact (reached_of_window_below n hn hp hxs hc hw).of_child hn hsub

theorem reached_of_window_below : ∀ {roots : List Node} {p : Node}, ∀ n ∈ roots, p ∈ n.listing →
    c :: xs <:+: p.children → c.isNamed = true → m.window? accept (c :: xs) = some s →
    m.Reached accept n c
  | [], _, _, hn, _, _, _, _ => absurd hn (by simp)
  | root :: roots, p, n, hn, hp, hxs, hc, hw => by
      rcases List.mem_cons.mp hn with hroot | hn
      · rw [hroot] at hp ⊢
        exact reached_of_window hp hxs hc hw
      · exact reached_of_window_below n hn hp hxs hc hw

end

/-! ## Order -/

mutual

theorem sitesOfNode_inOrder : ∀ {n : Node}, n.Nested → n.span.start < n.span.stop →
    InOrder n.span.start ((m.sitesOfNode accept n).map Site.span) n.span.stop
  | .leaf l tr t, _, hbyte => by
      rw [sitesOfNode]
      cases m.accepted? accept (.leaf l tr t) with
      | none => exact Nat.le_of_lt hbyte
      | some b => exact ⟨Nat.le_refl _, hbyte, Nat.le_refl _⟩
  | .branch l cs, h, hbyte => by
      rw [sitesOfNode]
      cases m.accepted? accept (.branch l cs) with
      | none => exact sitesOfNodes_inOrder h.1 h.2
      | some b => exact ⟨Nat.le_refl _, hbyte, Nat.le_refl _⟩

/-- The outermost nodes that match below several nodes are in order where the nodes are. -/
theorem sitesOfNodes_inOrder : ∀ {ns : List Node} {first last : Nat},
    InOrder first (ns.map Node.span) last → Node.NestedAll ns →
    InOrder first ((m.sitesOfNodes accept ns).map Site.span) last
  | [], _, _, horder, _ => horder
  | n :: ns, first, last, ⟨hstart, hbyte, hrest⟩, ⟨hn, hns⟩ => by
      rw [sitesOfNodes, List.map_append]
      refine InOrder.append_iff.mpr ⟨n.span.stop, ?_, sitesOfNodes_inOrder hrest hns⟩
      exact (sitesOfNode_inOrder hn hbyte).mono hstart (Nat.le_refl _)

end

/-- The shortest run lies in front of what it leaves. -/
theorem inOrder_of_shortestRun? {ns : List Node} {k first last : Nat}
    (h : m.shortestRun? accept ns = some (k, s)) (horder : InOrder first (ns.map Node.span) last) :
    first ≤ s.span.start ∧ s.span.start < s.span.stop ∧
      InOrder s.span.stop ((ns.drop k).map Node.span) last := by
  obtain ⟨hw, -, hne⟩ := window?_of_shortestRun? h
  rw [(siblings?_of_window? hw).2.2]
  exact Syntax.inOrder_drop horder hne

mutual

theorem sitesInChildren_inOrder : ∀ {n : Node}, n.Nested →
    InOrder n.span.start ((m.sitesInChildren accept n).map Site.span) n.span.stop
  | .leaf .., h => h
  | .branch _ _, ⟨horder, hnested⟩ => sitesInList_inOrder horder hnested

/-- The runs that match in a list of siblings, and below it, are in order where the siblings are. -/
theorem sitesInList_inOrder : ∀ {skip : Nat} {ns : List Node} {first last : Nat},
    InOrder first ((ns.drop skip).map Node.span) last → Node.NestedAll ns →
    InOrder first ((m.sitesInList accept skip ns).map Site.span) last
  | skip, [], first, last, horder, _ => by
      rw [List.drop_nil] at horder
      rw [sitesInList]
      exact horder
  | skip + 1, n :: ns, first, last, horder, ⟨_, hns⟩ => by
      rw [sitesInList_succ]
      exact sitesInList_inOrder horder hns
  | 0, n :: ns, first, last, horder, ⟨hn, hns⟩ => by
      cases hrun : m.shortestRun? accept (n :: ns) with
      | some found =>
          obtain ⟨k, s⟩ := found
          obtain ⟨hstart, hbyte, hrest⟩ := inOrder_of_shortestRun? hrun horder
          have hpos := (window?_of_shortestRun? hrun).2.1
          obtain ⟨k, rfl⟩ : ∃ k', k = k' + 1 := ⟨k - 1, by omega⟩
          rw [sitesInList_of_run hrun]
          exact ⟨hstart, hbyte, sitesInList_inOrder hrest hns⟩
      | none =>
          obtain ⟨hstart, hbyte, hrest⟩ := horder
          rw [sitesInList_of_none hrun, List.map_append]
          refine InOrder.append_iff.mpr ⟨n.span.stop, ?_, sitesInList_inOrder hrest hns⟩
          exact (sitesInChildren_inOrder hn).mono hstart (Nat.le_refl _)

end

/-- The sites of one search for a node do not overlap. -/
theorem pairwise_sitesOfNode (h : n.Nested) :
    ((m.sitesOfNode accept n).map Site.span).Pairwise fun a b => a.overlaps b = false := by
  rw [sitesOfNode_eq]
  cases m.accepted? accept n with
  | some b => exact List.pairwise_singleton ..
  | none =>
      obtain ⟨horder, hnested⟩ := h.children
      exact (sitesOfNodes_inOrder horder (Node.nestedAll_iff.mpr hnested)).pairwise

variable {root : Node}

/-- **The sites of one search** do not overlap. -/
theorem pairwise_sitesWhere (h : root.Nested) :
    ((m.sitesWhere accept root).map Site.span).Pairwise fun a b => a.overlaps b = false := by
  unfold sitesWhere
  by_cases hrun : m.template.isRun = true
  · rw [if_pos hrun]
    exact (sitesInChildren_inOrder h).pairwise
  · rw [if_neg hrun]
    exact pairwise_sitesOfNode h

/-! ## Matches -/

/-- A match in a tree: of a node or, where the template is for runs, of neighbouring children of a node. -/
inductive MatchOf (m : Matcher) (accept : Binding → Bool) (root : Node) : List Node → Prop where
  | node {n : Node} {b : Binding} : m.template.isRun = false → n ∈ root.listing →
      m.accepted? accept n = some b → MatchOf m accept root [n]
  | run {xs : List Node} {s : Site} : m.template.isRun = true → root.HasRun xs →
      m.window? accept xs = some s → MatchOf m accept root xs

/-- The match is of a run that starts with a bare token. -/
def StartsBare (m : Matcher) (xs : List Node) : Prop :=
  m.template.isRun = true ∧ ∃ c, xs.head? = some c ∧ c.isNamed = false

/-- What is below a node meets it. -/
theorem meets_of_mem_listing (h : root.Nested) {k : Node} (hk : k ∈ root.listing) (hn : n ∈ k.listing) :
    k.span.Meets n.span := by
  obtain ⟨hnested, hinside, -⟩ := h.of_mem_listing hk
  obtain ⟨-, hbelow, hbyte⟩ := hnested.of_mem_listing hn
  rcases hbyte with rfl | hbyte
  · exact Or.inr rfl
  · exact Or.inl (Span.overlaps_of_inside hbelow (.refl _) hbyte)

/-- What is below a node of a run takes a byte of it. -/
theorem inside_of_hasRun (h : root.Nested) {ys : List Node} (hys : root.HasRun ys) {k : Node}
    (hk : k ∈ ys) (hn : n ∈ k.listing) :
    n.span.Inside (spanOf ys) ∧ n.span.start < n.span.stop := by
  obtain ⟨p, hp, hpart, hne⟩ := hys
  obtain ⟨htight, hnested⟩ := h.neighbours hp hpart hne
  obtain ⟨hstart, hbyte, hstop⟩ := htight.of_mem (List.mem_map_of_mem hk)
  obtain ⟨-, hinside, hsame⟩ := (hnested k hk).of_mem_listing hn
  refine ⟨hinside.trans ⟨hstart, hstop⟩, ?_⟩
  rcases hsame with rfl | hbyte'
  · exact hbyte
  · exact hbyte'

/-- A run that matches, and starts with a construct, shares a byte with a site. -/
theorem exists_site_of_run (h : root.Nested) (hxs : root.HasRun (c :: xs)) (hc : c.isNamed = true)
    (hw : m.window? accept (c :: xs) = some s) :
    ∃ s' ∈ m.sitesInChildren accept root, s'.span.overlaps (spanOf (c :: xs)) = true := by
  obtain ⟨p, hp, hpart, -⟩ := id hxs
  obtain ⟨s', hs', ys, hys, hspan, k, hk, hbelow⟩ := reached_of_window hp hpart hc hw
  -- the first node of the run is in both ranges
  obtain ⟨hin, hbyte⟩ := inside_of_hasRun h hys hk hbelow
  obtain ⟨hin', -⟩ := inside_of_hasRun h hxs (List.mem_cons_self ..) (Node.mem_listing_self c)
  refine ⟨s', hs', ?_⟩
  rw [hspan]
  exact Span.overlaps_of_inside hin hin' hbyte

/-- **The search leaves nothing behind** but runs that start with a bare token: any other match meets a site. -/
theorem exists_site_of_matchOf (h : root.Nested) (hm : m.MatchOf accept root xs)
    (hbare : ¬ m.StartsBare xs) : ∃ s ∈ m.sitesWhere accept root, s.span.Meets (spanOf xs) := by
  cases hm with
  | node hrun hn hb =>
      obtain ⟨s, hs, k, hk, hspan, hbelow⟩ := exists_site_of_accepted hn hb
      refine ⟨s, ?_, ?_⟩
      · unfold sitesWhere
        rw [if_neg (by simp [hrun])]
        exact hs
      · rw [hspan]
        exact meets_of_mem_listing h hk hbelow
  | run hrun hxs hw =>
      obtain ⟨p, hp, hpart, hne⟩ := hxs
      obtain ⟨c, rest, rfl⟩ := List.exists_cons_of_ne_nil hne
      have hc : c.isNamed = true := by
        cases hc : c.isNamed with
        | true => rfl
        | false => exact absurd ⟨hrun, c, rfl, hc⟩ hbare
      obtain ⟨s, hs, hover⟩ := exists_site_of_run h ⟨p, hp, hpart, hne⟩ hc hw
      refine ⟨s, ?_, Or.inl hover⟩
      unfold sitesWhere
      rw [if_pos hrun]
      exact hs

end Matcher

end JavaRefactor

import JavaRefactor.Proofs.Attempts
import JavaRefactor.Proofs.Match.Sites

/-!
# `Proofs.Match.Outermost` — a template with one root has its sites at the outermost matches

Nodes are told apart by their paths: one subtree may stand in several places of a tree. A path that is a prefix of
another leads to a node above it, and the lexicographic order of paths is the pre-order of the nodes.

## Contents
- **Paths.** `amongAt?`, which reads a path from several nodes, and `nodeAt?_cons`.
- **`AcceptedAt`**, **`Outermost`** and **`StandsAt`**, of any way to read paths.
- **`FoundAt`**: which sites a search returns, with one lemma for each step of the search, and `foundAt_sitesOfNode`,
  by recursion on the tree.
- **`exists_outermost`**: a match is below an outermost one.
- **`sites_outermost`**.
-/

namespace JavaRefactor

open Syntax (Node)
open Template (nodeAt?)

/-! ## Paths -/

/-- The node that a path leads to from some nodes, of which the first has the given number. -/
def Template.amongAt? : Nat → List Node → List Nat → Option Node
  | _, [], _ => none
  | _, _ :: _, [] => none
  | i, n :: ns, k :: path => if k = i then nodeAt? n path else amongAt? (i + 1) ns (k :: path)

open Template (amongAt?)

namespace Template

/-- A path that leads to one of the nodes starts with its number. -/
theorem exists_cons_of_amongAt? {i : Nat} {ns : List Node} {path : List Nat} {c : Node}
    (h : amongAt? i ns path = some c) : ∃ k rest, path = k :: rest ∧ i ≤ k := by
  induction ns generalizing i with
  | nil => exact absurd h (by simp [amongAt?])
  | cons n ns ih =>
      cases path with
      | nil => exact absurd h (by simp [amongAt?])
      | cons k rest =>
          refine ⟨k, rest, rfl, ?_⟩
          rw [amongAt?] at h
          by_cases hk : k = i
          · exact Nat.le_of_eq hk.symm
          · rw [if_neg hk] at h
            obtain ⟨k', rest', hpath, hle⟩ := ih h
            obtain ⟨rfl, -⟩ := List.cons.inj hpath
            exact Nat.le_of_succ_le hle

theorem amongAt?_eq_getElem? {i k : Nat} (h : i ≤ k) (ns : List Node) (path : List Nat) :
    amongAt? i ns (k :: path) = ns[k - i]?.bind (nodeAt? · path) := by
  induction ns generalizing i with
  | nil => rfl
  | cons n ns ih =>
      rw [amongAt?]
      by_cases hk : k = i
      · subst hk
        simp
      · have hbehind : k - i = k - (i + 1) + 1 := by omega
        rw [if_neg hk, ih (by omega), hbehind, List.getElem?_cons_succ]

/-- A path from a node reads on from its children. -/
theorem nodeAt?_cons (n : Node) (k : Nat) (path : List Nat) :
    nodeAt? n (k :: path) = amongAt? 0 n.children (k :: path) := by
  rw [amongAt?_eq_getElem? (Nat.zero_le k), nodeAt?]
  cases n.children[k - 0]? with
  | none => rfl
  | some c => rfl

end Template

namespace Matcher

variable {m : Matcher} {accept : Binding → Bool}

/-! ## Outermost matches -/

section Reading

variable (m accept) (read : List Nat → Option Node)

/-- The node at a path matches, with a binding that is accepted. -/
def AcceptedAt (path : List Nat) : Prop :=
  ∃ n b, read path = some n ∧ m.node? n = some b ∧ accept b = true

/-- The node at a path matches so, and no node above it does. -/
def Outermost (path : List Nat) : Prop :=
  m.AcceptedAt accept read path ∧
    ∀ above, above <+: path → above ≠ path → ¬ m.AcceptedAt accept read above

/-- The site is that of the node at a path: it has the node's range, and the binding of its match. -/
def StandsAt (path : List Nat) (s : Site) : Prop :=
  ∃ n, read path = some n ∧ m.node? n = some s.binding ∧ accept s.binding = true ∧ s.span = n.span

/-- The sites are those of the outermost matches, each of them once and in pre-order; the paths say which
    match each site is that of. -/
structure FoundAt (paths : List (List Nat)) (sites : List Site) : Prop where
  preorder : paths.Pairwise (· < ·)
  outermost : ∀ path, path ∈ paths ↔ m.Outermost accept read path
  standing : List.Forall₂ (m.StandsAt accept read) paths sites

end Reading

theorem accepted?_eq_some_iff {n : Node} {b : Binding} :
    m.accepted? accept n = some b ↔ m.node? n = some b ∧ accept b = true := by
  constructor
  · exact node?_of_accepted?
  · rintro ⟨hb, ha⟩
    unfold accepted?
    rw [hb]
    exact if_pos ha

/-- Below several nodes there is none at the empty path. -/
theorem not_acceptedAt_nil {i : Nat} {ns : List Node} : ¬ m.AcceptedAt accept (amongAt? i ns) [] := by
  rintro ⟨n, b, hn, -⟩
  obtain ⟨k, rest, hpath, -⟩ := Template.exists_cons_of_amongAt? hn
  exact absurd hpath (by simp)

variable {read read' : List Nat → Option Node} {path path' : List Nat}

/-- Only the node counts that a path leads to. -/
theorem acceptedAt_congr (h : read path = read' path') :
    m.AcceptedAt accept read path ↔ m.AcceptedAt accept read' path' := by
  unfold AcceptedAt
  rw [h]

/-- Only the matches on the way to a node count. -/
theorem outermost_congr (h : ∀ above, above <+: path →
      (m.AcceptedAt accept read above ↔ m.AcceptedAt accept read' above)) :
    m.Outermost accept read path ↔ m.Outermost accept read' path := by
  have hway : (∀ above, above <+: path → above ≠ path → ¬ m.AcceptedAt accept read above) ↔
      ∀ above, above <+: path → above ≠ path → ¬ m.AcceptedAt accept read' above := by
    constructor
    · intro houter above hpre hne hacc
      exact houter above hpre hne ((h above hpre).mpr hacc)
    · intro houter above hpre hne hacc
      exact houter above hpre hne ((h above hpre).mp hacc)
  exact and_congr (h path (List.prefix_refl path)) hway

/-- Where the paths of one reading are those of another behind a number, so are the outermost matches. -/
theorem outermost_cons {k : Nat} (hread : ∀ rest, read (k :: rest) = read' rest)
    (hroot : ¬ m.AcceptedAt accept read []) :
    m.Outermost accept read (k :: path) ↔ m.Outermost accept read' path := by
  have hsame : ∀ rest, m.AcceptedAt accept read (k :: rest) ↔ m.AcceptedAt accept read' rest :=
    fun rest => acceptedAt_congr (hread rest)
  constructor
  · rintro ⟨hpath, houter⟩
    refine ⟨(hsame path).mp hpath, ?_⟩
    intro above hpre hne hacc
    have hlonger : k :: above ≠ k :: path := fun h => hne (List.cons.inj h).2
    exact houter (k :: above) (List.cons_prefix_cons.mpr ⟨rfl, hpre⟩) hlonger ((hsame above).mpr hacc)
  · rintro ⟨hpath, houter⟩
    refine ⟨(hsame path).mpr hpath, ?_⟩
    intro above hpre hne hacc
    cases above with
    | nil => exact hroot hacc
    | cons j above =>
        obtain ⟨rfl, hrest⟩ := List.cons_prefix_cons.mp hpre
        have hshorter : above ≠ path := fun h => hne (congrArg (j :: ·) h)
        exact houter above hrest hshorter ((hsame above).mp hacc)

/-! ## The steps of the search -/

variable {n : Node} {ns : List Node} {i : Nat} {paths paths' : List (List Nat)} {sites sites' : List Site}

/-- A node that matches is the only site in it. -/
theorem foundAt_self {b : Binding} (h : m.accepted? accept n = some b) :
    m.FoundAt accept (nodeAt? n) [[]] [⟨n.span, b⟩] := by
  obtain ⟨hb, ha⟩ := accepted?_eq_some_iff.mp h
  have hroot : m.AcceptedAt accept (nodeAt? n) [] := ⟨n, b, rfl, hb, ha⟩
  refine ⟨List.pairwise_singleton .., ?_, .cons ⟨n, rfl, hb, ha, rfl⟩ .nil⟩
  intro path
  rw [List.mem_singleton]
  constructor
  · rintro rfl
    refine ⟨hroot, ?_⟩
    intro above hpre hne
    exact absurd (List.prefix_nil.mp hpre) hne
  · rintro ⟨-, houter⟩
    by_contra hne
    exact houter [] List.nil_prefix (Ne.symm hne) hroot

/-- The sites in a node that does not match are those in its children. -/
theorem foundAt_children (h : m.accepted? accept n = none)
    (hbelow : m.FoundAt accept (amongAt? 0 n.children) paths sites) :
    m.FoundAt accept (nodeAt? n) paths sites := by
  have hroot : ¬ m.AcceptedAt accept (nodeAt? n) [] := by
    rintro ⟨n', b, hn, hb, ha⟩
    obtain rfl : n = n' := Option.some.inj hn
    rw [accepted?_eq_some_iff.mpr ⟨hb, ha⟩] at h
    exact absurd h (by simp)
  -- below the root both readings agree, and neither has a match at the root
  have hsame : ∀ path, m.AcceptedAt accept (amongAt? 0 n.children) path ↔
      m.AcceptedAt accept (nodeAt? n) path := by
    intro path
    cases path with
    | nil => exact iff_of_false not_acceptedAt_nil hroot
    | cons k path => exact acceptedAt_congr (Template.nodeAt?_cons n k path).symm
  refine ⟨hbelow.preorder, ?_, hbelow.standing.imp ?_⟩
  · intro path
    rw [hbelow.outermost path]
    exact outermost_congr fun above _ => hsame above
  · rintro path s ⟨c, hc, hs⟩
    obtain ⟨k, rest, rfl, -⟩ := Template.exists_cons_of_amongAt? hc
    exact ⟨c, (Template.nodeAt?_cons n k rest).trans hc, hs⟩

theorem foundAt_nil : m.FoundAt accept (amongAt? i []) [] [] := by
  refine ⟨.nil, ?_, .nil⟩
  intro path
  refine iff_of_false (by simp) ?_
  rintro ⟨⟨n, b, hn, -⟩, -⟩
  exact absurd hn (by simp [amongAt?])

/-- An outermost match below some nodes is below the first one of them, or below the others. -/
theorem outermost_cons_iff : m.Outermost accept (amongAt? i (n :: ns)) path ↔
    (∃ rest, path = i :: rest ∧ m.Outermost accept (nodeAt? n) rest) ∨
      m.Outermost accept (amongAt? (i + 1) ns) path := by
  have hfirst : ∀ rest, m.Outermost accept (amongAt? i (n :: ns)) (i :: rest) ↔
      m.Outermost accept (nodeAt? n) rest :=
    fun rest => outermost_cons (fun rest => by rw [amongAt?, if_pos rfl]) not_acceptedAt_nil
  have hother : ∀ k rest, k ≠ i → (m.Outermost accept (amongAt? i (n :: ns)) (k :: rest) ↔
      m.Outermost accept (amongAt? (i + 1) ns) (k :: rest)) := by
    intro k rest hk
    refine outermost_congr fun above hpre => ?_
    cases above with
    | nil => exact iff_of_false not_acceptedAt_nil not_acceptedAt_nil
    | cons j above =>
        obtain ⟨rfl, -⟩ := List.cons_prefix_cons.mp hpre
        exact acceptedAt_congr (by rw [amongAt?, if_neg hk])
  constructor
  · intro h
    obtain ⟨⟨c, b, hc, -⟩, -⟩ := id h
    obtain ⟨k, rest, rfl, -⟩ := Template.exists_cons_of_amongAt? hc
    by_cases hk : k = i
    · subst hk
      exact Or.inl ⟨rest, rfl, (hfirst rest).mp h⟩
    · exact Or.inr ((hother k rest hk).mp h)
  · rintro (⟨rest, rfl, h⟩ | h)
    · exact (hfirst rest).mpr h
    · obtain ⟨⟨c, b, hc, -⟩, -⟩ := id h
      obtain ⟨k, rest, rfl, hk⟩ := Template.exists_cons_of_amongAt? hc
      exact (hother k rest (Nat.ne_of_gt hk)).mpr h

/-- The sites in some nodes are those in the first one, and then those in the others. -/
theorem foundAt_cons (hn : m.FoundAt accept (nodeAt? n) paths sites)
    (hns : m.FoundAt accept (amongAt? (i + 1) ns) paths' sites') :
    m.FoundAt accept (amongAt? i (n :: ns)) (paths.map (i :: ·) ++ paths') (sites ++ sites') := by
  refine ⟨?_, ?_, ?_⟩
  · refine List.pairwise_append.mpr ⟨?_, hns.preorder, ?_⟩
    · rw [List.pairwise_map]
      exact hn.preorder.imp fun h => List.cons_lt_cons_iff.mpr (Or.inr ⟨rfl, h⟩)
    · -- a path to one of the others starts with a later number
      intro path hpath path' hpath'
      obtain ⟨rest, -, rfl⟩ := List.mem_map.mp hpath
      obtain ⟨⟨c, b, hc, -⟩, -⟩ := (hns.outermost path').mp hpath'
      obtain ⟨k, rest', rfl, hk⟩ := Template.exists_cons_of_amongAt? hc
      exact List.cons_lt_cons_iff.mpr (Or.inl hk)
  · intro path
    rw [List.mem_append, List.mem_map, hns.outermost, outermost_cons_iff]
    constructor
    · rintro (⟨rest, hrest, rfl⟩ | h)
      · exact Or.inl ⟨rest, rfl, (hn.outermost rest).mp hrest⟩
      · exact Or.inr h
    · rintro (⟨rest, rfl, hrest⟩ | h)
      · exact Or.inl ⟨rest, (hn.outermost rest).mpr hrest, rfl⟩
      · exact Or.inr h
  · refine List.rel_append ?_ (hns.standing.imp ?_)
    · rw [List.forall₂_map_left_iff]
      refine hn.standing.imp ?_
      rintro rest s ⟨c, hc, hs⟩
      exact ⟨c, by rw [amongAt?, if_pos rfl, hc], hs⟩
    · rintro path s ⟨c, hc, hs⟩
      obtain ⟨k, rest, rfl, hk⟩ := Template.exists_cons_of_amongAt? hc
      exact ⟨c, by rw [amongAt?, if_neg (Nat.ne_of_gt hk), hc], hs⟩

/-! ## The search -/

mutual

/-- **The sites in a node** are those of the outermost matches. -/
theorem foundAt_sitesOfNode : ∀ n : Node, ∃ paths,
    m.FoundAt accept (nodeAt? n) paths (m.sitesOfNode accept n)
  | .leaf l tr t => by
      rw [sitesOfNode_eq]
      cases h : m.accepted? accept (.leaf l tr t) with
      | some b => exact ⟨_, foundAt_self h⟩
      | none => exact ⟨[], foundAt_children h foundAt_nil⟩
  | .branch l cs => by
      rw [sitesOfNode_eq]
      cases h : m.accepted? accept (.branch l cs) with
      | some b => exact ⟨_, foundAt_self h⟩
      | none =>
          obtain ⟨paths, hpaths⟩ := foundAt_sitesOfNodes cs 0
          exact ⟨paths, foundAt_children h hpaths⟩

theorem foundAt_sitesOfNodes : ∀ (ns : List Node) (i : Nat), ∃ paths,
    m.FoundAt accept (amongAt? i ns) paths (m.sitesOfNodes accept ns)
  | [], _ => ⟨[], foundAt_nil⟩
  | n :: ns, i => by
      obtain ⟨paths, hn⟩ := foundAt_sitesOfNode n
      obtain ⟨paths', hns⟩ := foundAt_sitesOfNodes ns (i + 1)
      exact ⟨_, foundAt_cons hn hns⟩

end

/-- **A match is below an outermost one**, or is one. -/
theorem exists_outermost (h : m.AcceptedAt accept read path) :
    ∃ top, top <+: path ∧ m.Outermost accept read top := by
  -- of the matches on the way to the node, the one with the shortest path
  induction hlength : path.length using Nat.strongRecOn generalizing path with
  | ind length ih =>
      by_cases houter : m.Outermost accept read path
      · exact ⟨path, List.prefix_refl path, houter⟩
      · obtain ⟨above, hpre, hne, habove⟩ : ∃ above, above <+: path ∧ above ≠ path ∧
            m.AcceptedAt accept read above := by
          by_contra hnone
          push Not at hnone
          exact houter ⟨h, hnone⟩
        have hshorter : above.length < length := by
          rw [← hlength]
          exact Nat.lt_of_le_of_ne hpre.length_le (mt hpre.eq_of_length hne)
        obtain ⟨top, htop, houtermost⟩ := ih above.length hshorter habove rfl
        exact ⟨top, htop.trans hpre, houtermost⟩

variable {root : Node}

theorem foundAt_sitesWhere (hrun : m.template.isRun = false) (accept : Binding → Bool) (root : Node) :
    ∃ paths, m.FoundAt accept (nodeAt? root) paths (m.sitesWhere accept root) := by
  unfold sitesWhere
  rw [if_neg (by simp [hrun])]
  exact foundAt_sitesOfNode root

theorem not_acceptedAt_of_rejected {b : Binding} (hn : read path = some n) (hb : m.node? n = some b)
    (hreject : accept b = false) : ¬ m.AcceptedAt accept read path := by
  rintro ⟨n', b', hn', hb', ha⟩
  obtain rfl : n = n' := Option.some.inj (hn.symm.trans hn')
  obtain rfl : b = b' := Option.some.inj (hb.symm.trans hb')
  rw [hreject] at ha
  exact absurd ha (by simp)

/-- **A match that is not accepted hides nothing**: a match that is accepted and below it is below a site, or is
    one, and that site is below the other match too. -/
theorem FoundAt.below_rejected (h : m.FoundAt accept read paths sites) {above below : List Nat}
    {b : Binding} (hn : read above = some n) (hb : m.node? n = some b) (hreject : accept b = false)
    (hfree : ∀ top, top <+: above → top ≠ above → ¬ m.AcceptedAt accept read top)
    (hbelow : m.AcceptedAt accept read (above ++ below)) :
    ∃ rest, rest ≠ [] ∧ rest <+: below ∧ above ++ rest ∈ paths := by
  have hnone : ∀ top, top <+: above → ¬ m.AcceptedAt accept read top := by
    intro top htop
    by_cases hself : top = above
    · rw [hself]
      exact not_acceptedAt_of_rejected hn hb hreject
    · exact hfree top htop hself
  obtain ⟨top, hpre, houter⟩ := exists_outermost hbelow
  rcases List.prefix_or_prefix_of_prefix hpre (List.prefix_append above below) with htop | htop
  · exact absurd houter.1 (hnone top htop)
  · obtain ⟨rest, rfl⟩ := htop
    refine ⟨rest, ?_, (List.prefix_append_right_inj above).mp hpre, (h.outermost _).mpr houter⟩
    rintro rfl
    exact hnone (above ++ []) (by simp) houter.1

/-! ## The sites of a template with one root -/

/-- **The outermost matches.** For a template with one root the sites are those of the nodes that match with an
    accepted binding while no node above them does: each such node once, in pre-order, with its range and its
    binding. And a match that is not accepted hides nothing below it. -/
theorem sites_outermost (m : Matcher) (accept : Binding → Bool) (root : Node)
    (hrun : m.template.isRun = false) :
    ∃ paths, m.FoundAt accept (nodeAt? root) paths (m.sitesWhere accept root) ∧
      ∀ above n b, nodeAt? root above = some n → m.node? n = some b → accept b = false →
        (∀ top, top <+: above → top ≠ above → ¬ m.AcceptedAt accept (nodeAt? root) top) →
        ∀ below, m.AcceptedAt accept (nodeAt? root) (above ++ below) →
          ∃ rest, rest ≠ [] ∧ rest <+: below ∧ above ++ rest ∈ paths := by
  obtain ⟨paths, hpaths⟩ := foundAt_sitesWhere hrun accept root
  refine ⟨paths, hpaths, ?_⟩
  intro above n b hn hb hreject hfree below hbelow
  exact hpaths.below_rejected hn hb hreject hfree hbelow

/-- Matches inside matches, where calls with a call as argument are not accepted: the inner calls are the sites. -/
theorem sites_outermost_rejected : ∃ t tree paths,
    Template.compile "f($X)" [] = .ok t ∧ t.isRun = false ∧ Java.parse? "f(f(1)); f(2);" = some tree ∧
    (let m : Matcher := ⟨t, .empty⟩
     let simple : Binding → Bool := fun b => (b.node? "X").any fun x => !x.isKind "method_invocation"
     (m.sites tree.root).map (·.span) = [⟨0, 7⟩, ⟨9, 13⟩] ∧
     (m.sitesWhere simple tree.root).map (·.span) = [⟨2, 6⟩, ⟨9, 13⟩] ∧
     m.FoundAt simple (nodeAt? tree.root) paths (m.sitesWhere simple tree.root) ∧
     paths.length = 2) := by
  have h : ((Template.compile "f($X)" []).toOption.any fun t =>
      (Java.parse? "f(f(1)); f(2);").any fun tree => t.isRun == false &&
        decide (((Matcher.mk t .empty).sites tree.root).map (·.span) = [⟨0, 7⟩, ⟨9, 13⟩]) &&
        decide (((Matcher.mk t .empty).sitesWhere
          (fun b => (b.node? "X").any fun x => !x.isKind "method_invocation") tree.root).map (·.span) =
            [⟨2, 6⟩, ⟨9, 13⟩])) = true := by
    decide +kernel
  obtain ⟨t, ht, h⟩ := (Option.any_eq_true _ _).mp h
  obtain ⟨tree, htree, h⟩ := (Option.any_eq_true _ _).mp h
  obtain ⟨h, hsimple⟩ := (Bool.and_eq_true _ _).mp h
  obtain ⟨hrun, hall⟩ := (Bool.and_eq_true _ _).mp h
  have hsimple := of_decide_eq_true hsimple
  have hrun : t.isRun = false := by simpa using hrun
  obtain ⟨paths, hpaths, -⟩ := sites_outermost ⟨t, .empty⟩
    (fun b => (b.node? "X").any fun x => !x.isKind "method_invocation") tree.root hrun
  refine ⟨t, tree, paths, Attempts.toOption_eq_some.mp ht, hrun, htree, of_decide_eq_true hall, hsimple,
    hpaths, ?_⟩
  have hcount := congrArg List.length hsimple
  rw [List.length_map] at hcount
  exact hpaths.standing.length_eq.trans hcount

end Matcher

end JavaRefactor

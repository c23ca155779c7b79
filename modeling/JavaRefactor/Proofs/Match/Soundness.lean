import JavaRefactor.Match.Unify
import JavaRefactor.Proofs.Attempts
import JavaRefactor.Proofs.Match.Overlay

/-!
# `Proofs.Match.Soundness` — a match lays the template over the candidate

The matcher walks template and candidate together and carries a binding along; in a list with a
placeholder for a run it goes back and tries another length. Whatever it tried on the way, what it
returns is explained by one overlay: the binding is the start extended by what the overlay's placeholders
face, in order. So nothing of an attempt that failed is left in it.

## Contents
- **`Explained`**: what a binding and the facings of an overlay have to do with one another.
- **One node.** `facing_of_bindNode?`, the facing that a placeholder adds by itself.
- **The walk.** `overlay_of_matchNode` and `overlay_of_matchList`, by recursion on the template.
- **`Matcher.match_sound`**, for whole templates.
-/

namespace JavaRefactor

open Syntax (Node)

/-- **A binding explained by facings.** It has the names of the placeholders of `roots` but for the
    wildcard, every value that is faced agrees with the one it keeps for that name, the values it keeps
    are faced, and a node that a placeholder faces by itself is a construct of an admitted type. -/
structure Explained (m : Matcher) (roots : List Node) (fs : List Facing) (b : Binding) : Prop where
  names : ∀ name, (b.get? name).isSome = true ↔
    name ≠ Metavariable.wildcard ∧ name ∈ (m.template.placeholdersOfAll roots).map (·.name)
  agrees : ∀ f ∈ fs, f.name ≠ Metavariable.wildcard →
    ∃ x, b.get? f.name = some x ∧ x.same f.value = true
  faced : ∀ name x, b.get? name = some x → ∃ f ∈ fs, f.name = name ∧ f.value = x
  admitted : ∀ f ∈ fs, ∀ n, f.value = .node n → n.isNamed = true ∧
    (m.template.constraint f.name).admits (m.typing.typeOf n) = true

namespace Matcher

variable {m : Matcher}

/-- The nodes that are faced by themselves are constructs of admitted types. -/
def Admitted (m : Matcher) (fs : List Facing) : Prop :=
  ∀ f ∈ fs, ∀ n, f.value = .node n → n.isNamed = true ∧
    (m.template.constraint f.name).admits (m.typing.typeOf n) = true

theorem Admitted.nil : m.Admitted [] := fun _ hf => absurd hf (by simp)

theorem Admitted.append {fs gs : List Facing} (hf : m.Admitted fs) (hg : m.Admitted gs) :
    m.Admitted (fs ++ gs) := fun f h =>
  (List.mem_append.mp h).elim (hf f) (hg f)

/-- A run is no node that is faced by itself. -/
theorem Admitted.cons_run {v : Metavariable} {xs : List Node} {anchor : Nat} {fs : List Facing}
    (hf : m.Admitted fs) : m.Admitted (⟨v, .run xs anchor⟩ :: fs) := by
  intro f h n hn
  rcases List.mem_cons.mp h with rfl | h
  · exact absurd hn (by simp)
  · exact hf f h n hn

/-- A constraint that admits any type is no exception to how constraints admit types. -/
theorem admits_eq (m : Matcher) (v : Metavariable) (n : Node) :
    m.admits v n = (m.template.constraint v.name).admits (m.typing.typeOf n) := by
  unfold admits
  cases m.template.constraint v.name <;> rfl

/-- A node stands for a run exactly if its metavariable is one for runs. -/
theorem runAt?_eq_some {p : Node} {v : Metavariable} (h : m.runAt? p = some v) :
    m.template.metavariableAt? p = some v ∧ v.shape = .run := by
  unfold runAt? at h
  cases hv : m.template.metavariableAt? p with
  | none => rw [hv] at h; exact absurd h (by simp)
  | some w =>
      rw [hv] at h
      by_cases hs : w.shape = .run
      · simp only [hs, beq_self_eq_true, if_true, Option.some.injEq] at h
        exact ⟨congrArg some h, h ▸ hs⟩
      · simp [hs] at h

/-- A node that does not stand for a run stands for a single node, if for anything. -/
theorem single_of_runAt?_eq_none {p : Node} (h : m.runAt? p = none) {v : Metavariable}
    (hv : m.template.metavariableAt? p = some v) : v.shape = .single := by
  unfold runAt? at h
  rw [hv] at h
  cases hs : v.shape with
  | single => rfl
  | run => simp [hs] at h

/-! ## One node -/

/-- **A placeholder by itself.** It faces the node it is laid over, as a node or as a run of one node, and
    binding that facing is what the matcher does. -/
theorem facing_of_bindNode? {p n : Node} {v : Metavariable} {b b' : Binding}
    (hv : m.template.metavariableAt? p = some v) (h : m.bindNode? v n b = some b') :
    ∃ fs, Overlay m.template p n fs ∧ Binding.extend? fs b = some b' ∧ m.Admitted fs := by
  unfold bindNode? at h
  cases hs : v.shape with
  | single =>
      rw [hs] at h
      by_cases ha : (n.isNamed && m.admits v n) = true
      · simp only [ha, if_true] at h
        refine ⟨[⟨v, .node n⟩], .single hv hs, by simp [Binding.extend?, Facing.name, h], ?_⟩
        intro f hf k hk
        rw [List.mem_singleton] at hf
        subst hf
        rw [← Bound.node.inj hk]
        rw [Bool.and_eq_true, admits_eq] at ha
        exact ha
      · simp [ha] at h
  | run =>
      rw [hs] at h
      exact ⟨[⟨v, .run [n] n.span.start⟩], .alone hv hs,
        by simp [Binding.extend?, Facing.name, h], Admitted.nil.cons_run⟩

/-! ## The walk -/

mutual

/-- **A matched node is overlaid.** -/
theorem overlay_of_matchNode (m : Matcher) : ∀ (p n : Node) {b b' : Binding},
    m.matchNode p n b = some b' →
    ∃ fs, Overlay m.template p n fs ∧ Binding.extend? fs b = some b' ∧ m.Admitted fs
  | .leaf l tr x, n, b, b', h => by
      rw [matchNode] at h
      cases hv : m.template.metavariableAt? (.leaf l tr x) with
      | some v => rw [hv] at h; exact facing_of_bindNode? hv h
      | none =>
          rw [hv] at h
          by_cases hk : (n.kind == l.kind && n.text? == some x) = true
          · simp only [hk, if_true, Option.some.injEq] at h
            rw [Bool.and_eq_true, beq_iff_eq, beq_iff_eq] at hk
            obtain ⟨hk, hx⟩ := hk
            cases n with
            | leaf l' tr' x' =>
                have hx : x' = x := Option.some.inj hx
                subst hx
                exact ⟨[], .leaf hv hk, by simp [Binding.extend?, h], Admitted.nil⟩
            | branch l' cs => exact absurd hx (by simp [Node.text?])
          · simp [hk] at h
  | .branch l ps, n, b, b', h => by
      unfold matchNode at h
      cases hv : m.template.metavariableAt? (.branch l ps) with
      | some v => rw [hv] at h; exact facing_of_bindNode? hv h
      | none =>
          rw [hv] at h
          cases n with
          | leaf l' tr' x' => exact absurd h (by simp)
          | branch l' ns =>
              by_cases hk : (l'.kind == l.kind) = true
              · simp only [hk, if_true] at h
                obtain ⟨fs, hc, hb, ha⟩ := overlay_of_matchList m ps _ ns h
                exact ⟨fs, .branch hv (by simpa using hk) hc, hb, ha⟩
              · simp [hk] at h

/-- **Matched siblings are overlaid.** The lengths that were tried in vain leave no trace: the overlay is
    that of the length which was taken. -/
theorem overlay_of_matchList (m : Matcher) : ∀ (ps : List Node) (stop : Nat) (ns : List Node)
    {b b' : Binding}, m.matchList ps stop ns b = some b' →
    ∃ fs, OverlayAll m.template ps ns fs ∧ Binding.extend? fs b = some b' ∧ m.Admitted fs
  | [], stop, ns, b, b', h => by
      rw [matchList] at h
      cases ns with
      | nil => exact ⟨[], .nil, h, Admitted.nil⟩
      | cons n ns => exact absurd h (by simp)
  | p :: ps, stop, ns, b, b', h => by
      unfold matchList at h
      cases hr : m.runAt? p with
      | some v =>
          rw [hr] at h
          obtain ⟨hv, hs⟩ := runAt?_eq_some hr
          -- whatever other lengths were tried, the answer is that of one length from the same start
          obtain ⟨k, -, hk⟩ := List.exists_of_findSome?_eq_some h
          cases hi : b.insert? v.name (.run (ns.take k) (anchorOf stop ns)) with
          | none => rw [hi] at hk; exact absurd hk (by simp)
          | some b₁ =>
              rw [hi] at hk
              obtain ⟨fs, hc, hb, ha⟩ := overlay_of_matchList m ps stop (ns.drop k) hk
              have ho : OverlayAll m.template (p :: ps) (ns.take k ++ ns.drop k)
                  (⟨v, .run (ns.take k) (anchorOf stop ns)⟩ :: fs) := .run hv hs hc
              -- what the run takes and what is left make up all of the siblings
              rw [List.take_append_drop] at ho
              exact ⟨_, ho, by simp [Binding.extend?, Facing.name, hi, hb], ha.cons_run⟩
      | none =>
          rw [hr] at h
          cases ns with
          | nil => exact absurd h (by simp)
          | cons n ns =>
              cases hn : m.matchNode p n b with
              | none => simp only [hn] at h; exact absurd h (by simp)
              | some b₁ =>
                  simp only [hn] at h
                  obtain ⟨fs, ho, hb, ha⟩ := overlay_of_matchNode m p n hn
                  obtain ⟨gs, hos, hbs, has⟩ := overlay_of_matchList m ps stop ns h
                  exact ⟨fs ++ gs,
                    .node (fun _ hv => single_of_runAt?_eq_none hr hv) ho hos,
                    Binding.extend?_trans hb hbs, ha.append has⟩

end

/-! ## Whole templates -/

/-- A binding that grew from nothing by the facings of an overlay is explained by them. -/
theorem explained_of_extend? {roots : List Node} {fs : List Facing} {b : Binding}
    (hp : fs.map (·.placeholder) = m.template.placeholdersOfAll roots)
    (hb : Binding.extend? fs .empty = some b) (ha : m.Admitted fs) : Explained m roots fs b where
  names name := by
    have hn : fs.map Facing.name = (m.template.placeholdersOfAll roots).map (·.name) := by
      rw [← hp, List.map_map]; rfl
    rw [← hn]
    exact Binding.get?_isSome_iff_of_extend? hb name
  agrees := Binding.agrees_of_extend? hb
  faced name x hx := by
    rcases Binding.faced_of_extend? hb hx with h | ⟨_, h⟩
    · exact absurd h (by simp)
    · exact h
  admitted := ha

/-- A match of a node comes with an overlay of the root. -/
theorem overlay_of_node? {n : Node} {b : Binding} (h : m.node? n = some b) :
    ∃ root fs, m.template.root? = some root ∧ Overlay m.template root n fs ∧
      Explained m [root] fs b := by
  unfold node? at h
  cases hr : m.template.root? with
  | none => rw [hr] at h; exact absurd h (by simp)
  | some root =>
      rw [hr] at h
      obtain ⟨fs, ho, hb, ha⟩ := overlay_of_matchNode m root n h
      refine ⟨root, fs, rfl, ho, explained_of_extend? ?_ hb ha⟩
      rw [ho.placeholders]; simp

/-- A match of siblings comes with an overlay of the roots. -/
theorem overlay_of_siblings? {ns : List Node} {b : Binding} (h : m.siblings? ns = some b) :
    ∃ fs, OverlayAll m.template m.template.roots ns fs ∧ Explained m m.template.roots fs b := by
  obtain ⟨fs, ho, hb, ha⟩ := overlay_of_matchList m m.template.roots _ ns h
  exact ⟨fs, ho, explained_of_extend? ho.placeholders hb ha⟩

/-- **Matches are sound.** A binding returned for a node, or for a list of siblings, comes with an overlay
    of the template's root, or roots, over exactly that node or list, and is explained by what the
    placeholders of that overlay face. -/
theorem match_sound (m : Matcher) (b : Binding) :
    (∀ n, m.node? n = some b → ∃ root fs, m.template.root? = some root ∧
      Overlay m.template root n fs ∧ Explained m [root] fs b) ∧
    (∀ ns, m.siblings? ns = some b → ∃ fs,
      OverlayAll m.template m.template.roots ns fs ∧ Explained m m.template.roots fs b) := by
  constructor
  · intro n h
    exact overlay_of_node? h
  · intro ns h
    exact overlay_of_siblings? h

/-- A call with one name at both ends of its arguments and a run of them in between. -/
theorem match_sound_call : ∃ t n b root fs,
    Template.compile "f($X, $$$R, $X)" [] = .ok t ∧ (Matcher.mk t .empty).node? n = some b ∧
    t.root? = some root ∧ Overlay t root n fs ∧ Explained ⟨t, .empty⟩ [root] fs b := by
  have h : ((Template.compile "f($X, $$$R, $X)" []).toOption.any fun t =>
      (Java.parse? "f(a, b, c, a);").any fun tree => (tree.root.preorder[2]?).any fun n =>
        ((Matcher.mk t .empty).node? n).isSome) = true := by
    decide +kernel
  obtain ⟨t, ht, h⟩ := (Option.any_eq_true _ _).mp h
  obtain ⟨tree, -, h⟩ := (Option.any_eq_true _ _).mp h
  obtain ⟨n, -, h⟩ := (Option.any_eq_true _ _).mp h
  obtain ⟨b, hn⟩ := Option.isSome_iff_exists.mp h
  obtain ⟨root, fs, hr, ho, he⟩ := (match_sound ⟨t, .empty⟩ b).1 n hn
  exact ⟨t, n, b, root, fs, Attempts.toOption_eq_some.mp ht, hn, hr, ho, he⟩

end Matcher

end JavaRefactor

import JavaRefactor.Proofs.Match.Settled

/-!
# `Proofs.Match.Completeness` — where a match exists one is found

If a template can be laid over a candidate so that equal names face equal values and every value is
admitted, the matcher finds a match, provided that no choice made inside a part of the template matters
behind that part. Without this condition it can miss one: a part is matched by itself, the first division
of its siblings that works there is kept, and no other is tried when the values so bound do not fit what
stands behind the part.

## Contents
- **One step.** `Binding.Allows` and `Binding.Knows`, what a binding must be for the search to go on along
  a given overlay, and `Binding.insert?_of_allows`.
- **The walk.** `matchNode_of_overlay` and `matchList_of_overlay`, by recursion on the template.
- **`Matcher.match_complete`**, for whole templates, and a template for which the search is not complete.
-/

namespace JavaRefactor

open Syntax (Node)

namespace Binding

/-! ## One step -/

/-- What is bound already agrees with what is faced. -/
def Allows (b : Binding) (fs : List Facing) : Prop :=
  ∀ f ∈ fs, f.name ≠ Metavariable.wildcard → ∀ y, b.get? f.name = some y → y.same f.value = true

/-- The names are bound, but for the wildcard. -/
def Knows (b : Binding) (names : List String) : Prop :=
  ∀ name ∈ names, name ≠ Metavariable.wildcard → ∃ y, b.get? name = some y

theorem Allows.mono {b : Binding} {fs gs : List Facing} (h : b.Allows gs) (hf : fs ⊆ gs) :
    b.Allows fs := fun f hm => h f (hf hm)

/-- A name can be bound unless it is bound to something else. -/
theorem insert?_of_allows {b : Binding} {f : Facing} (h : b.Allows [f]) :
    ∃ b', b.insert? f.name f.value = some b' := by
  unfold insert?
  by_cases hw : f.name = Metavariable.wildcard
  · exact ⟨b, by simp [hw]⟩
  · rw [if_neg (by simpa using hw)]
    cases hg : b.get? f.name with
    | none => exact ⟨_, rfl⟩
    | some y =>
        have hy : y.same f.value = true := h f (by simp) hw y hg
        exact ⟨b, by simp [hy]⟩

/-- Behind a list of facings the binding still allows what it allowed before, as long as the names that the
    list has added agree with it. -/
theorem Allows.extend? {b b' : Binding} {fs gs : List Facing} (h : b.Allows gs)
    (he : Binding.extend? fs b = some b')
    (ha : ∀ f ∈ fs, f.name ≠ Metavariable.wildcard → Agree f.name fs gs) : b'.Allows gs := by
  intro g hg hw y hy
  rcases faced_of_extend? he hy with hb | ⟨-, f, hf, hn, rfl⟩
  · exact h g hg hw y hb
  · exact ha f hf (hn ▸ hw) f hf g hg rfl hn.symm

/-- What is known stays known, and the names of a list that is bound are known behind it. -/
theorem Knows.extend? {b b' : Binding} {fs : List Facing} {names : List String} (h : b.Knows names)
    (he : Binding.extend? fs b = some b') : b'.Knows (fs.map Facing.name ++ names) := by
  intro name hn hw
  rcases List.mem_append.mp hn with hn | hn
  · obtain ⟨f, hf, rfl⟩ := List.mem_map.mp hn
    obtain ⟨y, hy, -⟩ := agrees_of_extend? he f hf hw
    exact ⟨y, hy⟩
  · obtain ⟨y, hy⟩ := h name hn hw
    exact ⟨y, get?_of_extend?_mono he hy⟩

/-- **Known names leave no choice**: two lists that a binding with these names allows agree on them. -/
theorem agree_of_knows {b b' : Binding} {fs gs : List Facing} {names : List String}
    (hk : b.Knows names) (hf : b.Allows fs) (he : Binding.extend? gs b = some b') :
    AgreeOn names fs gs := by
  intro name hn hw f hfm g hgm hfn hgn
  obtain ⟨y, hy⟩ := hk name hn hw
  have h₁ : y.same f.value = true := hf f hfm (hfn ▸ hw) y (hfn ▸ hy)
  obtain ⟨z, hz, h₂⟩ := agrees_of_extend? he g hgm (hgn ▸ hw)
  rw [hgn, get?_of_extend?_mono he hy] at hz
  obtain rfl := Option.some.inj hz
  exact Bound.same_trans (Bound.same_symm h₁) h₂

end Binding

namespace Matcher

variable {m : Matcher}

/-- The names of the placeholders of a template node are those that are faced. -/
theorem names_of_overlay {p n : Node} {fs : List Facing} (h : Overlay m.template p n fs) :
    fs.map Facing.name = m.template.namesOf p := by
  rw [Template.namesOf, ← h.placeholders, List.map_map]; rfl

theorem names_of_overlayAll {ps ns : List Node} {fs : List Facing}
    (h : OverlayAll m.template ps ns fs) : fs.map Facing.name = m.template.namesOfAll ps := by
  rw [Template.namesOfAll, ← h.placeholders, List.map_map]; rfl

theorem runAt?_of_standsForRun {p : Node} {v : Metavariable}
    (hv : m.template.metavariableAt? p = some v) (hs : v.shape = .run) : m.runAt? p = some v := by
  unfold runAt?
  rw [hv]
  simp [hs]

theorem runAt?_eq_none {p : Node} (h : m.template.standsForRun p = false) : m.runAt? p = none := by
  unfold runAt?
  cases hv : m.template.metavariableAt? p with
  | none => rfl
  | some v =>
      have hs : ¬ v.shape = .run := by
        intro hs
        rw [Template.standsForRun_iff.mpr ⟨v, hv, hs⟩] at h
        exact absurd h (by simp)
      simp [hs]

/-- A placeholder by itself can be bound to a node that its overlay faces. -/
theorem bindNode?_of_overlay {p n : Node} {v : Metavariable} {fs : List Facing} {b : Binding}
    (hv : m.template.metavariableAt? p = some v) (ho : Overlay m.template p n fs)
    (ha : m.Admitted fs) (hb : b.Allows fs) : ∃ b', m.bindNode? v n b = some b' := by
  obtain ⟨x, rfl, hx⟩ := ho.placeholder_inv hv
  unfold bindNode?
  rcases hx with ⟨rfl, hs⟩ | ⟨anchor, rfl, hs⟩
  · obtain ⟨hn, hc⟩ := ha ⟨v, .node n⟩ (by simp) n rfl
    have hna : (n.isNamed && m.admits v n) = true := by
      rw [Bool.and_eq_true, admits_eq]
      exact ⟨hn, hc⟩
    obtain ⟨b', h⟩ := Binding.insert?_of_allows hb
    exact ⟨b', by simpa [hs, hna, Facing.name] using h⟩
  · -- the anchor is no part of what agrees
    have hb' : b.Allows [⟨v, .run [n] n.span.start⟩] := by
      intro f hf hw y hy
      obtain rfl := List.mem_singleton.mp hf
      exact Bound.same_trans (hb ⟨v, .run [n] anchor⟩ (by simp) hw y hy) (Node.sameAll_refl [n])
    obtain ⟨b', h⟩ := Binding.insert?_of_allows hb'
    exact ⟨b', by simpa [hs, Facing.name] using h⟩

/-- A placeholder for a run can be bound to the siblings that its overlay faces, wherever they are anchored. -/
theorem bindRun_of_overlay {p : Node} {v : Metavariable} {xs : List Node} {anchor : Nat}
    {gs : List Facing} {b : Binding} {known : List String} (anchor' : Nat)
    (hv : m.template.metavariableAt? p = some v) (hc : Consistent (⟨v, .run xs anchor⟩ :: gs))
    (hb : b.Allows (⟨v, .run xs anchor⟩ :: gs)) (hk : b.Knows known) :
    ∃ b', b.insert? v.name (.run xs anchor') = some b' ∧ b'.Allows gs ∧
      b'.Knows (m.template.namesOf p ++ known) := by
  let f : Facing := ⟨v, .run xs anchor⟩
  let f' : Facing := ⟨v, .run xs anchor'⟩
  have hsame : f.value.same f'.value = true := Node.sameAll_refl xs
  have hbf : b.Allows [f'] := by
    intro g hg hw y hy
    obtain rfl := List.mem_singleton.mp hg
    exact Bound.same_trans (hb f (by simp [f]) hw y hy) hsame
  obtain ⟨b', hb'⟩ := Binding.insert?_of_allows hbf
  have he : Binding.extend? [f'] b = some b' := by simp [Binding.extend?, hb']
  refine ⟨b', hb', Binding.Allows.extend? (hb.mono (List.subset_cons_self _ gs)) he ?_, ?_⟩
  · intro g hg hw g₁ hg₁ g₂ hg₂ hn₁ hn₂
    obtain rfl := List.mem_singleton.mp hg
    obtain rfl := List.mem_singleton.mp hg₁
    have h : f.value.same g₂.value = true := hc v.name hw f (by simp [f]) g₂ (by simp [hg₂]) rfl hn₂
    exact Bound.same_trans (Bound.same_symm hsame) h
  · have hnames : m.template.namesOf p = [v.name] := by
      rw [Template.namesOf, Template.placeholdersOf_of_some hv]; rfl
    exact hnames ▸ hk.extend? he

/-! ## The walk -/

/-- Behind a part that was matched in whatever way, the binding still allows the overlay of what stands
    behind the part, if no choice in the part matters there. -/
theorem allows_behind {p n : Node} {ps ns : List Node} {fs gs : List Facing} {b b' : Binding}
    {known : List String} (ho : Overlay m.template p n fs) (hos : OverlayAll m.template ps ns gs)
    (hc : Consistent (fs ++ gs)) (hb : b.Allows (fs ++ gs)) (hk : b.Knows known)
    (hs : ((m.template.namesOf p).all fun name => name == Metavariable.wildcard ||
      known.contains name || (m.template.fixedIn known p).contains name ||
        !(m.template.namesOfAll ps).contains name) = true)
    (h : m.matchNode p n b = some b') :
    b'.Allows gs ∧ b'.Knows (m.template.namesOf p ++ known) := by
  obtain ⟨fs', ho', he, -⟩ := overlay_of_matchNode m p n h
  have hcf : Consistent fs := hc.mono (List.subset_append_left fs gs)
  have hknown := Binding.agree_of_knows hk hb he
  refine ⟨Binding.Allows.extend? (hb.mono (List.subset_append_right fs gs)) he ?_, ?_⟩
  · -- a name that the part has bound and that is faced behind the part is known or fixed
    intro f' hf' hw f'' hf'' g hg hn'' hgn
    have hcf' := consistent_of_extend? he
    have hin : f'.name ∈ m.template.namesOf p :=
      names_of_overlay ho' ▸ List.mem_map_of_mem hf'
    have hbehind : f'.name ∈ m.template.namesOfAll ps :=
      names_of_overlayAll hos ▸ hgn ▸ List.mem_map_of_mem hg
    have hor := List.all_eq_true.mp hs _ hin
    simp only [Bool.or_eq_true, beq_iff_eq, List.contains_iff_mem, Bool.not_eq_true',
      hw, false_or] at hor
    rcases hor with (hkn | hfix) | hno
    · exact Bound.same_symm (hknown _ hkn hw g (by simp [hg]) f'' hf'' hgn hn'')
    · have hag := agree_of_fixedIn p ho ho' (List.Subset.refl fs) (List.Subset.refl fs') hcf hcf'
        (fun name hn hw => (hknown name hn hw).mono (List.subset_append_left fs gs)
          (List.Subset.refl fs')) _ hfix hw
      -- the part faces the name in the given overlay too, with a value that agrees on both sides
      have hmem : f'.name ∈ fs.map Facing.name := names_of_overlay ho ▸ hin
      obtain ⟨f, hf, hfn⟩ := List.mem_map.mp hmem
      have h₁ : f.value.same f''.value = true := hag f hf f'' hf'' hfn hn''
      have h₂ : f.value.same g.value = true :=
        hc f'.name hw f (by simp [hf]) g (by simp [hg]) hfn hgn
      exact Bound.same_trans (Bound.same_symm h₁) h₂
    · exact absurd hbehind (by simpa using hno)
  · exact names_of_overlay ho' ▸ hk.extend? he

mutual

/-- **An overlaid node is matched**, from any binding that allows the overlay. -/
theorem matchNode_of_overlay (m : Matcher) : ∀ (p n : Node) {fs : List Facing} {b : Binding}
    {known : List String}, Overlay m.template p n fs → Consistent fs → m.Admitted fs →
    b.Allows fs → b.Knows known → m.template.settledIn known p = true →
    ∃ b', m.matchNode p n b = some b'
  | .leaf l tr x, n, fs, b, known, ho, hc, ha, hb, hk, hs => by
      rw [matchNode]
      cases hv : m.template.metavariableAt? (.leaf l tr x) with
      | some v => exact bindNode?_of_overlay hv ho ha hb
      | none =>
          cases ho with
          | single hw => rw [hv] at hw; exact absurd hw (by simp)
          | alone hw => rw [hv] at hw; exact absurd hw (by simp)
          | leaf _ hkind => exact ⟨b, by simp [Node.kind, Node.label, Node.text?, hkind]⟩
  | .branch l ps, n, fs, b, known, ho, hc, ha, hb, hk, hs => by
      unfold matchNode
      cases hv : m.template.metavariableAt? (.branch l ps) with
      | some v => exact bindNode?_of_overlay hv ho ha hb
      | none =>
          obtain ⟨l', ns, rfl, hkind, hos⟩ := ho.branch_inv hv
          rw [Template.settledIn, hv, Option.isSome_none, Bool.false_or] at hs
          simp only [hkind, beq_self_eq_true, if_true]
          exact matchList_of_overlay m ps _ ns hos hc ha hb hk hs

/-- **Overlaid siblings are matched.** Along the given overlay a length for every run is known to work, so
    the search ends with that one or an earlier one. -/
theorem matchList_of_overlay (m : Matcher) : ∀ (ps : List Node) (stop : Nat) (ns : List Node)
    {fs : List Facing} {b : Binding} {known : List String}, OverlayAll m.template ps ns fs →
    Consistent fs → m.Admitted fs → b.Allows fs → b.Knows known →
    m.template.settledInAll known ps = true → ∃ b', m.matchList ps stop ns b = some b'
  | [], stop, ns, fs, b, known, ho, hc, ha, hb, hk, hs => by
      cases ho with
      | nil => exact ⟨b, by simp [matchList]⟩
  | p :: ps, stop, ns, fs, b, known, ho, hc, ha, hb, hk, hs => by
      rw [Template.settledInAll, Bool.and_eq_true, Bool.and_eq_true] at hs
      obtain ⟨⟨hsp, hsn⟩, hsr⟩ := hs
      unfold matchList
      by_cases hr : m.template.standsForRun p = true
      · obtain ⟨v, hv, hs⟩ := Template.standsForRun_iff.mp hr
        obtain ⟨xs, rest, anchor, gs, rfl, rfl, hos⟩ := ho.run_inv hv hs
        rw [runAt?_of_standsForRun hv hs]
        obtain ⟨b', hb', hallows, hknows⟩ :=
          bindRun_of_overlay (anchorOf stop (xs ++ rest)) hv hc hb hk
        obtain ⟨b'', hb''⟩ := matchList_of_overlay m ps stop rest hos
          (hc.mono (List.subset_cons_self _ gs)) (fun g hg => ha g (by simp [hg])) hallows hknows hsr
        -- the length of this overlay is one of those tried
        refine Option.isSome_iff_exists.mp (List.findSome?_isSome_iff.mpr ⟨xs.length, ?_, ?_⟩)
        · rw [List.mem_range, List.length_append]; omega
        · rw [List.take_left, List.drop_left, hb']
          exact Option.isSome_iff_exists.mpr ⟨b'', hb''⟩
      · have hr : m.template.standsForRun p = false := by simpa using hr
        obtain ⟨n, rest, fs, gs, rfl, rfl, hon, hos⟩ := ho.node_inv hr
        rw [runAt?_eq_none hr]
        have hl : fs ⊆ fs ++ gs := List.subset_append_left fs gs
        obtain ⟨b', hb'⟩ := matchNode_of_overlay m p n hon (hc.mono hl)
          (fun f hf => ha f (hl hf)) (hb.mono hl) hk hsp
        obtain ⟨hallows, hknows⟩ := allows_behind hon hos hc hb hk hsn hb'
        obtain ⟨b'', hb''⟩ := matchList_of_overlay m ps stop rest hos
          (hc.mono (List.subset_append_right fs gs)) (fun g hg => ha g (by simp [hg])) hallows hknows hsr
        exact ⟨b'', by simp only [hb']; exact hb''⟩

end

/-! ## Whole templates -/

theorem knows_nil (b : Binding) : b.Knows [] := fun _ h => absurd h (by simp)

theorem allows_empty (fs : List Facing) : Binding.empty.Allows fs := by
  intro f _ _ y hy
  exact absurd hy (by simp)

/-- The root of a template leaves no choice that matters if the template does not. -/
theorem settledIn_root {t : Template} {root : Node} (hr : t.root? = some root)
    (hs : t.settledInAll [] t.roots = true) : t.settledIn [] root = true := by
  unfold Template.root? at hr
  split at hr
  · exact absurd hr (by simp)
  · cases hroots : t.roots with
    | nil => rw [hroots] at hr; exact absurd hr (by simp)
    | cons p ps =>
        rw [hroots] at hr hs
        obtain rfl : p = root := Option.some.inj hr
        rw [Template.settledInAll, Bool.and_eq_true, Bool.and_eq_true] at hs
        exact hs.1.1

/-- **Matches are found exactly where they exist**, for a settled template: a binding is returned for a node, or
    for a list of siblings, if and only if the template can be laid over it so that equal names face equal
    values and the nodes that are faced by themselves are constructs of admitted types. -/
theorem match_complete (m : Matcher) (hs : m.template.settled = true) :
    (∀ n, (∃ b, m.node? n = some b) ↔ ∃ root fs, m.template.root? = some root ∧
      Overlay m.template root n fs ∧ Consistent fs ∧ m.Admitted fs) ∧
    (∀ ns, m.template.isRun = true → ((∃ b, m.run? ns = some b) ↔ ∃ fs,
      OverlayAll m.template m.template.roots ns fs ∧ Consistent fs ∧ m.Admitted fs)) := by
  unfold Template.settled at hs
  constructor
  · intro n
    unfold node?
    constructor
    · rintro ⟨b, h⟩
      cases hr : m.template.root? with
      | none => rw [hr] at h; exact absurd h (by simp)
      | some root =>
          rw [hr] at h
          obtain ⟨fs, ho, he, ha⟩ := overlay_of_matchNode m root n h
          exact ⟨root, fs, rfl, ho, consistent_of_extend? he, ha⟩
    · rintro ⟨root, fs, hr, ho, hc, ha⟩
      rw [hr]
      exact matchNode_of_overlay m root n ho hc ha (allows_empty fs) (knows_nil _)
        (settledIn_root hr hs)
  · intro ns hrun
    unfold run?
    rw [if_pos hrun]
    constructor
    · rintro ⟨b, h⟩
      obtain ⟨fs, ho, he, ha⟩ := overlay_of_matchList m m.template.roots _ ns h
      exact ⟨fs, ho, consistent_of_extend? he, ha⟩
    · rintro ⟨fs, ho, hc, ha⟩
      exact matchList_of_overlay m m.template.roots _ ns ho hc ha (allows_empty fs) (knows_nil _) hs

/-- Two parts that share a run, which stands in front of both. -/
theorem match_complete_shared_run : ∃ t,
    Template.compile "f($$$A, g($$$A, $$$B), h($$$A))" [] = .ok t ∧ t.settled = true ∧
    ∀ n, (∃ b, (Matcher.mk t .empty).node? n = some b) ↔ ∃ root fs, t.root? = some root ∧
      Overlay t root n fs ∧ Consistent fs ∧ (Matcher.mk t .empty).Admitted fs := by
  have h : ((Template.compile "f($$$A, g($$$A, $$$B), h($$$A))" []).toOption.any
      fun t => t.settled) = true := by
    decide +kernel
  obtain ⟨t, ht, hs⟩ := (Option.any_eq_true _ _).mp h
  exact ⟨t, Attempts.toOption_eq_some.mp ht, hs, (match_complete ⟨t, .empty⟩ hs).1⟩

/-- **A match that is missed.** In `g(x, y, z)` the run `$$$A` is taken to be `x`, which does not fit the `x, y`
    behind the call, and the division that takes `x, y` is not tried. -/
theorem match_incomplete : ∃ t root n fs,
    Template.compile "f(g($$$A, $$$B), $$$A)" [] = .ok t ∧ t.root? = some root ∧
    (∃ tree, Java.parse? "f(g(x, y, z), x, y);" = some tree ∧ n ∈ tree.root.preorder) ∧
    Overlay t root n fs ∧ Consistent fs ∧ (Matcher.mk t .empty).Admitted fs ∧
    (Matcher.mk t .empty).node? n = none := by
  -- the matcher itself finds the overlay as soon as the right value of `$$$A` is bound beforehand
  have h : ((Template.compile "f(g($$$A, $$$B), $$$A)" []).toOption.any fun t =>
      t.root?.any fun root => (Java.parse? "f(g(x, y, z), x, y);").any fun tree =>
        tree.root.preorder.any fun n => tree.root.preorder.any fun k =>
          ((Matcher.mk t .empty).matchNode root n
            ⟨[("A", .run ((k.children.drop 1).take 3) 0)]⟩).isSome &&
            ((Matcher.mk t .empty).node? n).isNone) = true := by
    decide +kernel
  obtain ⟨t, ht, h⟩ := (Option.any_eq_true _ _).mp h
  obtain ⟨root, hr, h⟩ := (Option.any_eq_true _ _).mp h
  obtain ⟨tree, htree, h⟩ := (Option.any_eq_true _ _).mp h
  obtain ⟨n, hn, h⟩ := List.any_eq_true.mp h
  obtain ⟨k, -, h⟩ := List.any_eq_true.mp h
  obtain ⟨hsome, hnone⟩ := (Bool.and_eq_true _ _).mp h
  obtain ⟨b, hb⟩ := Option.isSome_iff_exists.mp hsome
  obtain ⟨fs, ho, he, ha⟩ := overlay_of_matchNode ⟨t, .empty⟩ root n hb
  exact ⟨t, root, n, fs, Attempts.toOption_eq_some.mp ht, hr, ⟨tree, htree, hn⟩, ho,
    consistent_of_extend? he, ha, Option.isNone_iff_eq_none.mp hnone⟩

end Matcher

end JavaRefactor

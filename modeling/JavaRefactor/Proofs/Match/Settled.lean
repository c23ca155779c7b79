import JavaRefactor.Proofs.Match.Soundness

/-!
# `Proofs.Match.Settled` — names to which a template leaves no choice

Where two placeholders for runs stand in one list, the siblings can be divided among them in several ways.
The search for a match goes on with the first division that works inside the list, and does not come back
to it for the sake of what stands behind the list. So what matters is which names can face different
values there. A list with one placeholder for a run leaves no choice, and neither does a further one whose
name is known already.

## Contents
- **`Consistent`**, equal values for equal names, and **`Agree`**, **`AgreeOn`**, the same between two lists
  of facings.
- **`Template.fixedIn`**, the names to which a template node leaves no choice, and **`Template.settled`**:
  a name that stands in a part of the template and again behind that part is known in front of the part or
  fixed in it.
- **`agree_of_fixedIn`**: two overlays of one node agree on the names that are fixed.
-/

namespace JavaRefactor

open Syntax (Node Label)

/-! ## Equal values for equal names -/

/-- Every value that the name faces in the one list agrees with every value it faces in the other. -/
def Agree (name : String) (fs gs : List Facing) : Prop :=
  ∀ f ∈ fs, ∀ g ∈ gs, f.name = name → g.name = name → f.value.same g.value = true

/-- One name faces equal values, but for the wildcard. -/
def Consistent (fs : List Facing) : Prop :=
  ∀ name, name ≠ Metavariable.wildcard → Agree name fs fs

theorem Agree.mono {name : String} {fs fs' gs gs' : List Facing} (h : Agree name fs' gs')
    (hf : fs ⊆ fs') (hg : gs ⊆ gs') : Agree name fs gs :=
  fun f h₁ g h₂ => h f (hf h₁) g (hg h₂)

theorem Consistent.mono {fs gs : List Facing} (h : Consistent gs) (hf : fs ⊆ gs) : Consistent fs :=
  fun name hw => (h name hw).mono hf hf

/-- Two lists agree on each of the names, but for the wildcard. -/
def AgreeOn (names : List String) (fs gs : List Facing) : Prop :=
  ∀ name ∈ names, name ≠ Metavariable.wildcard → Agree name fs gs

theorem AgreeOn.append {names names' : List String} {fs gs : List Facing} (h : AgreeOn names fs gs)
    (h' : AgreeOn names' fs gs) : AgreeOn (names ++ names') fs gs :=
  fun name hn => (List.mem_append.mp hn).elim (h name) (h' name)

/-- Two consistent lists agree on a name as soon as one value of the one agrees with one of the other. -/
theorem agreeOn_of_pair {fs gs : List Facing} (hf : Consistent fs) (hg : Consistent gs)
    {v : Metavariable} {x y : Bound} (hx : ⟨v, x⟩ ∈ fs) (hy : ⟨v, y⟩ ∈ gs) (hs : x.same y = true) :
    AgreeOn [v.name] fs gs := by
  intro name hn hw f hfm g hgm hfn hgn
  obtain rfl := List.mem_singleton.mp hn
  have h₁ : f.value.same x = true := hf v.name hw f hfm ⟨v, x⟩ hx hfn rfl
  have h₂ : y.same g.value = true := hg v.name hw ⟨v, y⟩ hy g hgm rfl hgn
  exact Bound.same_trans h₁ (Bound.same_trans hs h₂)

/-- What is bound one after the other is consistent. -/
theorem consistent_of_extend? {fs : List Facing} {b b' : Binding}
    (h : Binding.extend? fs b = some b') : Consistent fs := by
  intro name hw f hf g hg hfn hgn
  obtain ⟨y, hy, hyf⟩ := Binding.agrees_of_extend? h f hf (hfn ▸ hw)
  obtain ⟨z, hz, hzg⟩ := Binding.agrees_of_extend? h g hg (hgn ▸ hw)
  rw [hfn] at hy
  rw [hgn, hy] at hz
  have hyz : y = z := Option.some.inj hz
  subst hyz
  exact Bound.same_trans (Bound.same_symm hyf) hzg

namespace Template

variable (t : Template)

/-! ## Names without a choice -/

/-- The names of the placeholders of a template node. -/
def namesOf (p : Node) : List String := (t.placeholdersOf p).map (·.name)

/-- The names of the placeholders of template siblings. -/
def namesOfAll (ps : List Node) : List String := (t.placeholdersOfAll ps).map (·.name)

/-- Whether a template node stands for a run of siblings. -/
def standsForRun (p : Node) : Bool := (t.metavariableAt? p).any (·.shape == .run)

/-- Whether it is certain how many siblings a template node takes: one, or all that those behind it leave,
    or as many as its name is known to face. -/
def takesCertain (known : List String) (p : Node) (behind : List Node) : Bool :=
  !t.standsForRun p || !behind.any t.standsForRun ||
    (t.namesOf p).all fun name => name != Metavariable.wildcard && known.contains name

mutual

/-- The names to which a template node leaves no choice, where the values of some names are known. -/
def fixedIn (known : List String) : Node → List String
  | .leaf l tr x => t.namesOf (.leaf l tr x)
  | .branch l cs =>
    match t.metavariableAt? (.branch l cs) with
    | some v => [v.name]
    | none => fixedInAll known cs

/-- The names to which template siblings leave no choice. Behind a node that may take more or fewer siblings
    nothing is certain. -/
def fixedInAll (known : List String) : List Node → List String
  | [] => []
  | p :: ps =>
    if t.takesCertain known p ps then
      fixedIn known p ++ fixedInAll (fixedIn known p ++ known) ps
    else []

end

mutual

/-- Whether a template node leaves no choice that matters behind a part of it. -/
def settledIn (known : List String) : Node → Bool
  | .leaf .. => true
  | .branch l cs => (t.metavariableAt? (.branch l cs)).isSome || settledInAll known cs

/-- Whether template siblings leave no choice that matters behind one of them: a name that stands in a
    sibling and again behind it is known in front of the sibling or fixed in it. -/
def settledInAll (known : List String) : List Node → Bool
  | [] => true
  | p :: ps =>
    settledIn known p &&
      ((t.namesOf p).all fun name => name == Metavariable.wildcard || known.contains name ||
        (t.fixedIn known p).contains name || !(t.namesOfAll ps).contains name) &&
      settledInAll (t.namesOf p ++ known) ps

end

/-- Whether no choice made inside a part of the template matters behind that part. -/
def settled : Bool := t.settledInAll [] t.roots

variable {t}

theorem fixedIn_of_some {p : Node} {v : Metavariable} (h : t.metavariableAt? p = some v)
    (known : List String) : t.fixedIn known p = [v.name] := by
  cases p with
  | leaf l tr x => rw [fixedIn, namesOf, placeholdersOf_of_some h]; rfl
  | branch l cs => rw [fixedIn, h]

theorem standsForRun_iff {p : Node} :
    t.standsForRun p = true ↔ ∃ v, t.metavariableAt? p = some v ∧ v.shape = .run := by
  unfold standsForRun
  rw [Option.any_eq_true]
  constructor
  · rintro ⟨v, hv, hs⟩
    exact ⟨v, hv, eq_of_beq hs⟩
  · rintro ⟨v, hv, hs⟩
    exact ⟨v, hv, by rw [hs]; rfl⟩

/-- What `takesCertain` says of a placeholder for a run. -/
theorem takesCertain_run {known : List String} {p : Node} {ps : List Node} {v : Metavariable}
    (hv : t.metavariableAt? p = some v) (hs : v.shape = .run)
    (h : t.takesCertain known p ps = true) :
    (∀ q ∈ ps, t.standsForRun q = false) ∨ (v.name ≠ Metavariable.wildcard ∧ v.name ∈ known) := by
  have hr : t.standsForRun p = true := standsForRun_iff.mpr ⟨v, hv, hs⟩
  have hn : t.namesOf p = [v.name] := by rw [namesOf, placeholdersOf_of_some hv]; rfl
  unfold takesCertain at h
  rw [hr, hn] at h
  by_cases hp : ps.any t.standsForRun = true
  · rw [hp] at h
    exact Or.inr (by simpa using h)
  · exact Or.inl (by simpa using hp)

end Template

/-! ## Overlays told from the template node -/

variable {t : Template}

/-- Over a node a placeholder faces that node, whatever the overlay. -/
theorem Overlay.placeholder_inv {p n : Node} {fs : List Facing} {v : Metavariable}
    (hv : t.metavariableAt? p = some v) (h : Overlay t p n fs) :
    ∃ x, fs = [⟨v, x⟩] ∧ (x = .node n ∧ v.shape = .single ∨
      ∃ anchor, x = .run [n] anchor ∧ v.shape = .run) := by
  cases h with
  | single hw hs =>
      obtain rfl := Option.some.inj (hv.symm.trans hw)
      exact ⟨_, rfl, Or.inl ⟨rfl, hs⟩⟩
  | alone hw hs =>
      obtain rfl := Option.some.inj (hv.symm.trans hw)
      exact ⟨_, rfl, Or.inr ⟨_, rfl, hs⟩⟩
  | leaf hw => rw [hv] at hw; exact absurd hw (by simp)
  | branch hw => rw [hv] at hw; exact absurd hw (by simp)

/-- A branch that stands for no metavariable lies over a branch. -/
theorem Overlay.branch_inv {l : Label} {ps : List Node} {n : Node} {fs : List Facing}
    (hv : t.metavariableAt? (.branch l ps) = none) (h : Overlay t (.branch l ps) n fs) :
    ∃ l' ns, n = .branch l' ns ∧ l'.kind = l.kind ∧ OverlayAll t ps ns fs := by
  cases h with
  | single hw => rw [hv] at hw; exact absurd hw (by simp)
  | alone hw => rw [hv] at hw; exact absurd hw (by simp)
  | branch _ hk hc => exact ⟨_, _, rfl, hk, hc⟩

/-- A placeholder for a run takes the front of the siblings. -/
theorem OverlayAll.run_inv {p : Node} {ps ns : List Node} {fs : List Facing} {v : Metavariable}
    (hv : t.metavariableAt? p = some v) (hs : v.shape = .run) (h : OverlayAll t (p :: ps) ns fs) :
    ∃ xs rest anchor gs, ns = xs ++ rest ∧ fs = ⟨v, .run xs anchor⟩ :: gs ∧
      OverlayAll t ps rest gs := by
  cases h with
  | run hw _ hr =>
      obtain rfl := Option.some.inj (hv.symm.trans hw)
      exact ⟨_, _, _, _, rfl, rfl, hr⟩
  | node hp => exact absurd (hp v hv) (by rw [hs]; simp)

/-- Any other template node takes the first of the siblings. -/
theorem OverlayAll.node_inv {p : Node} {ps ns : List Node} {fs : List Facing}
    (hp : t.standsForRun p = false) (h : OverlayAll t (p :: ps) ns fs) :
    ∃ n rest gs hs, ns = n :: rest ∧ fs = gs ++ hs ∧ Overlay t p n gs ∧
      OverlayAll t ps rest hs := by
  cases h with
  | run hv hs =>
      have hr : t.standsForRun p = true := Template.standsForRun_iff.mpr ⟨_, hv, hs⟩
      rw [hp] at hr
      exact absurd hr (by simp)
  | node _ hn hr => exact ⟨_, _, _, _, rfl, rfl, hn, hr⟩

/-- Without placeholders for runs there are as many siblings on both sides. -/
theorem OverlayAll.length_eq : ∀ {ps ns : List Node} {fs : List Facing}, OverlayAll t ps ns fs →
    (∀ p ∈ ps, t.standsForRun p = false) → ns.length = ps.length
  | [], _, _, .nil, _ => rfl
  | p :: ps, ns, fs, h, hp => by
      obtain ⟨n, rest, gs, hs, rfl, -, -, hr⟩ := h.node_inv (hp p (by simp))
      have hl := hr.length_eq fun q hq => hp q (by simp [hq])
      simp [hl]

/-! ## Two overlays of one node -/

/-- **One division**: two placeholders for a run in front of the same template siblings take the same nodes,
    if it is certain how many. -/
theorem OverlayAll.run_unique {p : Node} {ps xs ys rest rest' : List Node} {fs gs : List Facing}
    {v : Metavariable} {known : List String} (hv : t.metavariableAt? p = some v) (hs : v.shape = .run)
    (hc : t.takesCertain known p ps = true) (hf : OverlayAll t ps rest fs)
    (hg : OverlayAll t ps rest' gs) (h : xs ++ rest = ys ++ rest')
    (hk : v.name ≠ Metavariable.wildcard → v.name ∈ known → xs.length = ys.length) :
    xs = ys ∧ rest = rest' := by
  refine List.append_inj h ?_
  rcases Template.takesCertain_run hv hs hc with hnone | ⟨hvw, hvk⟩
  · have hrest := hf.length_eq hnone
    have hrest' := hg.length_eq hnone
    have hall := congrArg List.length h
    rw [List.length_append, List.length_append] at hall
    omega
  · exact hk hvw hvk

mutual

/-- **Fixed names face equal values.** Two overlays of a template node over one node, each part of a
    consistent list, agree on the names that are fixed if they agree on those that are known. -/
theorem agree_of_fixedIn : ∀ (p : Node) {n : Node} {known : List String} {fs gs fs' gs' : List Facing},
    Overlay t p n fs → Overlay t p n gs → fs ⊆ fs' → gs ⊆ gs' → Consistent fs' → Consistent gs' →
    AgreeOn known fs' gs' → AgreeOn (t.fixedIn known p) fs' gs'
  | p, n, known, fs, gs, fs', gs', hf, hg, hfs, hgs, hcf, hcg, hk => by
      cases hv : t.metavariableAt? p with
      | some v =>
          rw [Template.fixedIn_of_some hv]
          obtain ⟨x, rfl, hx⟩ := hf.placeholder_inv hv
          obtain ⟨y, rfl, hy⟩ := hg.placeholder_inv hv
          -- the two values differ in their anchors at most
          have hxy : x.same y = true := by
            rcases hx with ⟨rfl, h₁⟩ | ⟨a, rfl, h₁⟩
            · rcases hy with ⟨rfl, -⟩ | ⟨c, -, h₂⟩
              · exact Bound.same_refl _
              · rw [h₁] at h₂; exact absurd h₂ (by simp)
            · rcases hy with ⟨-, h₂⟩ | ⟨c, rfl, -⟩
              · rw [h₁] at h₂; exact absurd h₂ (by simp)
              · exact Node.sameAll_refl [n]
          exact agreeOn_of_pair hcf hcg (hfs (by simp)) (hgs (by simp)) hxy
      | none =>
          cases p with
          | leaf l tr x =>
              rw [Template.fixedIn, Template.namesOf, Template.placeholdersOf_leaf hv]
              exact fun name hn => absurd hn (by simp)
          | branch l ps =>
              rw [Template.fixedIn, hv]
              obtain ⟨l₁, ns, rfl, -, hfc⟩ := hf.branch_inv hv
              obtain ⟨l₂, ms, hm, -, hgc⟩ := hg.branch_inv hv
              obtain ⟨-, rfl⟩ := Node.branch.inj hm
              exact agree_of_fixedInAll ps hfc hgc hfs hgs hcf hcg hk

/-- Two overlays of template siblings agree on the names that are fixed. -/
theorem agree_of_fixedInAll : ∀ (ps : List Node) {ns : List Node} {known : List String}
    {fs gs fs' gs' : List Facing},
    OverlayAll t ps ns fs → OverlayAll t ps ns gs → fs ⊆ fs' → gs ⊆ gs' → Consistent fs' →
    Consistent gs' → AgreeOn known fs' gs' → AgreeOn (t.fixedInAll known ps) fs' gs'
  | [], _, _, _, _, _, _, _, _, _, _, _, _, _ => fun name hn => absurd hn (by simp [Template.fixedInAll])
  | p :: ps, ns, known, fs, gs, fs', gs', hf, hg, hfs, hgs, hcf, hcg, hk => by
      rw [Template.fixedInAll]
      by_cases hc : t.takesCertain known p ps = true
      · rw [if_pos hc]
        -- what is fixed in the first node is known behind it
        by_cases hr : t.standsForRun p = true
        · obtain ⟨v, hv, hs⟩ := Template.standsForRun_iff.mp hr
          obtain ⟨xs, rest, a, fs₁, rfl, rfl, hfr⟩ := hf.run_inv hv hs
          obtain ⟨ys, rest', a', gs₁, hns, rfl, hgr⟩ := hg.run_inv hv hs
          have hf₁ : ⟨v, .run xs a⟩ ∈ fs' := hfs (by simp)
          have hg₁ : ⟨v, .run ys a'⟩ ∈ gs' := hgs (by simp)
          obtain ⟨rfl, rfl⟩ := OverlayAll.run_unique hv hs hc hfr hgr hns fun hw hkn =>
            Bound.length_eq_of_same (hk v.name hkn hw _ hf₁ _ hg₁ rfl rfl)
          have hp : AgreeOn (t.fixedIn known p) fs' gs' := by
            rw [Template.fixedIn_of_some hv]
            exact agreeOn_of_pair hcf hcg hf₁ hg₁ (Node.sameAll_refl xs)
          exact hp.append (agree_of_fixedInAll ps hfr hgr (fun f h => hfs (by simp [h]))
            (fun g h => hgs (by simp [h])) hcf hcg (hp.append hk))
        · obtain ⟨n, rest, fs₁, fs₂, rfl, rfl, hfn, hfr⟩ := hf.node_inv (by simpa using hr)
          obtain ⟨m, rest', gs₁, gs₂, hm, rfl, hgn, hgr⟩ := hg.node_inv (by simpa using hr)
          obtain ⟨rfl, rfl⟩ := List.cons.inj hm
          have hp := agree_of_fixedIn p hfn hgn (fun f h => hfs (by simp [h]))
            (fun g h => hgs (by simp [h])) hcf hcg hk
          exact hp.append (agree_of_fixedInAll ps hfr hgr (fun f h => hfs (by simp [h]))
            (fun g h => hgs (by simp [h])) hcf hcg (hp.append hk))
      · rw [if_neg hc]
        exact fun name hn => absurd hn (by simp)

end

end JavaRefactor

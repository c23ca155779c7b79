import JavaRefactor.Proofs.Java.StatementLists
import JavaRefactor.Proofs.Match.Sites
import JavaRefactor.Proofs.Match.Soundness
import JavaRefactor.Proofs.Template.Compile
import JavaRefactor.Proofs.Template.Place

/-!
# `Proofs.Match.Statements` — where templates of several statements are found

A template of several statements is tried at all neighbouring children of all nodes of a tree, whatever they
are, and a placeholder for a statement takes any construct. So `$A; return $X;` is found in
`if (c) return x;` as well, with the condition for `$A`. A template is found among statements only if its
text says so: if two of its statements that stand side by side do so nowhere else.

## Contents
- **`Template.pins`** and **`Template.anchored`**, read off the roots of a template.
- **`Overlay.holds_eq`**, **`OverlayAll.exists_pair`**: what a root, and two neighbouring roots, lie over.
- **`Matcher.StandsAmongStatements`** and **`Matcher.BindsStatements`**, what is expected of a site, with
  `isStatementList_of_anchored` and `bindsStatements_of_list`: an anchor sees to it.
- **`Matcher.sites_outside_lists`**: without an anchor it need not be so.
-/

namespace JavaRefactor

open Syntax (Node Tree spanOf)
open Java (Trait isStatement isStatementList isLabel closingKinds openingKinds noCondition)

/-! ## Anchors -/

namespace Template

variable (t : Template)

/-- Whether a node of the template stands for one node. -/
def isSingle (p : Node) : Bool := (t.metavariableAt? p).all (·.shape == .single)

/-- Whether a node of the template stands for itself. -/
def isWritten (p : Node) : Bool := (t.metavariableAt? p).isNone

/-- Whether what two neighbouring roots are found at can be neighbours in a list of statements only. -/
def pins (p q : Node) : Bool :=
  t.isWritten p && t.isSingle q &&
    ((Trait.among closingKinds).holds p ||
      (noCondition.holds p && t.isWritten q && (Trait.among openingKinds).holds q))

/-- Whether a template has two such roots. -/
def anchored : Bool := (t.roots.zip t.roots.tail).any fun (p, q) => t.pins p q

variable {t}

theorem isSingle_of_isWritten {p : Node} (h : t.isWritten p = true) : t.isSingle p = true := by
  unfold isWritten at h
  unfold isSingle
  rw [Option.isNone_iff_eq_none.mp h]
  rfl

theorem isSingle_iff {p : Node} :
    t.isSingle p = true ↔ ∀ v, t.metavariableAt? p = some v → v.shape = .single := by
  unfold isSingle
  cases t.metavariableAt? p <;> simp

theorem isSingle_of_single {p : Node} {v : Metavariable} (hv : t.metavariableAt? p = some v)
    (hs : v.shape = .single) : t.isSingle p = true := by
  refine isSingle_iff.mpr ?_
  intro w hw
  rw [Option.some.inj (hw.symm.trans hv), hs]

/-- A pair of a list with its tail are neighbours in the list. -/
theorem infix_of_mem_zip_tail {ns : List Node} {p q : Node} (h : (p, q) ∈ ns.zip ns.tail) :
    [p, q] <:+: ns := by
  induction ns with
  | nil => exact absurd h (by simp)
  | cons n ns ih =>
      cases ns with
      | nil => exact absurd h (by simp)
      | cons m ms =>
          rcases List.mem_cons.mp h with he | h
          · obtain ⟨rfl, rfl⟩ := Prod.mk.inj he
            exact ⟨[], ms, rfl⟩
          · exact (ih h).trans (List.suffix_cons n _).isInfix

theorem exists_pins_of_anchored (h : t.anchored = true) :
    ∃ p q, [p, q] <:+: t.roots ∧ t.pins p q = true := by
  obtain ⟨⟨p, q⟩, hmem, hpins⟩ := List.any_eq_true.mp h
  exact ⟨p, q, infix_of_mem_zip_tail hmem, hpins⟩

/-- The roots of a template of several statements are constructs. -/
theorem isNamed_of_mem_roots {source : String} {ds : List Declaration} (h : compile source ds = .ok t)
    (hrun : t.isRun = true) {p : Node} (hp : p ∈ t.roots) : p.isNamed = true := by
  obtain ⟨-, span, -, hplace⟩ := exists_placeOf? h
  exact isNamed_of_placeOf? hplace hrun p hp

end Template

/-! ## What roots lie over -/

variable {t : Template} {p q n : Node} {ps qs ns : List Node} {fs : List Facing} {v : Metavariable}

/-- A node of the template that stands for itself lies over a node of its sort. -/
theorem Overlay.holds_eq (ho : Overlay t p n fs) (hp : t.isWritten p = true) (P : Trait) :
    P.holds n = P.holds p := by
  have hnone : t.metavariableAt? p = none := Option.isNone_iff_eq_none.mp hp
  cases ho with
  | single hv _ | alone hv _ => exact absurd (hnone.symm.trans hv) (by simp)
  | leaf _ hk => exact P.holds_congr hk rfl
  | branch _ hk _ => exact P.holds_congr hk rfl

/-- A placeholder for one node faces what it lies over. -/
theorem Overlay.eq_of_single (ho : Overlay t p n fs) (hv : t.metavariableAt? p = some v)
    (hs : v.shape = .single) : fs = [⟨v, .node n⟩] := by
  cases ho with
  | single hv' _ => rw [Option.some.inj (hv.symm.trans hv')]
  | alone hv' hrun =>
      rw [← Option.some.inj (hv.symm.trans hv'), hs] at hrun
      exact absurd hrun (by simp)
  | leaf hnone _ | branch hnone _ _ => exact absurd (hnone.symm.trans hv) (by simp)

namespace OverlayAll

theorem of_append (h : OverlayAll t (ps ++ qs) ns fs) :
    ∃ xs ys gs hs, ns = xs ++ ys ∧ fs = gs ++ hs ∧ OverlayAll t ps xs gs ∧ OverlayAll t qs ys hs := by
  induction ps generalizing ns fs with
  | nil => exact ⟨[], ns, [], fs, rfl, rfl, .nil, h⟩
  | cons p ps ih =>
      cases h with
      | @run _ _ zs _ _ anchor _ hv hs hr =>
          obtain ⟨xs, ys, gs, hs', rfl, rfl, hps, hqs⟩ := ih hr
          exact ⟨zs ++ xs, ys, _ :: gs, hs', (List.append_assoc ..).symm, rfl, .run hv hs hps, hqs⟩
      | @node _ m _ _ gs' _ hp hn hr =>
          obtain ⟨xs, ys, gs, hs', rfl, rfl, hps, hqs⟩ := ih hr
          exact ⟨m :: xs, ys, gs' ++ gs, hs', rfl, (List.append_assoc ..).symm, .node hp hn hps, hqs⟩

theorem of_cons (h : OverlayAll t (p :: ps) ns fs) (hp : t.isSingle p = true) :
    ∃ n ms gs hs, ns = n :: ms ∧ fs = gs ++ hs ∧ Overlay t p n gs ∧ OverlayAll t ps ms hs := by
  cases h with
  | run hv hrun _ =>
      rw [Template.isSingle_iff.mp hp _ hv] at hrun
      exact absurd hrun (by simp)
  | node _ hn hr => exact ⟨_, _, _, _, rfl, rfl, hn, hr⟩

/-- A root that stands for one node lies over one. -/
theorem exists_of_mem (h : OverlayAll t ps ns fs) (hmem : p ∈ ps) (hp : t.isSingle p = true) :
    ∃ n ∈ ns, ∃ gs, Overlay t p n gs ∧ ∀ f ∈ gs, f ∈ fs := by
  obtain ⟨front, back, rfl⟩ := List.append_of_mem hmem
  obtain ⟨xs, ys, gs₀, hs₀, rfl, rfl, -, h⟩ := h.of_append
  obtain ⟨n, ms, gs, hs₁, rfl, rfl, hn, -⟩ := h.of_cons hp
  refine ⟨n, by simp, gs, hn, ?_⟩
  intro f hf
  simp [hf]

/-- **Two neighbouring roots** that stand for one node each lie over neighbours. -/
theorem exists_pair (h : OverlayAll t ps ns fs) (hpq : [p, q] <:+: ps) (hp : t.isSingle p = true)
    (hq : t.isSingle q = true) : ∃ n n' gs gs', [n, n'] <:+: ns ∧ Overlay t p n gs ∧
      Overlay t q n' gs' ∧ (∀ f ∈ gs, f ∈ fs) ∧ ∀ f ∈ gs', f ∈ fs := by
  obtain ⟨front, back, rfl⟩ := hpq
  rw [List.append_assoc] at h
  obtain ⟨xs, ys, gs₀, hs₀, rfl, rfl, -, h⟩ := h.of_append
  obtain ⟨n, ms, gs, hs₁, rfl, rfl, hn, h⟩ := h.of_cons hp
  obtain ⟨n', ms', gs', hs₂, rfl, rfl, hn', -⟩ := h.of_cons hq
  refine ⟨n, n', gs, gs', ⟨xs, ms', by simp⟩, hn, hn', ?_, ?_⟩
  · intro f hf
    simp [hf]
  · intro f hf
    simp [hf]

end OverlayAll

namespace Matcher

variable {m : Matcher}

/-- What a construct that stands for one node lies over is a construct. -/
theorem isNamed_of_overlay {gs : List Facing} (ho : Overlay m.template q n gs)
    (hq : m.template.isSingle q = true) (hnamed : q.isNamed = true)
    (ha : ∀ f ∈ gs, ∀ k, f.value = .node k → k.isNamed = true) : n.isNamed = true := by
  cases hv : m.template.metavariableAt? q with
  | none =>
      have hwritten : m.template.isWritten q = true := Option.isNone_iff_eq_none.mpr hv
      rw [← Trait.holds_named, ho.holds_eq hwritten, Trait.holds_named, hnamed]
  | some v =>
      rw [ho.eq_of_single hv (Template.isSingle_iff.mp hq v hv)] at ha
      exact ha _ (List.mem_singleton_self _) n rfl

/-! ## Sites -/

/-- The site covers neighbouring elements of a list of statements; those of them that are constructs are
    statements, or labels between statements. -/
def StandsAmongStatements (root : Node) (s : Site) : Prop :=
  ∃ list ∈ root.listing, isStatementList list = true ∧ ∃ xs, xs <:+: list.children ∧ xs ≠ [] ∧
    s.span = spanOf xs ∧ ∀ x ∈ xs, x.isNamed = true → isStatement x = true ∨ isLabel x = true

/-- A placeholder for a statement, beside a root that stands for one node, is bound to a statement. -/
def BindsStatements (t : Template) (b : Binding) : Prop :=
  ∀ p q v, [p, q] <:+: t.roots ∨ [q, p] <:+: t.roots → t.isSingle q = true →
    t.metavariableAt? p = some v → v.shape = .single → v.name ≠ Metavariable.wildcard →
    ∃ n, b.get? v.name = some (.node n) ∧ isStatement n = true

/-- The facings of a match have constructs for single nodes. -/
theorem isNamed_of_explained {roots : List Node} {b : Binding} (he : Explained m roots fs b) :
    ∀ f ∈ fs, ∀ k, f.value = .node k → k.isNamed = true :=
  fun f hf k hk => (he.admitted f hf k hk).1

/-- The binding keeps a statement for a placeholder that faces one. -/
theorem bound_of_facing {roots : List Node} {b : Binding} (he : Explained m roots fs b)
    (hface : (⟨v, .node n⟩ : Facing) ∈ fs) (hwildcard : v.name ≠ Metavariable.wildcard)
    (hstatement : isStatement n = true) :
    ∃ k, b.get? v.name = some (.node k) ∧ isStatement k = true := by
  obtain ⟨x, hx, hsame⟩ := he.agrees _ hface hwildcard
  cases x with
  | run ys anchor => exact absurd hsame (by simp [Bound.same])
  | node k =>
      obtain ⟨f, hf, -, hfk⟩ := he.faced _ _ hx
      have hnamed := isNamed_of_explained he
      refine ⟨k, hx, ?_⟩
      rw [isStatement, Trait.holds_of_same _ hsame (hnamed f hf k hfk) (hnamed _ hface n rfl)]
      exact hstatement

section

variable {source text : String} {ds : List Declaration} {tree : Tree} {list : Node} {xs : List Node}
  {typing : Types.Typing} {b : Binding}
  (hparse : Java.parse? source = some tree) (ht : Template.compile text ds = .ok t)
  (hrun : t.isRun = true) (hlist : list ∈ tree.root.listing) (hxs : xs <:+: list.children)
  (ho : OverlayAll t t.roots xs fs) (he : Explained ⟨t, typing⟩ t.roots fs b)

include hparse ht hrun hlist hxs ho he

/-- **An anchor holds a run** in a list of statements. -/
theorem isStatementList_of_anchored (hanchored : t.anchored = true) : isStatementList list = true := by
  obtain ⟨p, q, hpq, hpins⟩ := Template.exists_pins_of_anchored hanchored
  simp only [Template.pins, Bool.and_eq_true, Bool.or_eq_true] at hpins
  obtain ⟨⟨hp, hq⟩, hkinds⟩ := hpins
  obtain ⟨n, n', gs, gs', hnn, hn, hn', -, hgs'⟩ :=
    ho.exists_pair hpq (Template.isSingle_of_isWritten hp) hq
  have hchildren : [n, n'] <:+: list.children := hnn.trans hxs
  rcases hkinds with hclosing | ⟨⟨hcondition, hq'⟩, hopening⟩
  · refine Java.isStatementList_of_closing hparse hlist hchildren ?_ ?_
    · rw [hn.holds_eq hp, hclosing]
    · have hnamed := Template.isNamed_of_mem_roots ht hrun (hpq.mem (by simp : q ∈ [p, q]))
      exact isNamed_of_overlay (m := ⟨t, typing⟩) hn' hq hnamed
        fun f hf => isNamed_of_explained he f (hgs' f hf)
  · refine Java.isStatementList_of_opening hparse hlist hchildren ?_ ?_
    · rw [hn.holds_eq hp, hcondition]
    · rw [hn'.holds_eq hq', hopening]

/-- **A placeholder beside a root** that stands for one node is bound to a statement. -/
theorem bindsStatements_of_list (hstatements : isStatementList list = true) : BindsStatements t b := by
  intro p q v hpq hq hv hs hwildcard
  have hp : t.isSingle p = true := Template.isSingle_of_single hv hs
  -- what the placeholder lies over has a construct beside it
  obtain ⟨n, n', gs, hbeside, hn, hgs, hnamed'⟩ : ∃ n n' gs,
      ([n, n'] <:+: xs ∨ [n', n] <:+: xs) ∧ Overlay t p n gs ∧ (∀ f ∈ gs, f ∈ fs) ∧
        n'.isNamed = true := by
    have hnamed : ∀ {k : Node} {gs : List Facing}, Overlay t q k gs → (∀ f ∈ gs, f ∈ fs) →
        q ∈ t.roots → k.isNamed = true := by
      intro k gs hk hsub hmem
      exact isNamed_of_overlay (m := ⟨t, typing⟩) hk hq (Template.isNamed_of_mem_roots ht hrun hmem)
        fun f hf => isNamed_of_explained he f (hsub f hf)
    rcases hpq with hpq | hqp
    · obtain ⟨n, n', gs, gs', hnn, hn, hn', hgs, hgs'⟩ := ho.exists_pair hpq hp hq
      exact ⟨n, n', gs, .inl hnn, hn, hgs, hnamed hn' hgs' (hpq.mem (by simp))⟩
    · obtain ⟨n', n, gs', gs, hnn, hn', hn, hgs', hgs⟩ := ho.exists_pair hqp hq hp
      exact ⟨n, n', gs, .inr hnn, hn, hgs, hnamed hn' hgs' (hqp.mem (by simp))⟩
  have hface : (⟨v, .node n⟩ : Facing) ∈ fs := by
    refine hgs _ ?_
    rw [hn.eq_of_single hv hs]
    exact List.mem_singleton_self _
  have hnamed : n.isNamed = true := isNamed_of_explained he _ hface n rfl
  have hchildren : [n, n'] <:+: list.children ∨ [n', n] <:+: list.children :=
    hbeside.imp (fun h => h.trans hxs) fun h => h.trans hxs
  have hstatement : isStatement n = true := by
    have hmem : n ∈ list.children := hchildren.elim (fun h => h.mem (by simp)) fun h => h.mem (by simp)
    refine (Java.isStatement_of_mem_list hparse hlist hstatements hmem hnamed).resolve_right ?_
    intro hlabel
    rcases hchildren with hchildren | hchildren
    · rw [Java.isNamed_false_of_label hparse hlist hlabel hchildren] at hnamed'
      exact absurd hnamed' (by simp)
    · exact Java.not_infix_of_label hparse hlist hlabel hchildren
  exact bound_of_facing he hface hwildcard hstatement

end

/-- A site of a template of several statements comes with an overlay of its roots over neighbouring children
    of a node. -/
theorem overlay_of_mem_sitesWhere {accept : Binding → Bool} {root : Node} {s : Site}
    (hrun : m.template.isRun = true) (hs : s ∈ m.sitesWhere accept root) :
    ∃ list xs fs, list ∈ root.listing ∧ xs <:+: list.children ∧ xs ≠ [] ∧ s.span = spanOf xs ∧
      OverlayAll m.template m.template.roots xs fs ∧ Explained m m.template.roots fs s.binding := by
  unfold sitesWhere at hs
  rw [if_pos hrun] at hs
  obtain ⟨xs, ⟨list, hlist, hxs, hne⟩, hw⟩ := (mem_sitesInChildren hs).exists_run
  obtain ⟨hb, -, hspan⟩ := siblings?_of_window? hw
  obtain ⟨fs, ho, he⟩ := overlay_of_siblings? hb
  exact ⟨list, xs, fs, hlist, hxs, hne, hspan, ho, he⟩

/-- An element of a list of statements starts where a site among statements does. -/
theorem StandsAmongStatements.exists_start {root : Node} {s : Site} (h : StandsAmongStatements root s) :
    ∃ list ∈ root.listing, isStatementList list = true ∧ ∃ x ∈ list.children, x.span.start = s.span.start := by
  obtain ⟨list, hlist, hstatements, xs, hxs, hne, hspan, -⟩ := h
  obtain ⟨x, xs, rfl⟩ := List.exists_cons_of_ne_nil hne
  refine ⟨list, hlist, hstatements, x, hxs.mem (List.mem_cons_self ..), ?_⟩
  rw [hspan]
  unfold spanOf
  rw [List.head?_cons, List.getLast?_eq_getLast_of_ne_nil (List.cons_ne_nil x xs)]

/-- **A template without an anchor** is found outside of lists of statements: in an `if`, where a placeholder for
    a statement is bound to the condition. -/
theorem sites_outside_lists : ∃ tree t s n,
    Java.parse? "class T { void t(boolean c, int x) { if (c) return x; } }" = some tree ∧
    Template.compile "$A; return $X;" [] = .ok t ∧ t.isRun = true ∧
    s ∈ (Matcher.mk t .empty).sites tree.root ∧ ¬ StandsAmongStatements tree.root s ∧
    s.binding.get? "A" = some (.node n) ∧ n.isKind "parenthesized_expression" = true ∧
    isStatement n = false := by
  have h : ((Java.parse? "class T { void t(boolean c, int x) { if (c) return x; } }").any fun tree =>
      (Template.compile "$A; return $X;" []).toOption.any fun t => t.isRun &&
        ((Matcher.mk t .empty).sites tree.root).any fun s =>
          (tree.root.listing.all fun list => !isStatementList list ||
            list.children.all fun x => x.span.start != s.span.start) &&
          (s.binding.node? "A").any fun n => n.isKind "parenthesized_expression" && !isStatement n) = true := by
    decide +kernel
  obtain ⟨tree, htree, h⟩ := (Option.any_eq_true _ _).mp h
  obtain ⟨t, ht, h⟩ := (Option.any_eq_true _ _).mp h
  obtain ⟨hrun, h⟩ := (Bool.and_eq_true _ _).mp h
  obtain ⟨s, hs, h⟩ := List.any_eq_true.mp h
  obtain ⟨hstarts, h⟩ := (Bool.and_eq_true _ _).mp h
  obtain ⟨n, hn, h⟩ := (Option.any_eq_true _ _).mp h
  obtain ⟨hkind, hstatement⟩ := (Bool.and_eq_true _ _).mp h
  refine ⟨tree, t, s, n, htree, Attempts.toOption_eq_some.mp ht, hrun, hs, ?_, Binding.node?_eq_some.mp hn, hkind,
    by simpa using hstatement⟩
  intro hstands
  obtain ⟨list, hlist, hstatements, x, hx, hstart⟩ := hstands.exists_start
  have hnone := List.all_eq_true.mp hstarts list hlist
  rw [hstatements, Bool.not_true, Bool.false_or] at hnone
  exact absurd hstart (by simpa using List.all_eq_true.mp hnone x hx)

end Matcher

end JavaRefactor

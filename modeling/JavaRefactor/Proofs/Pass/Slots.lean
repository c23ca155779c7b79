import JavaRefactor.Proofs.Template.Weight

/-!
# `Proofs.Pass.Slots` — where the metavariables of an after-template stand

The slots of a template are nodes of its tree, in order and apart from each other. Those below one node stand next
to each other in the list of all slots, and each of them takes a placeholder out of the text of the tree.

## Contents
- **Order.** `slotsOfAll_inOrder`, where the nodes of the template are in order.
- **Nodes.** `mem_slotsOfAll`; `slotsOf_of_token` and `slotsOfAll_append`, to read slots off nodes.
- **Parents.** `Slot.Among`, the slots below one node among all slots, and `among_of_mem_slotsOfAll`: a slot is a
  child of its parent.
- **Templates.** `Template.slots`, and from `Template.Stands` what stands where they do.
-/

namespace JavaRefactor

open Java (Lexeme)
open Syntax (Node spanOf)
open Text (InOrder)

namespace Pass

variable {t : Template}

/-! ## Order -/

mutual

/-- The slots of a template node are in order where the node is. -/
theorem slotsOf_inOrder (parent : Option Node) : ∀ {p : Node}, p.Nested → p.span.start < p.span.stop →
    InOrder p.span.start ((slotsOf t parent p).map (·.node.span)) p.span.stop
  | .leaf l tr x, _, hbyte => by
      rw [slotsOf]
      cases t.metavariableAt? (.leaf l tr x) with
      | none => exact Nat.le_of_lt hbyte
      | some v => exact ⟨Nat.le_refl _, hbyte, Nat.le_refl _⟩
  | .branch l cs, h, hbyte => by
      rw [slotsOf]
      cases t.metavariableAt? (.branch l cs) with
      | none => exact slotsOfAll_inOrder (some (.branch l cs)) h.1 h.2
      | some v => exact ⟨Nat.le_refl _, hbyte, Nat.le_refl _⟩

/-- **The slots of template nodes** are in order where the nodes are. -/
theorem slotsOfAll_inOrder (parent : Option Node) : ∀ {ps : List Node} {first last : Nat},
    InOrder first (ps.map Node.span) last → Node.NestedAll ps →
    InOrder first ((slotsOfAll t parent ps).map (·.node.span)) last
  | [], _, _, horder, _ => horder
  | p :: ps, first, last, ⟨hstart, hbyte, hrest⟩, ⟨hp, hps⟩ => by
      rw [slotsOfAll, List.map_append]
      refine InOrder.append_iff.mpr ⟨p.span.stop, ?_, slotsOfAll_inOrder parent hrest hps⟩
      exact (slotsOf_inOrder parent hp hbyte).mono hstart (Nat.le_refl _)

end

/-! ## Nodes -/

/-- A slot is a node of the template that stands for the metavariable of its name. -/
def Slot.Placed (t : Template) (s : Slot) (listing : List Node) : Prop :=
  s.node ∈ listing ∧ ∃ v, t.metavariableAt? s.node = some v ∧ v.name = s.name

mutual

theorem mem_slotsOf {s : Slot} : ∀ {parent : Option Node} {p : Node}, s ∈ slotsOf t parent p →
    s.Placed t p.listing
  | parent, .leaf l tr x, h => by
      rw [slotsOf] at h
      cases hv : t.metavariableAt? (.leaf l tr x) with
      | none =>
          rw [hv] at h
          exact absurd h (by simp)
      | some v =>
          rw [hv] at h
          obtain rfl := List.mem_singleton.mp h
          exact ⟨Node.mem_listing_self _, v, hv, rfl⟩
  | parent, .branch l cs, h => by
      rw [slotsOf] at h
      cases hv : t.metavariableAt? (.branch l cs) with
      | none =>
          rw [hv] at h
          obtain ⟨hmem, hplaced⟩ := mem_slotsOfAll h
          exact ⟨List.mem_cons_of_mem _ hmem, hplaced⟩
      | some v =>
          rw [hv] at h
          obtain rfl := List.mem_singleton.mp h
          exact ⟨Node.mem_listing_self _, v, hv, rfl⟩

/-- **The slots of template nodes** are among the nodes below them. -/
theorem mem_slotsOfAll {s : Slot} : ∀ {parent : Option Node} {ps : List Node},
    s ∈ slotsOfAll t parent ps → s.Placed t (Node.listingAll ps)
  | _, [], h => absurd h (by simp [slotsOfAll])
  | parent, p :: ps, h => by
      rw [Node.listingAll]
      rcases List.mem_append.mp h with h | h
      · obtain ⟨hmem, hplaced⟩ := mem_slotsOf h
        exact ⟨List.mem_append_left _ hmem, hplaced⟩
      · obtain ⟨hmem, hplaced⟩ := mem_slotsOfAll h
        exact ⟨List.mem_append_right _ hmem, hplaced⟩

end

/-- A bare token stands for no metavariable. -/
theorem slotsOf_of_token {parent : Option Node} {l : Syntax.Label} {tr x : String} (h : l.kind.isNamed = false) :
    slotsOf t parent (.leaf l tr x) = [] := by
  have hkind : ∀ name, (Node.leaf l tr x).isKind name = false := by
    intro name
    refine beq_eq_false_iff_ne.mpr ?_
    intro hnamed
    have hkind : l.kind = .named name := hnamed
    rw [hkind] at h
    exact absurd h (by simp [Syntax.Kind.isNamed])
  have hnone : t.metavariableAt? (.leaf l tr x) = none := by
    unfold Template.metavariableAt? Template.placeholderLeaf?
    simp [hkind]
  rw [slotsOf, hnone]

theorem slotsOfAll_append (parent : Option Node) (ps qs : List Node) :
    slotsOfAll t parent (ps ++ qs) = slotsOfAll t parent ps ++ slotsOfAll t parent qs := by
  induction ps with
  | nil => rfl
  | cons p ps ih => rw [List.cons_append, slotsOfAll, slotsOfAll, ih, List.append_assoc]

/-! ## Parents -/

/-- Among some slots in order between two bytes, those below the node `m` stand next to each other: in front of them
    there are slots that end before `m` starts, and behind them slots that start where it has ended. -/
def Slot.Among (t : Template) (m : Node) (first : Nat) (slots : List Slot) (last : Nat) : Prop :=
  ∃ before behind, slots = before ++ slotsOfAll t (some m) m.children ++ behind ∧
    InOrder first (before.map (·.node.span)) m.span.start ∧
    InOrder m.span.stop (behind.map (·.node.span)) last

theorem Slot.Among.append {m : Node} {first middle last : Nat} {slots rest : List Slot}
    (h : Slot.Among t m first slots middle) (hrest : InOrder middle (rest.map (·.node.span)) last) :
    Slot.Among t m first (slots ++ rest) last := by
  obtain ⟨before, behind, rfl, hbefore, hbehind⟩ := h
  refine ⟨before, behind ++ rest, by simp only [List.append_assoc], hbefore, ?_⟩
  rw [List.map_append]
  exact InOrder.append_iff.mpr ⟨middle, hbehind, hrest⟩

theorem Slot.Among.prepend {m : Node} {first middle last : Nat} {slots front : List Slot}
    (h : Slot.Among t m middle slots last) (hfront : InOrder first (front.map (·.node.span)) middle) :
    Slot.Among t m first (front ++ slots) last := by
  obtain ⟨before, behind, rfl, hbefore, hbehind⟩ := h
  refine ⟨front ++ before, behind, by simp only [List.append_assoc], ?_, hbehind⟩
  rw [List.map_append]
  exact InOrder.append_iff.mpr ⟨middle, hfront, hbefore⟩

mutual

/-- A slot of a template node is the node itself, or it is a child of its parent, which stands below the node. -/
theorem among_of_mem_slotsOf {s : Slot} : ∀ {parent : Option Node} {p : Node}, p.Nested →
    p.span.start < p.span.stop → s ∈ slotsOf t parent p →
    (s.parent = parent ∧ s.node = p) ∨ ∃ m ∈ p.listing, s.parent = some m ∧ s.node ∈ m.children ∧
      Slot.Among t m p.span.start (slotsOf t parent p) p.span.stop
  | parent, .leaf l tr x, _, _, h => by
      rw [slotsOf] at h
      cases hv : t.metavariableAt? (.leaf l tr x) with
      | none =>
          rw [hv] at h
          exact absurd h (by simp)
      | some v =>
          rw [hv] at h
          obtain rfl := List.mem_singleton.mp h
          exact Or.inl ⟨rfl, rfl⟩
  | parent, .branch l cs, hnested, hbyte, h => by
      rw [slotsOf] at h ⊢
      cases hv : t.metavariableAt? (.branch l cs) with
      | some v =>
          rw [hv] at h
          obtain rfl := List.mem_singleton.mp h
          exact Or.inl ⟨rfl, rfl⟩
      | none =>
          rw [hv] at h
          right
          rcases among_of_mem_slotsOfAll hnested.1 hnested.2 h with ⟨hparent, hmem⟩ | ⟨m, hm, hparent, hmem, hamong⟩
          · refine ⟨_, Node.mem_listing_self _, hparent, hmem, [], [], ?_, Nat.le_refl _, Nat.le_refl _⟩
            rw [List.nil_append, List.append_nil]
            rfl
          · exact ⟨m, List.mem_cons_of_mem _ hm, hparent, hmem, hamong⟩

/-- **A slot of template nodes** is one of them, or it is a child of its parent, which stands below them. -/
theorem among_of_mem_slotsOfAll {s : Slot} : ∀ {parent : Option Node} {ps : List Node} {first last : Nat},
    InOrder first (ps.map Node.span) last → Node.NestedAll ps → s ∈ slotsOfAll t parent ps →
    (s.parent = parent ∧ s.node ∈ ps) ∨ ∃ m ∈ Node.listingAll ps, s.parent = some m ∧ s.node ∈ m.children ∧
      Slot.Among t m first (slotsOfAll t parent ps) last
  | _, [], _, _, _, _, h => absurd h (by simp [slotsOfAll])
  | parent, p :: ps, first, last, horder, hnested, h => by
      obtain ⟨hstart, hbyte, hrest⟩ := horder
      obtain ⟨hp, hps⟩ := hnested
      have hfront := (slotsOf_inOrder (t := t) parent hp hbyte).mono hstart (Nat.le_refl _)
      have hbehind := slotsOfAll_inOrder (t := t) parent hrest hps
      rw [slotsOfAll] at h ⊢
      rw [Node.listingAll]
      rcases List.mem_append.mp h with h | h
      · rcases among_of_mem_slotsOf hp hbyte h with ⟨hparent, rfl⟩ | ⟨m, hm, hparent, hmem, hamong⟩
        · exact Or.inl ⟨hparent, List.mem_cons_self ..⟩
        · refine Or.inr ⟨m, List.mem_append_left _ hm, hparent, hmem, ?_⟩
          obtain ⟨before, behind, hslots, hbefore, hlast⟩ := hamong
          exact Slot.Among.append ⟨before, behind, hslots, hbefore.mono hstart (Nat.le_refl _), hlast⟩ hbehind
      · rcases among_of_mem_slotsOfAll hrest hps h with ⟨hparent, hmem⟩ | ⟨m, hm, hparent, hmem, hamong⟩
        · exact Or.inl ⟨hparent, List.mem_cons_of_mem p hmem⟩
        · exact Or.inr ⟨m, List.mem_append_right _ hm, hparent, hmem, hamong.prepend hfront⟩

end

end Pass

/-! ## Templates -/

namespace Template

variable {t : Template} {text : String} {ls part : List Lexeme} {nodes : List Node}

/-- The slots of a template. -/
def slots (t : Template) : List Pass.Slot := Pass.slotsOfAll t none t.roots

theorem map_name_slots (t : Template) : t.slots.map (·.name) = t.placeholderNames :=
  placeholdersOfAll_slots none t.roots

/-- The roots of a template are in order, and what is below them is nested. -/
theorem Stands.inOrder_roots (h : t.Stands text ls part nodes) :
    InOrder (spanOf t.roots).start (t.roots.map Node.span) (spanOf t.roots).stop ∧ Node.NestedAll t.roots := by
  obtain ⟨parent, hparent, hneighbours, hne⟩ := h.run
  obtain ⟨horder, hnested⟩ := h.spelled.nested.neighbours hparent hneighbours hne
  exact ⟨horder, Node.nestedAll_iff.mpr hnested⟩

/-- What is below the roots of a template is a node of its tree. -/
theorem Stands.mem_listing (h : t.Stands text ls part nodes) {n : Node} (hn : n ∈ Node.listingAll t.roots) :
    n ∈ t.tree.root.listing := by
  obtain ⟨parent, hparent, hneighbours, -⟩ := h.run
  obtain ⟨root, hroot, hbelow⟩ := Node.mem_listingAll_iff.mp hn
  have hchild := Node.mem_listing_of_mem_children (hneighbours.subset hroot)
  exact Node.mem_listing_trans (Node.mem_listing_trans hparent hchild) hbelow

/-- A slot of a template that is read from a text is a node of its tree. -/
theorem Stands.placed_of_mem_slots (h : t.Stands text ls part nodes) {s : Pass.Slot} (hs : s ∈ t.slots) :
    s.Placed t t.tree.root.listing := by
  obtain ⟨hmem, hplaced⟩ := Pass.mem_slotsOfAll hs
  exact ⟨h.mem_listing hmem, hplaced⟩

/-- The slots of a template are in order. -/
theorem Stands.inOrder_slots (h : t.Stands text ls part nodes) :
    InOrder (spanOf t.roots).start (t.slots.map (·.node.span)) (spanOf t.roots).stop :=
  Pass.slotsOfAll_inOrder none h.inOrder_roots.1 h.inOrder_roots.2

/-- **A slot of a template** has no parent if it is a root, and otherwise is a child of its parent. -/
theorem Stands.parent_of_mem_slots (h : t.Stands text ls part nodes) {s : Pass.Slot} (hs : s ∈ t.slots) :
    s.parent = none ∨ ∃ m ∈ t.tree.root.listing, s.parent = some m ∧ s.node ∈ m.children ∧
      Pass.Slot.Among t m (spanOf t.roots).start t.slots (spanOf t.roots).stop := by
  obtain ⟨horder, hnested⟩ := h.inOrder_roots
  rcases Pass.among_of_mem_slotsOfAll horder hnested hs with ⟨hparent, -⟩ | ⟨m, hm, hrest⟩
  · exact Or.inl hparent
  · exact Or.inr ⟨m, h.mem_listing hm, hrest⟩

/-- A slot takes a piece out of the text of the tree, in which there is the placeholder of its name. -/
theorem Stands.cuts_of_mem_slots (h : t.Stands text ls part nodes) {s : Pass.Slot} (hs : s ∈ t.slots) :
    ∃ middle, s.node.span.Cuts t.tree.source.toList middle ∧
      (Metavariable.placeholder s.name).toList <:+: middle := by
  obtain ⟨hmem, v, hv, hname⟩ := h.placed_of_mem_slots hs
  obtain ⟨l, tr, hleaf⟩ := exists_leaf_of_metavariableAt? hv
  rw [hname] at hleaf
  obtain ⟨middle, hmiddle, -⟩ := h.spelled.cuts_of_mem_listing hmem
  have hinside := ((h.spelled.nested.of_mem_listing hmem).1.of_mem_listing hleaf).2.1
  have hpiece := h.spelled.cuts_of_leaf (Node.mem_listing_trans hmem hleaf)
  exact ⟨middle, hmiddle, hpiece.infix_of_inside hmiddle hinside⟩

end Template

end JavaRefactor

import JavaRefactor.Proofs.Java.StatementBodies
import JavaRefactor.Proofs.Pass.Instance
import JavaRefactor.Proofs.Pass.Parentheses
import JavaRefactor.Proofs.Pass.Slots

/-!
# `Proofs.Pass.Filling` — what stands in the place of a slot

A slot is replaced by the text of its value. What the template has in front of the slot and behind it is filled in by
itself, and the tokens beside the slot stay as they are: also the comma beside a run of no nodes, which had separated
it from its neighbours. A placeholder that is a statement is replaced with its semicolon, also by a value that has no
semicolon of its own.

## Contents
- **Parts.** `fillSlots_append`, a slot between others; `fillSlots_upto` and `fillSlots_from`, the text of the template
  behind the last slot and in front of the first one.
- **Runs.** **`instantiate_of_empty_run`**, and `apply_keeps_comma`, which is no Java any more.
- **Statements.** **`instantiate_of_statement`**, and `apply_drops_semicolon`, likewise.
-/

namespace JavaRefactor.Pass

open Java (isStatement)
open Syntax (Category Node spanOf)
open Text (InOrder Span slice)

variable {t : Template} {text source out : String} {b : Binding} {stop place : Nat} {s : Slot} {m : Node}
  {l₁ l₂ : Syntax.Label} {tr₁ tr₂ x y : String}

/-! ## Parts -/

/-- **A slot between others** is replaced by its value, and what is in front of it and behind it is filled in. -/
theorem fillSlots_append {before behind : List Slot}
    (h : fillSlots text source b stop place (before ++ s :: behind) = .ok out) :
    ∃ front v rest, fillSlots text source b s.node.span.start place before = .ok front ∧
      b.get? s.name = some v ∧ fillSlots text source b stop s.node.span.stop behind = .ok rest ∧
      out = front ++ s.fill source v ++ rest := by
  induction before generalizing place out with
  | nil =>
      obtain ⟨v, rest, hv, hrest, rfl⟩ := fillSlots_cons.mp h
      exact ⟨_, v, rest, rfl, hv, hrest, rfl⟩
  | cons first before ih =>
      obtain ⟨v', tail, hv', htail, rfl⟩ := fillSlots_cons.mp h
      obtain ⟨front, v, rest, hfront, hv, hrest, rfl⟩ := ih htail
      refine ⟨_, v, rest, fillSlots_cons.mpr ⟨v', front, hv', hfront, rfl⟩, hv, hrest, ?_⟩
      simp only [String.append_assoc]

section

variable {slots : List Slot} {middle : Nat} {piece whole : List Char}
  (hslots : ∀ s ∈ slots, ∃ taken, s.node.span.Cuts text.toList taken)

include hslots

/-- What the template has **behind the last slot** is copied. -/
theorem fillSlots_upto (horder : InOrder place (slots.map (·.node.span)) middle)
    (hwhole : (⟨place, middle⟩ : Span).Cuts text.toList whole)
    (hpiece : (⟨middle, stop⟩ : Span).Cuts text.toList piece)
    (h : fillSlots text source b stop place slots = .ok out) :
    ∃ front, fillSlots text source b middle place slots = .ok front ∧ out = front ++ String.ofList piece := by
  induction slots generalizing place out whole with
  | nil =>
      refine ⟨_, rfl, ?_⟩
      obtain rfl := Except.ok.inj h
      rw [Text.slice_of_cuts (hwhole.append hpiece), Text.slice_of_cuts hwhole, String.ofList_append]
  | cons s slots ih =>
      rw [List.map_cons] at horder
      obtain ⟨hstart, -, hrest⟩ := horder
      obtain ⟨taken, htaken⟩ := hslots s (List.mem_cons_self ..)
      obtain ⟨-, behind, -, hbehind, -⟩ := hwhole.split_inside htaken hstart hrest.le
      obtain ⟨v, tail, hv, htail, rfl⟩ := fillSlots_cons.mp h
      obtain ⟨front, hfront, rfl⟩ := ih (fun s' hs' => hslots s' (List.mem_cons_of_mem s hs')) hrest hbehind htail
      refine ⟨_, fillSlots_cons.mpr ⟨v, front, hv, hfront, rfl⟩, ?_⟩
      simp only [String.append_assoc]

/-- What the template has **in front of the first slot** is copied. -/
theorem fillSlots_from (horder : InOrder middle (slots.map (·.node.span)) stop)
    (hwhole : (⟨middle, stop⟩ : Span).Cuts text.toList whole)
    (hpiece : (⟨place, middle⟩ : Span).Cuts text.toList piece)
    (h : fillSlots text source b stop place slots = .ok out) :
    ∃ rest, fillSlots text source b stop middle slots = .ok rest ∧ out = String.ofList piece ++ rest := by
  cases slots with
  | nil =>
      refine ⟨_, rfl, ?_⟩
      obtain rfl := Except.ok.inj h
      rw [Text.slice_of_cuts (hpiece.append hwhole), Text.slice_of_cuts hwhole, String.ofList_append]
  | cons s slots =>
      rw [List.map_cons] at horder
      obtain ⟨hstart, -, hrest⟩ := horder
      obtain ⟨taken, htaken⟩ := hslots s (List.mem_cons_self ..)
      obtain ⟨front, -, hfront, -, -⟩ := hwhole.split_inside htaken hstart hrest.le
      obtain ⟨v, tail, hv, htail, rfl⟩ := fillSlots_cons.mp h
      refine ⟨_, fillSlots_cons.mpr ⟨v, tail, hv, htail, rfl⟩, ?_⟩
      rw [Text.slice_of_cuts (hpiece.append hfront), Text.slice_of_cuts hfront, String.ofList_append]
      simp only [String.append_assoc]

end

theorem fillSlots_of_instantiate (h : instantiate t b source = .ok out) :
    fillSlots t.tree.source source b (spanOf t.roots).stop (spanOf t.roots).start t.slots = .ok out := by
  unfold instantiate at h
  unfold Template.slots
  cases hroots : t.roots with
  | nil =>
      rw [hroots] at h
      exact absurd h (by simp)
  | cons root roots =>
      rw [hroots] at h
      exact h

/-! ## Runs -/

/-- Of three leaves side by side, what a text has from the start of the first to the second, and from the end of the
    second to that of the third. -/
theorem cuts_beside_leaf {tree : Syntax.Tree} {ls : List Java.Lexeme} {nodes : List Node}
    (h : Java.Spelled tree ls nodes) (hm : m ∈ tree.root.listing) {l : Syntax.Label} {tr p : String}
    (hlist : [.leaf l₁ tr₁ x, .leaf l tr p, .leaf l₂ tr₂ y] <:+: m.children) :
    (⟨l₁.span.start, l.span.start⟩ : Span).Cuts tree.source.toList (x.toList ++ tr.toList) ∧
      (⟨l.span.stop, l₂.span.stop⟩ : Span).Cuts tree.source.toList (tr₂.toList ++ y.toList) := by
  have hleaf : ∀ {l : Syntax.Label} {tr x : String}, Node.leaf l tr x ∈ m.children →
      l.span.Cuts tree.source.toList x.toList :=
    fun hn => h.cuts_of_leaf (Node.mem_listing_trans hm (Node.mem_listing_of_mem_children hn))
  have hfirst : l₁.span.Cuts tree.source.toList x.toList := hleaf (hlist.subset (List.mem_cons_self ..))
  have hlast : l₂.span.Cuts tree.source.toList y.toList :=
    hleaf (hlist.subset (List.mem_cons_of_mem _ (List.mem_cons_of_mem _ (List.mem_singleton_self _))))
  have hleft : tree.root.HasRun [.leaf l₁ tr₁ x, .leaf l tr p] :=
    ⟨m, hm, List.IsInfix.trans ⟨[], [.leaf l₂ tr₂ y], rfl⟩ hlist, by simp⟩
  have hright : tree.root.HasRun [.leaf l tr p, .leaf l₂ tr₂ y] :=
    ⟨m, hm, List.IsInfix.trans ⟨[.leaf l₁ tr₁ x], [], rfl⟩ hlist, by simp⟩
  exact ⟨hfirst.append (h.cuts_between hleft), (h.cuts_between hright).append hlast⟩

/-- The slots around one that stands between two bare tokens. -/
theorem exists_slots_between (hs : s ∈ t.slots)
    (hparent : s.parent = some m) (hlist : [.leaf l₁ tr₁ x, s.node, .leaf l₂ tr₂ y] <:+: m.children)
    (hx : l₁.kind.isNamed = false) (hy : l₂.kind.isNamed = false) {text : String} {ls part : List Java.Lexeme}
    {nodes : List Node} (h : t.Stands text ls part nodes) :
    ∃ before behind, t.slots = before ++ s :: behind ∧ m ∈ t.tree.root.listing ∧
      InOrder (spanOf t.roots).start (before.map (·.node.span)) l₁.span.start ∧
      InOrder l₂.span.stop (behind.map (·.node.span)) (spanOf t.roots).stop := by
  rcases h.parent_of_mem_slots hs with hnone | ⟨m', hm, hparent', -, before, behind, hslots, hbefore, hbehind⟩
  · exact absurd (hparent.symm.trans hnone) (by simp)
  obtain rfl := Option.some.inj (hparent.symm.trans hparent')
  obtain ⟨xs, ys, hchildren⟩ := hlist
  -- the tokens have no slots, and the slot is its own
  obtain ⟨-, v, hv, hname⟩ := h.placed_of_mem_slots hs
  have hown : slotsOf t (some m) s.node = [s] := by rw [Template.slotsOf_of_some hv, hname, ← hparent]
  have hthree : slotsOfAll t (some m) [.leaf l₁ tr₁ x, s.node, .leaf l₂ tr₂ y] = [s] := by
    simp only [slotsOfAll, slotsOf_of_token hx, slotsOf_of_token hy, hown, List.nil_append, List.append_nil]
  rw [← hchildren, slotsOfAll_append, slotsOfAll_append, hthree] at hslots
  obtain ⟨horder, hnested⟩ := (h.spelled.nested.of_mem_listing hm).1.children
  rw [← hchildren, List.map_append, List.map_append] at horder
  obtain ⟨last, hleft, hys⟩ := InOrder.append_iff.mp horder
  obtain ⟨first, hxs, hfirst, -, -, -, -, -, hlast⟩ := InOrder.append_iff.mp hleft
  refine ⟨before ++ slotsOfAll t (some m) xs, slotsOfAll t (some m) ys ++ behind, ?_, hm, ?_, ?_⟩
  · rw [hslots]
    simp only [List.append_assoc, List.cons_append, List.nil_append]
  · rw [List.map_append]
    refine InOrder.append_iff.mpr ⟨_, hbefore, slotsOfAll_inOrder _ (hxs.mono (Nat.le_refl _) hfirst) ?_⟩
    exact Node.nestedAll_iff.mpr fun n hn => hnested n (hchildren ▸ by simp [hn])
  · rw [List.map_append]
    refine InOrder.append_iff.mpr ⟨_, slotsOfAll_inOrder _ (hys.mono hlast (Nat.le_refl _)) ?_, hbehind⟩
    exact Node.nestedAll_iff.mpr fun n hn => hnested n (hchildren ▸ by simp [hn])

/-- **A run of no nodes** between two bare tokens leaves nothing there: the tokens stay, and what stands in front of
    the run and behind it. -/
theorem instantiate_of_empty_run {code : String} {ds : List Declaration} {l : Syntax.Label} {tr p : String}
    {anchor : Nat} (ht : Template.compile code ds = .ok t) (hout : instantiate t b source = .ok out)
    (hs : s ∈ t.slots) (hb : b.get? s.name = some (.run [] anchor)) (hparent : s.parent = some m)
    (hnode : s.node = .leaf l tr p) (hlist : [.leaf l₁ tr₁ x, s.node, .leaf l₂ tr₂ y] <:+: m.children)
    (hx : l₁.kind.isNamed = false) (hy : l₂.kind.isNamed = false) :
    ∃ before behind front rest, t.slots = before ++ s :: behind ∧
      fillSlots t.tree.source source b l₁.span.start (spanOf t.roots).start before = .ok front ∧
      fillSlots t.tree.source source b (spanOf t.roots).stop l₂.span.stop behind = .ok rest ∧
      out = front ++ x ++ tr ++ tr₂ ++ y ++ rest := by
  obtain ⟨text, ls, part, nodes, h⟩ := Template.exists_stands ht
  obtain ⟨before, behind, hslots, hm, hbefore, hbehind⟩ := exists_slots_between hs hparent hlist hx hy h
  have hcuts : ∀ s' ∈ t.slots, ∃ taken, s'.node.span.Cuts t.tree.source.toList taken :=
    fun s' hs' => (h.cuts_of_mem_slots hs').imp fun _ htaken => htaken.1
  obtain ⟨hleft, hright⟩ := cuts_beside_leaf h.spelled hm (hnode ▸ hlist)
  obtain ⟨_, hfront⟩ := h.cuts.start.between hleft hbefore.le
  obtain ⟨_, hrest⟩ := hright.between h.cuts.stop hbehind.le
  have hfill := fillSlots_of_instantiate hout
  rw [hslots] at hfill hcuts
  obtain ⟨left, v, right, hleft', hv, hright', rfl⟩ := fillSlots_append hfill
  obtain rfl := Option.some.inj (hb.symm.trans hv)
  obtain ⟨front, hfront', rfl⟩ := fillSlots_upto (fun s' hs' => hcuts s' (by simp [hs'])) hbefore hfront hleft
    (hnode ▸ hleft')
  obtain ⟨rest, hrest', rfl⟩ := fillSlots_from (fun s' hs' => hcuts s' (by simp [hs'])) hbehind hrest hright
    (hnode ▸ hright')
  refine ⟨before, behind, front, rest, hslots, hfront', hrest', ?_⟩
  have hnone : s.fill source (.run [] anchor) = "" := Text.slice_self source anchor
  rw [hnone, String.append_empty, String.ofList_append, String.ofList_append]
  simp only [String.ofList_toList, String.append_assoc]

/-- Whether a node is the bare token with a text. -/
def isToken (x : String) (n : Node) : Bool := n.isLeaf && !n.isNamed && n.leafText == x

theorem exists_of_isToken {n : Node} (h : isToken x n = true) :
    ∃ l tr, n = .leaf l tr x ∧ l.kind.isNamed = false := by
  obtain ⟨h, htext⟩ := (Bool.and_eq_true _ _).mp h
  obtain ⟨hleaf, hbare⟩ := (Bool.and_eq_true _ _).mp h
  cases n with
  | leaf l tr y =>
      obtain rfl : y = x := beq_iff_eq.mp htext
      exact ⟨l, tr, rfl, by simpa [Node.isNamed, Node.kind, Node.label] using hbare⟩
  | branch l cs => exact absurd hleaf (by simp [Node.isLeaf])

/-- A run of no nodes as the last argument. -/
theorem instantiate_of_empty_run_last : ∃ (t : Template) (s : Slot) (front tr tr₂ rest : String),
    Template.compile "g(x, $$$ARGS);" [] = .ok t ∧ s ∈ t.slots ∧
    instantiate t ⟨[("ARGS", .run [] 0)]⟩ "" = .ok (front ++ "," ++ tr ++ tr₂ ++ ")" ++ rest) := by
  have h : ((Template.compile "g(x, $$$ARGS);" []).toOption.any fun t =>
      (instantiate t ⟨[("ARGS", .run [] 0)]⟩ "").toOption.isSome && t.slots.any fun s =>
        s.name == "ARGS" && s.node.isLeaf && s.parent.any fun m =>
          m.children[2]?.any (isToken ",") && (m.children[3]?.any fun c => c.span == s.node.span) &&
          m.children[4]?.any (isToken ")")) = true := by
    decide +kernel
  obtain ⟨t, ht, h⟩ := (Option.any_eq_true _ _).mp h
  obtain ⟨hout, h⟩ := (Bool.and_eq_true _ _).mp h
  obtain ⟨out, hout⟩ := Option.isSome_iff_exists.mp hout
  obtain ⟨s, hs, h⟩ := List.any_eq_true.mp h
  obtain ⟨h, hm⟩ := (Bool.and_eq_true _ _).mp h
  obtain ⟨hname, hleaf⟩ := (Bool.and_eq_true _ _).mp h
  obtain ⟨m, hparent, hm⟩ := (Option.any_eq_true _ _).mp hm
  obtain ⟨hm, hlast⟩ := (Bool.and_eq_true _ _).mp hm
  obtain ⟨hfirst, hmiddle⟩ := (Bool.and_eq_true _ _).mp hm
  obtain ⟨a, ha, hfirst⟩ := (Option.any_eq_true _ _).mp hfirst
  obtain ⟨c, hc, hspan⟩ := (Option.any_eq_true _ _).mp hmiddle
  obtain ⟨d, hd, hlast⟩ := (Option.any_eq_true _ _).mp hlast
  obtain ⟨l₁, tr₁, rfl, hbare₁⟩ := exists_of_isToken hfirst
  obtain ⟨l₂, tr₂, rfl, hbare₂⟩ := exists_of_isToken hlast
  have ht := Attempts.toOption_eq_some.mp ht
  have hout := Attempts.toOption_eq_some.mp hout
  -- the child with the range of the slot is its node
  obtain rfl : c = s.node := by
    obtain ⟨_, _, _, _, hstands⟩ := Template.exists_stands ht
    rcases hstands.parent_of_mem_slots hs with hnone | ⟨m', hm', hparent', hchild, -⟩
    · exact absurd (hparent.symm.trans hnone) (by simp)
    · obtain rfl := Option.some.inj (hparent.symm.trans hparent')
      have horder := (hstands.spelled.nested.of_mem_listing hm').1.children.1
      exact Syntax.eq_of_span_eq horder (List.mem_of_getElem? hc) hchild (beq_iff_eq.mp hspan)
  have hlist : [.leaf l₁ tr₁ ",", s.node, .leaf l₂ tr₂ ")"] <:+: m.children := by
    have hrest : m.children.drop 2 = .leaf l₁ tr₁ "," :: s.node :: .leaf l₂ tr₂ ")" :: m.children.drop 5 := by
      simp only [List.drop_eq_getElem?_toList_append (l := m.children) (i := 2),
        List.drop_eq_getElem?_toList_append (l := m.children) (i := 3),
        List.drop_eq_getElem?_toList_append (l := m.children) (i := 4), ha, hc, hd]
      rfl
    have hthree : [.leaf l₁ tr₁ ",", s.node, .leaf l₂ tr₂ ")"] <+: m.children.drop 2 := ⟨_, hrest.symm⟩
    exact hthree.isInfix.trans (List.drop_suffix 2 m.children).isInfix
  cases hnode : s.node with
  | branch l cs =>
      rw [hnode] at hleaf
      exact absurd hleaf (by simp [Node.isLeaf])
  | leaf l tr p =>
      have hb : (Binding.mk [("ARGS", .run [] 0)]).get? s.name = some (.run [] 0) := by
        rw [eq_of_beq hname]
        rfl
      obtain ⟨_, _, front, rest, -, -, -, rfl⟩ :=
        instantiate_of_empty_run ht hout hs hb hparent hnode hlist hbare₁ hbare₂
      exact ⟨t, s, front, tr, tr₂, rest, ht, hs, hout⟩

/-- The comma in front of a run of no nodes stays, and what is made of the text is no Java. -/
theorem apply_keeps_comma : ∃ r t o anchor,
    (RuleDraft.simple "Fuse" "f($X).g($$$ARGS)" "h($X, $$$ARGS)").build = .ok r ∧
    Java.parse? "class T { void t(int a) { f(a).g(); } }" = some t ∧ o ∈ occurrences r t (.ofTree t) ∧
    o.site.binding.get? "ARGS" = some (.run [] anchor) ∧
    instantiate r.templates.after o.site.binding t.source = .ok "h(a, )" ∧
    apply false r "class T { void t(int a) { f(a).g(); } }" = .error (.invariant (.invalidOutput "Fuse")) := by
  have h : ((RuleDraft.simple "Fuse" "f($X).g($$$ARGS)" "h($X, $$$ARGS)").build.toOption.any fun r =>
      decide (apply false r "class T { void t(int a) { f(a).g(); } }" =
        .error (.invariant (.invalidOutput "Fuse"))) &&
      (Java.parse? "class T { void t(int a) { f(a).g(); } }").any fun t =>
        (occurrences r t (.ofTree t)).any fun o =>
          ((o.site.binding.get? "ARGS").any fun v => v.shape == .run && v.nodes.isEmpty) &&
          decide (instantiate r.templates.after o.site.binding t.source = .ok "h(a, )")) = true := by
    decide +kernel
  obtain ⟨r, hr, h⟩ := (Option.any_eq_true _ _).mp h
  obtain ⟨happly, h⟩ := (Bool.and_eq_true _ _).mp h
  obtain ⟨t, ht, h⟩ := (Option.any_eq_true _ _).mp h
  obtain ⟨o, ho, h⟩ := List.any_eq_true.mp h
  obtain ⟨hv, hout⟩ := (Bool.and_eq_true _ _).mp h
  obtain ⟨v, hv, hempty⟩ := (Option.any_eq_true _ _).mp hv
  obtain ⟨hshape, hnodes⟩ := (Bool.and_eq_true _ _).mp hempty
  cases v with
  | node n => exact absurd (beq_iff_eq.mp hshape) (by simp [Bound.shape])
  | run ns anchor =>
      obtain rfl := List.isEmpty_iff.mp hnodes
      exact ⟨r, t, o, anchor, Attempts.toOption_eq_some.mp hr, ht, ho, hv, of_decide_eq_true hout,
        of_decide_eq_true happly⟩

/-! ## Statements -/

/-- No list of statements, and no construct that has statements as parts, asks for parentheses. -/
theorem needsParentheses_of_statements (h : Java.isStatementList m = true ∨ m.kindName ∈ Java.holderKinds)
    (slot : Node) (inner : Nat) : Java.needsParentheses m slot inner = false := by
  have hkind : m.kindName ∈ Java.listKinds ++ Java.holderKinds :=
    List.mem_append.mpr (h.imp List.contains_iff_mem.mp id)
  have hother : [Category.token, .compilationUnit, .block, .conditional, .other].contains m.category = true := by
    unfold Node.category
    unfold Node.kindName at hkind
    cases hname : m.kind with
    | token text => rfl
    | named name =>
        rw [hname] at hkind
        simp only [Java.listKinds, Java.holderKinds, Syntax.Kind.name, List.cons_append, List.nil_append,
          List.mem_cons, List.not_mem_nil, or_false] at hkind
        rcases hkind with rfl | rfl | rfl | rfl | rfl | rfl | rfl | rfl | rfl | rfl | rfl <;> rfl
  unfold Java.needsParentheses
  split
  · rfl
  · simp only [List.contains_iff_mem, List.mem_cons, List.not_mem_nil, or_false] at hother
    rcases hother with hc | hc | hc | hc | hc <;> rw [hc]

/-- Only one kind of constructs is an expression in parentheses. -/
theorem eq_of_ofConstruct {name text : String} (h : Category.ofConstruct name text = .parenthesized) :
    name = "parenthesized_expression" := by
  unfold Category.ofConstruct at h
  split at h
  · cases h
  · split at h
    · cases h
    · split at h <;> first | rfl | cases h

/-- An expression in parentheses is no statement. -/
theorem isStatement_of_insideParentheses {n e : Node} (h : insideParentheses? n = some e) : isStatement n = false := by
  unfold insideParentheses? at h
  split at h
  · rename_i hcategory
    rw [← Bool.not_eq_true]
    intro hstatement
    obtain ⟨hnamed, -, hkind⟩ := Java.Trait.holds_among.mp hstatement
    unfold Node.category at hcategory
    unfold Node.isNamed at hnamed
    unfold Node.kindName at hkind
    cases hname : n.kind with
    | token text =>
        rw [hname] at hnamed
        cases hnamed
    | named name =>
        rw [hname] at hcategory hkind
        obtain rfl := eq_of_ofConstruct hcategory
        exact absurd hkind (by decide)
  · exact absurd h (by simp)

section

variable {code : String} {ls part : List Java.Lexeme} {nodes : List Node} (h : t.Stands code ls part nodes)
  (hs : s ∈ t.slots) (hstatement : s.node.isKind Java.statementKind = true)

include h hs hstatement

/-- A slot that is a statement is a placeholder with its semicolon. -/
theorem children_of_statement : ∃ l₀ l₁ tr l₂ gap, s.node =
    .branch l₀ [.leaf l₁ tr (Metavariable.placeholder s.name), .leaf l₂ gap ";"] := by
  obtain ⟨hmem, v, hv, hname⟩ := h.placed_of_mem_slots hs
  have hclosed : Java.Closed s.node := fun k hk => h.closed k (Node.mem_listing_trans hmem hk)
  cases hnode : s.node with
  | leaf l tr p =>
      rw [hnode] at hv hstatement
      have hkind : (Node.leaf l tr p).isKind "expression_statement" = true := hstatement
      simp [Template.metavariableAt?, Template.placeholderLeaf?, hkind, Node.namedChildren, Node.children] at hv
  | branch l₀ cs =>
      rw [hnode] at hv hstatement hclosed
      obtain ⟨-, l₁, tr, hleaf | ⟨-, honly⟩⟩ := Template.metavariableAt?_inv hv
      · exact absurd hleaf (by simp)
      · obtain ⟨l₂, gap, hchildren⟩ := hclosed.children_of_namedChildren hstatement honly
        obtain rfl : cs = _ := hchildren
        exact ⟨l₀, l₁, tr, l₂, gap, by rw [hname]⟩

/-- It takes both out of the text of the tree, and what stands between them. -/
theorem cuts_of_statement : ∃ gap, s.node.span.Cuts t.tree.source.toList
    (Metavariable.placeholder s.name ++ gap ++ ";").toList := by
  obtain ⟨hmem, -⟩ := h.placed_of_mem_slots hs
  obtain ⟨l₀, l₁, tr, l₂, gap, hnode⟩ := children_of_statement h hs hstatement
  refine ⟨gap, ?_⟩
  rcases h.spelled.root_or_covers hmem with hroot | ⟨part, hpart, hcovers⟩
  · rw [hroot, h.spelled.root] at hstatement
    exact absurd (Syntax.Kind.named.inj (beq_iff_eq.mp hstatement)) (by decide)
  · obtain ⟨l, part, rfl⟩ := hcovers.exists_cons
    have hprint : s.node.print = Metavariable.placeholder s.name ++ gap ++ ";" := by
      rw [hnode]
      simp [Node.print, Node.tokens, Node.tokensAll, Node.printAll, Node.fullText, Node.leafText, Node.text?,
        String.append_assoc]
    rw [← hprint, hcovers.span_eq, hcovers.print_eq]
    exact h.spelled.cuts_extent hpart

end

/-- **A slot that is a statement** is replaced, with its semicolon, by the text of the node that its name is bound
    to, or of the expression in the node's parentheses: a statement with what it ends in, an expression as it is. -/
theorem instantiate_of_statement {code : String} {ds : List Declaration} {before behind : List Slot} {n : Node}
    (ht : Template.compile code ds = .ok t) (hout : instantiate t b source = .ok out)
    (hslots : t.slots = before ++ s :: behind) (hstatement : s.node.isKind Java.statementKind = true)
    (hb : b.get? s.name = some (.node n)) :
    ∃ gap front rest e,
      s.node.span.Cuts t.tree.source.toList (Metavariable.placeholder s.name ++ gap ++ ";").toList ∧
      fillSlots t.tree.source source b s.node.span.start (spanOf t.roots).start before = .ok front ∧
      fillSlots t.tree.source source b (spanOf t.roots).stop s.node.span.stop behind = .ok rest ∧
      (e = n ∨ insideParentheses? n = some e) ∧ (isStatement n = true → e = n) ∧
      out = front ++ slice source e.span ++ rest := by
  obtain ⟨text, ls, part, nodes, h⟩ := Template.exists_stands ht
  have hs : s ∈ t.slots := by
    rw [hslots]
    exact List.mem_append_right _ (List.mem_cons_self ..)
  obtain ⟨gap, hcuts⟩ := cuts_of_statement h hs hstatement
  have hfill := fillSlots_of_instantiate hout
  rw [hslots] at hfill
  obtain ⟨front, v, rest, hfront, hv, hrest, rfl⟩ := fillSlots_append hfill
  obtain rfl := Option.some.inj (hb.symm.trans hv)
  obtain ⟨e, he, htext⟩ : ∃ e, (e = n ∨ insideParentheses? n = some e) ∧
      s.fill source (.node n) = slice source e.span := by
    rcases h.parent_of_mem_slots hs with hnone | ⟨m, hm, hparent, hchild, -⟩
    · exact ⟨n, Or.inl rfl, by rw [Slot.fill, hnone]⟩
    · obtain ⟨_, _, hparse, -⟩ := Template.exists_placeOf? ht
      have hexpression : Java.isExpressionStatement s.node = true := by
        obtain ⟨l₀, l₁, tr, l₂, gap, hnode⟩ := children_of_statement h hs hstatement
        rw [hnode] at hstatement ⊢
        have hkind : l₀.kind = .named Java.statementKind := beq_iff_eq.mp hstatement
        refine Java.Trait.holds_among.mpr ⟨?_, rfl, ?_⟩
        · exact congrArg Syntax.Kind.isNamed hkind
        · exact List.mem_singleton.mpr (congrArg Syntax.Kind.name hkind)
      have hplace := Java.parent_of_expressionStatement hparse hm hchild hexpression
      have hbare := needsParentheses_of_statements hplace s.node
      rcases textForNode_cases source m s.node n with ⟨e, he, -, htext⟩ | ⟨hneeds, -⟩
      · exact ⟨e, he, by rw [Slot.fill, hparent]; exact htext⟩
      · rw [hbare] at hneeds
        exact absurd hneeds (by simp)
  refine ⟨gap, front, rest, e, hcuts, hfront, hrest, he, ?_, by rw [htext]⟩
  intro hn
  refine he.resolve_right fun hinside => ?_
  rw [isStatement_of_insideParentheses hinside] at hn
  exact absurd hn (by simp)

/-- A name in the place of a statement that is part of another one. -/
theorem instantiate_of_statement_name : ∃ (t : Template) (s : Slot) (gap front rest : String),
    Template.compile "if (c) $X;" [] = .ok t ∧ t.slots = [s] ∧
    s.node.span.Cuts t.tree.source.toList (Metavariable.placeholder "X" ++ gap ++ ";").toList ∧
    instantiate t ⟨[("X", .node (.leaf ⟨.named "identifier", none, ⟨0, 1⟩⟩ "" "a"))]⟩ "a" =
      .ok (front ++ "a" ++ rest) := by
  let n : Node := .leaf ⟨.named "identifier", none, ⟨0, 1⟩⟩ "" "a"
  have h : ((Template.compile "if (c) $X;" []).toOption.any fun t =>
      (instantiate t ⟨[("X", .node n)]⟩ "a").toOption.isSome && t.slots.length == 1 && t.slots.all fun s =>
        s.name == "X" && s.node.isKind Java.statementKind) = true := by
    decide +kernel
  obtain ⟨t, ht, h⟩ := (Option.any_eq_true _ _).mp h
  obtain ⟨h, hall⟩ := (Bool.and_eq_true _ _).mp h
  obtain ⟨hout, hone⟩ := (Bool.and_eq_true _ _).mp h
  obtain ⟨out, hout⟩ := Option.isSome_iff_exists.mp hout
  obtain ⟨s, hslots⟩ := List.length_eq_one_iff.mp (beq_iff_eq.mp hone)
  have hs := List.all_eq_true.mp hall s (by rw [hslots]; exact List.mem_singleton_self s)
  obtain ⟨hname, hstatement⟩ := (Bool.and_eq_true _ _).mp hs
  have hname : s.name = "X" := beq_iff_eq.mp hname
  have ht := Attempts.toOption_eq_some.mp ht
  have hout := Attempts.toOption_eq_some.mp hout
  have hb : (Binding.mk [("X", .node n)]).get? s.name = some (.node n) := by
    rw [hname]
    rfl
  have honly : t.slots = [] ++ s :: [] := hslots
  obtain ⟨gap, front, rest, e, hcuts, -, -, he, -, rfl⟩ := instantiate_of_statement ht hout honly hstatement hb
  have hbare : insideParentheses? n = none := rfl
  obtain rfl : e = n := he.resolve_right (by rw [hbare]; simp)
  exact ⟨t, s, gap, front, rest, ht, hslots, hname ▸ hcuts, hout⟩

/-- An expression in the place of a statement comes without the semicolon, and what is made of the text is no Java. -/
theorem apply_drops_semicolon : ∃ r t o n,
    (RuleDraft.simple "Unwrap" "run($X);" "$X;").build = .ok r ∧
    Java.parse? "class T { void t() { run(a()); } }" = some t ∧ o ∈ occurrences r t (.ofTree t) ∧
    o.site.binding.get? "X" = some (.node n) ∧ isStatement n = false ∧ Text.slice t.source n.span = "a()" ∧
    instantiate r.templates.after o.site.binding t.source = .ok "a()" ∧
    apply false r "class T { void t() { run(a()); } }" = .error (.invariant (.invalidOutput "Unwrap")) := by
  have h : ((RuleDraft.simple "Unwrap" "run($X);" "$X;").build.toOption.any fun r =>
      decide (apply false r "class T { void t() { run(a()); } }" =
        .error (.invariant (.invalidOutput "Unwrap"))) &&
      (Java.parse? "class T { void t() { run(a()); } }").any fun t =>
        (occurrences r t (.ofTree t)).any fun o =>
          ((o.site.binding.node? "X").any fun n => !isStatement n && Text.slice t.source n.span == "a()") &&
          decide (instantiate r.templates.after o.site.binding t.source = .ok "a()")) = true := by
    decide +kernel
  obtain ⟨r, hr, h⟩ := (Option.any_eq_true _ _).mp h
  obtain ⟨happly, h⟩ := (Bool.and_eq_true _ _).mp h
  obtain ⟨t, ht, h⟩ := (Option.any_eq_true _ _).mp h
  obtain ⟨o, ho, h⟩ := List.any_eq_true.mp h
  obtain ⟨hn, hout⟩ := (Bool.and_eq_true _ _).mp h
  obtain ⟨n, hn, hexpression⟩ := (Option.any_eq_true _ _).mp hn
  obtain ⟨hkind, htext⟩ := (Bool.and_eq_true _ _).mp hexpression
  exact ⟨r, t, o, n, Attempts.toOption_eq_some.mp hr, ht, ho, Binding.node?_eq_some.mp hn, by simpa using hkind,
    beq_iff_eq.mp htext, of_decide_eq_true hout, of_decide_eq_true happly⟩

end JavaRefactor.Pass

import JavaRefactor.Proofs.Java.Derives
import JavaRefactor.Proofs.Syntax.Listing
import Mathlib.Data.List.Chain

/-!
# `Proofs.Java.Neighbours` — which nodes stand side by side

Which nodes a production yields is left open by choices and repetitions, but of what sort the first and the
last of them can be, and which sorts can meet inside, is seen from the production. So a table of productions
can be checked for what never stands side by side under one node.

## Contents
- **`Trait`**, a sort of nodes.
- **`Layout`**: two sorts that never meet but in lists, and the sort that the elements of lists are of.
  **`Layout.Ordered`**, the nodes of which this holds.
- **`Shape`**, what is known of a list of nodes, and **`Layout.Shaped`**, the lists of which it is true.
- **`Production.shape`** and **`Production.keeps`**, read off a production, and **`shaped_of_derives`**: what a
  production yields is of its shape.
-/

namespace JavaRefactor.Java

open Syntax (Node Kind Label)

/-! ## Sorts of nodes -/

/-- A sort of nodes: which bare tokens are of it, by their text, whether constructs without children are,
    and which constructs with children are, by their kind. The ends of a list count as being of the sort if
    `edge` says so. -/
structure Trait where
  token : String → Bool
  leaf : Bool
  branch : String → Bool
  edge : Bool

namespace Trait

/-- Whether a node is of the sort. -/
def holds (P : Trait) (n : Node) : Bool :=
  if n.isNamed then if n.isLeaf then P.leaf else P.branch n.kindName else P.token n.kindName

/-- All nodes. -/
def all : Trait := ⟨fun _ => true, true, fun _ => true, false⟩

/-- All constructs. -/
def named : Trait := ⟨fun _ => false, true, fun _ => true, false⟩

/-- The constructs with children of one of some kinds. -/
def among (kinds : List String) : Trait := ⟨fun _ => false, false, kinds.contains, false⟩

@[simp] theorem holds_named (n : Node) : named.holds n = n.isNamed := by
  unfold holds named
  cases n.isNamed <;> cases n.isLeaf <;> rfl

@[simp] theorem holds_all (n : Node) : all.holds n = true := by
  unfold holds all
  cases n.isNamed <;> cases n.isLeaf <;> rfl

theorem holds_among {kinds : List String} {n : Node} :
    (among kinds).holds n = true ↔ n.isNamed = true ∧ n.isLeaf = false ∧ n.kindName ∈ kinds := by
  unfold holds among
  cases n.isNamed <;> cases n.isLeaf <;> simp

/-- The sort of a node is that of its kind, and whether it has children. -/
theorem holds_congr (P : Trait) {n m : Node} (hkind : n.kind = m.kind) (hleaf : n.isLeaf = m.isLeaf) :
    P.holds n = P.holds m := by
  unfold holds Node.isNamed Node.kindName
  rw [hkind, hleaf]

@[simp] theorem holds_withField (P : Trait) (role : String) (n : Node) :
    P.holds (n.withField role) = P.holds n := by
  cases n <;> rfl

/-- Two constructs that agree are of the same sorts. -/
theorem holds_of_same (P : Trait) {n m : Node} (h : n.same m = true) (hn : n.isNamed = true)
    (hm : m.isNamed = true) : P.holds n = P.holds m := by
  unfold holds
  rw [hn, hm]
  cases n with
  | leaf l tr x =>
      cases m with
      | leaf l' tr' x' => rfl
      | branch l' cs' => exact absurd h (by simp [Node.same])
  | branch l cs =>
      cases m with
      | leaf l' tr' x' => exact absurd h (by simp [Node.same])
      | branch l' cs' =>
          simp only [Node.same, Bool.and_eq_true, beq_iff_eq] at h
          exact congrArg P.branch h.1

end Trait

/-! ## Layouts -/

/-- What is asked of the children of every node: under a node of a kind for lists they are all of one sort, and
    under any other node none of a first sort stands right in front of one of a second, where the ends of the
    children count as nodes of these sorts if they are. -/
structure Layout where
  first : Trait
  second : Trait
  item : Trait
  isList : String → Bool

namespace Layout

variable (L : Layout)

/-- No node of the first sort stands right in front of one of the second. -/
def Parted (ns : List Node) : Prop :=
  ns.IsChain fun x y => ¬ (L.first.holds x = true ∧ L.second.holds y = true)

/-- The ends of a list do not meet a node of the other sort. -/
def Free (ns : List Node) : Prop :=
  (L.first.edge = true → ∀ x ∈ ns.head?, ¬ L.second.holds x = true) ∧
    (L.second.edge = true → ∀ x ∈ ns.getLast?, ¬ L.first.holds x = true)

/-- What is asked of the children of a node of a kind. -/
def Allows (kind : String) (ns : List Node) : Prop :=
  if L.isList kind = true then ∀ x ∈ ns, L.item.holds x = true else L.Parted ns ∧ L.Free ns

/-- In and below a node, the children of every node are as they are asked to be. -/
def Ordered (n : Node) : Prop :=
  ∀ m ∈ n.listing, L.Allows m.kindName m.children

variable {L}

theorem parted_nil : L.Parted [] := List.IsChain.nil

theorem free_nil : L.Free [] := ⟨fun _ _ hx => absurd hx (by simp), fun _ _ hx => absurd hx (by simp)⟩

theorem Ordered.leaf (l : Label) (tr x : String) : L.Ordered (.leaf l tr x) := by
  intro m hm
  rw [Node.listing, List.mem_singleton] at hm
  subst hm
  show L.Allows _ []
  unfold Allows
  split
  · exact fun x hx => absurd hx (by simp)
  · exact ⟨parted_nil, free_nil⟩

theorem Ordered.branch {l : Label} {cs : List Node} (hcs : ∀ c ∈ cs, L.Ordered c)
    (h : L.Allows l.kind.name cs) : L.Ordered (.branch l cs) := by
  intro m hm
  rw [Node.listing, List.mem_cons] at hm
  rcases hm with rfl | hm
  · exact h
  · obtain ⟨c, hc, hm⟩ := Node.mem_listingAll_iff.mp hm
    exact hcs c hc m hm

theorem Ordered.of_mem_children {n c : Node} (h : L.Ordered n) (hc : c ∈ n.children) : L.Ordered c := by
  intro m hm
  exact h m (Node.mem_listing_trans (Node.mem_listing_of_mem_children hc) hm)

theorem Ordered.withField {n : Node} (h : L.Ordered n) (role : String) : L.Ordered (n.withField role) := by
  cases n with
  | leaf l tr x => exact leaf _ tr x
  | branch l cs => exact branch (fun c hc => h.of_mem_children hc) (h _ (Node.mem_listing_self _))

variable {root m x y : Node}

/-- Nodes of the two sorts meet in lists only. -/
theorem Ordered.isList_of_meet (h : L.Ordered root) (hm : m ∈ root.listing) (hxy : [x, y] <:+: m.children)
    (hx : L.first.holds x = true) (hy : L.second.holds y = true) : L.isList m.kindName = true := by
  have hallows := h m hm
  unfold Allows at hallows
  split at hallows
  · assumption
  · have hpair : L.Parted [x, y] := List.IsChain.infix hallows.1 hxy
    exact absurd ⟨hx, hy⟩ (List.isChain_pair.mp hpair)

/-- If the start counts as of the first sort, a node of the second is the first child in lists only. -/
theorem Ordered.isList_of_head (h : L.Ordered root) (hm : m ∈ root.listing) (hedge : L.first.edge = true)
    (hx : x ∈ m.children.head?) (hsecond : L.second.holds x = true) : L.isList m.kindName = true := by
  have hallows := h m hm
  unfold Allows at hallows
  split at hallows
  · assumption
  · exact absurd hsecond (hallows.2.1 hedge x hx)

/-- If the end counts as of the second sort, a node of the first is the last child in lists only. -/
theorem Ordered.isList_of_last (h : L.Ordered root) (hm : m ∈ root.listing) (hedge : L.second.edge = true)
    (hx : x ∈ m.children.getLast?) (hfirst : L.first.holds x = true) : L.isList m.kindName = true := by
  have hallows := h m hm
  unfold Allows at hallows
  split at hallows
  · assumption
  · exact absurd hfirst (hallows.2.2 hedge x hx)

/-- The elements of lists are of one sort. -/
theorem Ordered.item_of_isList (h : L.Ordered root) (hm : m ∈ root.listing)
    (hlist : L.isList m.kindName = true) (hx : x ∈ m.children) : L.item.holds x = true := by
  have hallows := h m hm
  unfold Allows at hallows
  rw [if_pos hlist] at hallows
  exact hallows x hx

end Layout

/-! ## Shapes -/

/-- What is known of a list of nodes: whether it can be empty, whether its first node can be of the second
    sort and its last one of the first, whether these sorts can meet in it, and whether a node in it can be
    no element of a list. -/
structure Shape where
  empty : Bool
  starts : Bool
  ends : Bool
  meets : Bool
  mixed : Bool
  deriving DecidableEq, Repr

namespace Shape

/-- The shape of no node. -/
def none : Shape := ⟨true, false, false, false, false⟩

/-- The shape of one list behind another. -/
def append (s t : Shape) : Shape where
  empty := s.empty && t.empty
  starts := s.starts || (s.empty && t.starts)
  ends := t.ends || (t.empty && s.ends)
  meets := s.meets || t.meets || (s.ends && t.starts)
  mixed := s.mixed || t.mixed

/-- The shape of one list or another. -/
def join (s t : Shape) : Shape :=
  ⟨s.empty || t.empty, s.starts || t.starts, s.ends || t.ends, s.meets || t.meets, s.mixed || t.mixed⟩

/-- The shape of any number of lists one behind the other. -/
def again (s : Shape) : Shape :=
  ⟨true, s.starts, s.ends, s.meets || (s.ends && s.starts), s.mixed⟩

/-- Whether all that is possible by one shape is possible by another. -/
def le (s t : Shape) : Bool :=
  (s.empty → t.empty) && (s.starts → t.starts) && (s.ends → t.ends) && (s.meets → t.meets) &&
    (s.mixed → t.mixed)

theorem le_join_left (s t : Shape) : s.le (s.join t) = true := by
  simp +contextual [le, join]

theorem le_join_right (s t : Shape) : t.le (s.join t) = true := by
  simp +contextual [le, join]

theorem le_refl (s : Shape) : s.le s = true := by
  simp [le]

theorem join_le {s t u : Shape} (h : s.le u = true) (h' : t.le u = true) : (s.join t).le u = true := by
  simp only [le, join, Bool.and_eq_true, decide_eq_true_eq, Bool.or_eq_true] at h h' ⊢
  obtain ⟨⟨⟨⟨hempty, hstarts⟩, hends⟩, hmeets⟩, hmixed⟩ := h
  obtain ⟨⟨⟨⟨hempty', hstarts'⟩, hends'⟩, hmeets'⟩, hmixed'⟩ := h'
  exact ⟨⟨⟨⟨Or.rec hempty hempty', Or.rec hstarts hstarts'⟩, Or.rec hends hends'⟩,
    Or.rec hmeets hmeets'⟩, Or.rec hmixed hmixed'⟩

theorem none_le_again (s : Shape) : none.le s.again = true := by
  simp [le, none, again]

/-- One list more is any number of lists. -/
theorem append_again_le (s : Shape) : (s.append s.again).le s.again = true := by
  simp only [le, append, again, Bool.and_eq_true, decide_eq_true_eq, Bool.or_eq_true]
  tauto

end Shape

namespace Layout

variable (L : Layout)

/-- The shape of a bare token. -/
def tokenShape (content : String) : Shape :=
  ⟨false, L.second.token content, L.first.token content, false, !L.item.token content⟩

/-- The shape of a construct without children. -/
def leafShape : Shape := ⟨false, L.second.leaf, L.first.leaf, false, !L.item.leaf⟩

/-- The shape of a leaf of a kind. -/
def kindShape : Kind → Shape
  | .token content => L.tokenShape content
  | .named _ => L.leafShape

/-- The shape of a branch. -/
def branchShape (kind : String) : Shape :=
  ⟨false, L.second.branch kind, L.first.branch kind, false, !L.item.branch kind⟩

/-- A list of ordered nodes of which a shape is true. -/
structure Shaped (s : Shape) (ns : List Node) : Prop where
  empty : ns = [] → s.empty = true
  starts : ∀ x ∈ ns.head?, L.second.holds x = true → s.starts = true
  ends : ∀ x ∈ ns.getLast?, L.first.holds x = true → s.ends = true
  meets : s.meets = false → L.Parted ns
  mixed : s.mixed = false → ∀ x ∈ ns, L.item.holds x = true
  ordered : ∀ x ∈ ns, L.Ordered x

namespace Shaped

variable {L} {s t : Shape} {ns ms : List Node}

theorem nil : L.Shaped .none [] where
  empty _ := rfl
  starts _ hx _ := absurd hx (by simp)
  ends _ hx _ := absurd hx (by simp)
  meets _ := parted_nil
  mixed _ _ hx := absurd hx (by simp)
  ordered _ hx := absurd hx (by simp)

/-- A single node. -/
theorem single {n : Node} (ho : L.Ordered n) :
    L.Shaped ⟨false, L.second.holds n, L.first.holds n, false, !L.item.holds n⟩ [n] where
  empty h := absurd h (by simp)
  starts x hx h := by
    obtain rfl : n = x := by simpa using hx
    exact h
  ends x hx h := by
    obtain rfl : n = x := by simpa using hx
    exact h
  meets _ := List.isChain_singleton n
  mixed h x hx := by
    rw [List.mem_singleton.mp hx]
    simpa using h
  ordered x hx := by
    rw [List.mem_singleton.mp hx]
    exact ho

/-- One list behind another. -/
theorem append (h : L.Shaped s ns) (h' : L.Shaped t ms) : L.Shaped (s.append t) (ns ++ ms) where
  empty he := by
    obtain ⟨hns, hms⟩ := List.append_eq_nil_iff.mp he
    simp [Shape.append, h.empty hns, h'.empty hms]
  starts x hx hs := by
    cases ns with
    | nil => simp [Shape.append, h.empty rfl, h'.starts x hx hs]
    | cons n ns => simp [Shape.append, h.starts x hx hs]
  ends x hx hs := by
    cases hms : ms with
    | nil =>
        rw [hms, List.append_nil] at hx
        simp [Shape.append, h'.empty hms, h.ends x hx hs]
    | cons m ms' =>
        rw [List.getLast?_append_of_ne_nil ns (by simp [hms])] at hx
        simp [Shape.append, h'.ends x hx hs]
  meets hm := by
    simp only [Shape.append, Bool.or_eq_false_iff] at hm
    obtain ⟨⟨hs, ht⟩, hboth⟩ := hm
    refine List.isChain_append.mpr ⟨h.meets hs, h'.meets ht, ?_⟩
    rintro x hx y hy ⟨hfirst, hsecond⟩
    rw [h.ends x hx hfirst, h'.starts y hy hsecond] at hboth
    exact absurd hboth (by simp)
  mixed hm x hx := by
    simp only [Shape.append, Bool.or_eq_false_iff] at hm
    rcases List.mem_append.mp hx with hx | hx
    · exact h.mixed hm.1 x hx
    · exact h'.mixed hm.2 x hx
  ordered x hx := by
    rcases List.mem_append.mp hx with hx | hx
    · exact h.ordered x hx
    · exact h'.ordered x hx

theorem of_le (h : L.Shaped s ns) (hle : s.le t = true) : L.Shaped t ns := by
  simp only [Shape.le, Bool.and_eq_true, decide_eq_true_eq] at hle
  obtain ⟨⟨⟨⟨hempty, hstarts⟩, hends⟩, hmeets⟩, hmixed⟩ := hle
  refine ⟨fun he => hempty (h.empty he), fun x hx hs => hstarts (h.starts x hx hs),
    fun x hx hs => hends (h.ends x hx hs), fun hm => h.meets ?_, fun hm => h.mixed ?_, h.ordered⟩
  -- what is impossible by the larger shape is impossible by the smaller one
  · exact Bool.eq_false_iff.mpr fun hs => Bool.eq_false_iff.mp hm (hmeets hs)
  · exact Bool.eq_false_iff.mpr fun hs => Bool.eq_false_iff.mp hm (hmixed hs)

theorem withField (h : L.Shaped s ns) (role : String) : L.Shaped s (ns.map (Node.withField role)) where
  empty he := h.empty (List.map_eq_nil_iff.mp he)
  starts x hx hs := by
    rw [List.head?_map] at hx
    obtain ⟨y, hy, rfl⟩ := Option.map_eq_some_iff.mp hx
    exact h.starts y hy (by simpa using hs)
  ends x hx hs := by
    rw [List.getLast?_map] at hx
    obtain ⟨y, hy, rfl⟩ := Option.map_eq_some_iff.mp hx
    exact h.ends y hy (by simpa using hs)
  meets hm := by
    refine (List.isChain_map _).mpr ?_
    simp only [Trait.holds_withField]
    exact h.meets hm
  mixed hm x hx := by
    obtain ⟨y, hy, rfl⟩ := List.mem_map.mp hx
    simpa using h.mixed hm y hy
  ordered x hx := by
    obtain ⟨y, hy, rfl⟩ := List.mem_map.mp hx
    exact (h.ordered y hy).withField role

theorem construct {l : Label} {tr x : String} (hl : l.kind.isNamed = true) :
    L.Shaped L.leafShape [.leaf l tr x] := by
  have hholds : ∀ P : Trait, P.holds (.leaf l tr x) = P.leaf := by
    intro P
    show (if l.kind.isNamed then _ else _) = _
    rw [if_pos hl]
    rfl
  have hs : L.Shaped _ [.leaf l tr x] := single (.leaf l tr x)
  rwa [hholds, hholds, hholds] at hs

theorem leaf {kind : Kind} {l : Label} {tr x : String} (hl : l.kind = kind) :
    L.Shaped (L.kindShape kind) [.leaf l tr x] := by
  cases kind with
  | named name => exact construct (by rw [hl]; rfl)
  | token content =>
      have hholds : ∀ P : Trait, P.holds (.leaf l tr x) = P.token content := by
        intro P
        show (if l.kind.isNamed then _ else P.token l.kind.name) = _
        rw [hl]
        rfl
      have hs : L.Shaped _ [.leaf l tr x] := single (.leaf l tr x)
      rwa [hholds, hholds, hholds] at hs

theorem branchOf {kind : String} (h : L.Shaped s ns) (ha : L.Allows kind ns) :
    L.Shaped (L.branchShape kind) [Production.branchOf kind ns] := by
  have ho : L.Ordered (.branch ⟨.named kind, Option.none, Syntax.spanOf ns⟩ ns) := .branch h.ordered ha
  exact single ho

end Shaped

end Layout

namespace Production

variable {σ : Type}

/-! ## What can be seen from a production -/

/-- The shape of what a production yields, where `of` tells that of a symbol, and what is held is of shape
    `kept`. -/
def shape (L : Layout) (of : σ → Shape) : Shape → Production σ → Shape
  | _, .nothing | _, .tight | _, .finish | _, .ahead _ | _, .absent _ => .none
  | _, .text _ k | _, .fuse k _ => L.kindShape k
  | _, .name .. | _, .number | _, .formed .. => L.leafShape
  | kept, .seq a b => (shape L of kept a).append (shape L of kept b)
  | kept, .either a b => (shape L of kept a).join (shape L of kept b)
  | kept, .many a => (shape L of kept a).again
  | kept, .field _ a | kept, .only _ a | kept, .starting _ _ a => shape L of kept a
  | _, .node k _ => L.branchShape k
  | _, .ref s => of s
  | kept, .held | kept, .regrow _ => kept
  | kept, .hold a b => shape L of (shape L of kept a) b

/-- Whether a node of a kind may have children of a shape. -/
def admits (L : Layout) (kind : String) (s : Shape) : Bool :=
  if L.isList kind then !s.mixed
  else !s.meets && !(L.first.edge && s.starts) && !(L.second.edge && s.ends)

/-- Whether all nodes that a production makes have children as they are asked to be, and what it lets grow
    keeps its shape. -/
def keeps (L : Layout) (of : σ → Shape) : Shape → Production σ → Bool
  | kept, .seq a b | kept, .either a b => keeps L of kept a && keeps L of kept b
  | kept, .many a | kept, .field _ a | kept, .only _ a | kept, .starting _ _ a => keeps L of kept a
  | kept, .node k a => keeps L of kept a && admits L k (shape L of kept a)
  | kept, .hold a b => keeps L of kept a && keeps L of (shape L of kept a) b
  | kept, .regrow a => keeps L of kept a && (shape L of kept a).le kept
  | _, _ => true

/-! ## Reading -/

variable {L : Layout} {of : σ → Shape} {g : σ → Production σ} {p : Production σ} {kept s : Shape}
  {h xs : List Node} {ls rest : List Lexeme}

theorem allows_of_admits {kind : String} (hs : L.Shaped s xs) (ha : admits L kind s = true) :
    L.Allows kind xs := by
  unfold admits at ha
  unfold Layout.Allows
  split at ha
  · rename_i hlist
    rw [if_pos hlist]
    exact hs.mixed (by simpa using ha)
  · rename_i hlist
    rw [if_neg hlist]
    simp only [Bool.and_eq_true, Bool.not_eq_true', Bool.and_eq_false_iff] at ha
    obtain ⟨⟨hmeets, hstarts⟩, hends⟩ := ha
    refine ⟨hs.meets hmeets, fun hedge x hx hsecond => ?_, fun hedge x hx hfirst => ?_⟩
    · rw [hedge, hs.starts x hx hsecond] at hstarts
      exact absurd hstarts (by simp)
    · rw [hedge, hs.ends x hx hfirst] at hends
      exact absurd hends (by simp)

/-- A shape of each symbol that its production has. -/
def Table (L : Layout) (of : σ → Shape) (g : σ → Production σ) : Prop :=
  ∀ s, (keeps L of .none (g s) && (shape L of .none (g s)).le (of s)) = true

/-- **What a production yields** is of its shape. -/
theorem shaped_of_derives (hg : Table L of g) (hd : Derives g p h ls xs rest)
    (hp : keeps L of kept p = true) (hh : L.Shaped kept h) : L.Shaped (shape L of kept p) xs := by
  -- by the ways to read, whatever is held
  induction hd generalizing kept with
  | nothing | tight | finish | ahead | absent => exact .nil
  | text _ => exact .leaf rfl
  | name | number | formed => exact .construct rfl
  | seq _ _ iha ihb =>
      obtain ⟨ha, hb⟩ := (Bool.and_eq_true _ _).mp hp
      exact (iha ha hh).append (ihb hb hh)
  | left _ iha => exact (iha ((Bool.and_eq_true _ _).mp hp).1 hh).of_le (Shape.le_join_left _ _)
  | right _ ihb => exact (ihb ((Bool.and_eq_true _ _).mp hp).2 hh).of_le (Shape.le_join_right _ _)
  | done => exact Layout.Shaped.nil.of_le (Shape.none_le_again _)
  | @more a _ _ _ _ _ _ _ _ iha ihm =>
      have ha : keeps L of kept a = true := hp
      exact ((iha ha hh).append (ihm hp hh)).of_le (Shape.append_again_le _)
  | field _ iha => exact (iha hp hh).withField _
  | node _ iha =>
      obtain ⟨ha, hadmits⟩ := (Bool.and_eq_true _ _).mp hp
      have hs := iha ha hh
      exact hs.branchOf (allows_of_admits hs hadmits)
  | fuse _ hl _ =>
      unfold fused at hl
      split at hl
      · obtain rfl := Option.some.inj hl
        exact .leaf rfl
      · exact absurd hl (by simp)
  | @ref s _ _ _ _ _ ihs =>
      obtain ⟨hkeeps, hle⟩ := (Bool.and_eq_true _ _).mp (hg s)
      exact (ihs hkeeps .nil).of_le hle
  | held => exact hh
  | hold _ _ iha ihb =>
      obtain ⟨ha, hb⟩ := (Bool.and_eq_true _ _).mp hp
      exact ihb hb (iha ha hh)
  | kept => exact hh
  | grown _ _ iha ihr =>
      -- what has grown is of the same shape and held in its turn
      obtain ⟨ha, hle⟩ := (Bool.and_eq_true _ _).mp hp
      exact ihr hp ((iha ha hh).of_le hle)
  | @only _ a _ _ _ _ _ iha | @starting _ _ a _ _ _ _ _ iha =>
      have ha : keeps L of kept a = true := hp
      exact iha ha hh

end Production

end JavaRefactor.Java

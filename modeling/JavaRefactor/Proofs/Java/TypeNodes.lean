import JavaRefactor.Proofs.Java.Names
import JavaRefactor.Proofs.Types.Variables

/-!
# `Proofs.Java.TypeNodes` — there is a name in every type

A type is a name or a word for a primitive type, whatever else is written with it. A `?` is none: it stands for a type
argument only. So a node that is a type by its kind or by its role has a character in it that starts a name.

## Contents
- **`Worded`** nodes, and **`WritesTypes`**, what is asked of nodes that are types and of those that list types.
- **`Wording`**, what is known of a list of nodes, and `Wording.Holds`, the lists of which it is true.
- **`Production.wording`** and **`Production.writes`**, read off a production, and **`holds_of_derives`**.
- **`writes_table`**, for the productions of Java, and **`writesTypes_of_parse?`**.
-/

namespace JavaRefactor.Java

open Syntax (Node Kind Tree)
open Text (isNameStart)
open Types (charsOf typeKinds)

/-! ## Types in a tree -/

/-- A node with a character in it that starts a name. -/
def Worded (n : Node) : Prop := ∃ c ∈ charsOf n, isNameStart c = true

/-- Whether nodes of a kind are types. -/
def isTypeKind (kind : Kind) : Bool := typeKinds.any fun name => kind == .named name

/-- A node is worded if it is a type by its kind or its role, and so are the types that it lists as caught. -/
structure WritesTypes (n : Node) : Prop where
  type : isTypeKind n.kind = true ∨ n.field = some "type" → Worded n
  caught : n.isKind "catch_type" = true → ∀ c ∈ n.namedChildren, Worded c

/-- This holds in and below a node. -/
def WritesTypesIn (n : Node) : Prop := ∀ m ∈ n.listing, WritesTypes m

theorem worded_leaf {l : Syntax.Label} {tr x : String} (h : ∃ c ∈ x.toList, isNameStart c = true) :
    Worded (.leaf l tr x) := by
  obtain ⟨c, hc, hstart⟩ := h
  refine ⟨c, ?_, hstart⟩
  have hblank : c ≠ ' ' := by
    rintro rfl
    exact absurd hstart (by decide)
  rw [Types.charsOf_eq]
  simpa [Node.tokens, Node.leafText, Node.text?] using ⟨hc, hblank⟩

theorem worded_branch {l : Syntax.Label} {cs : List Node} (h : ∃ n ∈ cs, Worded n) : Worded (.branch l cs) := by
  obtain ⟨n, hn, c, hc, hstart⟩ := h
  refine ⟨c, ?_, hstart⟩
  rw [Types.charsOf_branch]
  exact List.mem_flatMap.mpr ⟨n, hn, hc⟩

theorem Worded.withField {n : Node} (h : Worded n) (role : String) : Worded (n.withField role) := by
  have hchars : charsOf (n.withField role) = charsOf n := by
    cases n with
    | leaf l tr x => rfl
    | branch l cs => rw [Node.withField, Types.charsOf_branch, Types.charsOf_branch]
  unfold Worded
  rwa [hchars]

theorem WritesTypesIn.leaf {l : Syntax.Label} {tr x : String} (hfield : l.field = none)
    (h : isTypeKind l.kind = true → ∃ c ∈ x.toList, isNameStart c = true) : WritesTypesIn (.leaf l tr x) := by
  intro m hm
  rw [Node.listing, List.mem_singleton] at hm
  subst hm
  refine ⟨?_, fun _ c hc => absurd hc (by simp [Node.namedChildren, Node.children])⟩
  rintro (hkind | hrole)
  · exact worded_leaf (h hkind)
  · exact absurd (hfield.symm.trans hrole) (by simp)

theorem WritesTypesIn.branch {l : Syntax.Label} {cs : List Node} (hcs : ∀ c ∈ cs, WritesTypesIn c)
    (h : WritesTypes (.branch l cs)) : WritesTypesIn (.branch l cs) := by
  intro m hm
  rw [Node.listing, List.mem_cons] at hm
  rcases hm with rfl | hm
  · exact h
  · obtain ⟨c, hc, hm⟩ := Node.mem_listingAll_iff.mp hm
    exact hcs c hc m hm

/-- A role may be given to a node, that of a type if it is worded. -/
theorem WritesTypesIn.withField {n : Node} (h : WritesTypesIn n) {role : String} (hrole : role = "type" → Worded n) :
    WritesTypesIn (n.withField role) := by
  obtain ⟨htype, hcaught⟩ := h n (Node.mem_listing_self n)
  have hself : WritesTypes (n.withField role) := by
    refine ⟨?_, ?_⟩
    · intro hnew
      refine Worded.withField ?_ role
      cases n with
      | leaf l tr x => exact hnew.elim (fun hkind => htype (Or.inl hkind)) fun he => hrole (Option.some.inj he)
      | branch l cs => exact hnew.elim (fun hkind => htype (Or.inl hkind)) fun he => hrole (Option.some.inj he)
    · cases n with
      | leaf l tr x => exact hcaught
      | branch l cs => exact hcaught
  cases n with
  | leaf l tr x =>
      intro m hm
      rw [Node.withField, Node.listing, List.mem_singleton] at hm
      rw [hm]
      exact hself
  | branch l cs =>
      exact .branch (fun c hc m hm => h m (Node.mem_listing_trans (Node.mem_listing_of_mem_children hc) hm)) hself

/-! ## Lists of nodes -/

/-- What is known of a list of nodes: whether one of them is worded, whether all constructs among them are, and whether
    there are only constructs. -/
structure Wording where
  one : Bool
  all : Bool
  constructs : Bool
  deriving DecidableEq, Repr

namespace Wording

/-- What is known of no node. -/
def none : Wording := ⟨false, true, true⟩

/-- What is known of a leaf of a kind, by its text. -/
def leaf (kind : Kind) (worded : Bool) : Wording := ⟨worded, worded || !kind.isNamed, kind.isNamed⟩

/-- What is known of a branch over nodes. -/
def branch (w : Wording) : Wording := ⟨w.one, w.one, true⟩

/-- What is known of one list behind another. -/
def append (v w : Wording) : Wording := ⟨v.one || w.one, v.all && w.all, v.constructs && w.constructs⟩

/-- What is known of one list or another. -/
def join (v w : Wording) : Wording := ⟨v.one && w.one, v.all && w.all, v.constructs && w.constructs⟩

/-- What is known of any number of lists one behind the other. -/
def again (w : Wording) : Wording := ⟨false, w.all, w.constructs⟩

/-- Whether all that is known by `w` is known by `v`. -/
def ensures (v w : Wording) : Bool := (w.one → v.one) && (w.all → v.all) && (w.constructs → v.constructs)

theorem join_ensures_left (v w : Wording) : v.ensures (v.join w) = true := by
  simp +contextual [ensures, join]

theorem join_ensures_right (v w : Wording) : w.ensures (v.join w) = true := by
  simp +contextual [ensures, join]

theorem none_ensures_again (w : Wording) : none.ensures w.again = true := by
  simp [ensures, none, again]

theorem append_ensures_again (w : Wording) : (w.append w.again).ensures w.again = true := by
  simp [ensures, append, again]

/-- A list of nodes of which this is true, and which write types. -/
structure Holds (w : Wording) (ns : List Node) : Prop where
  one : w.one = true → ∃ n ∈ ns, Worded n
  all : w.all = true → ∀ n ∈ ns, n.isNamed = true → Worded n
  constructs : w.constructs = true → ∀ n ∈ ns, n.isNamed = true
  writes : ∀ n ∈ ns, WritesTypesIn n

namespace Holds

variable {v w : Wording} {ns ms : List Node}

theorem nil : Holds .none [] where
  one h := absurd h (by simp [none])
  all _ n hn := absurd hn (by simp)
  constructs _ n hn := absurd hn (by simp)
  writes n hn := absurd hn (by simp)

theorem append (hv : v.Holds ns) (hw : w.Holds ms) : (v.append w).Holds (ns ++ ms) where
  one h := by
    rcases (Bool.or_eq_true _ _).mp h with h | h
    · obtain ⟨n, hn, hworded⟩ := hv.one h
      exact ⟨n, List.mem_append_left _ hn, hworded⟩
    · obtain ⟨n, hn, hworded⟩ := hw.one h
      exact ⟨n, List.mem_append_right _ hn, hworded⟩
  all h n hn := by
    obtain ⟨hall, hall'⟩ := (Bool.and_eq_true _ _).mp h
    exact (List.mem_append.mp hn).elim (hv.all hall n) (hw.all hall' n)
  constructs h n hn := by
    obtain ⟨hall, hall'⟩ := (Bool.and_eq_true _ _).mp h
    exact (List.mem_append.mp hn).elim (hv.constructs hall n) (hw.constructs hall' n)
  writes n hn := (List.mem_append.mp hn).elim (hv.writes n) (hw.writes n)

theorem of_ensures (hv : v.Holds ns) (h : v.ensures w = true) : w.Holds ns := by
  simp only [ensures, Bool.and_eq_true, decide_eq_true_eq] at h
  obtain ⟨⟨hone, hall⟩, hconstructs⟩ := h
  exact ⟨fun h => hv.one (hone h), fun h => hv.all (hall h), fun h => hv.constructs (hconstructs h), hv.writes⟩

/-- A single leaf. -/
theorem leaf {kind : Kind} {span : Text.Span} {tr x : String} {worded : Bool}
    (hx : worded = true → ∃ c ∈ x.toList, isNameStart c = true) (hkind : isTypeKind kind = true → worded = true) :
    (Wording.leaf kind worded).Holds [.leaf ⟨kind, .none, span⟩ tr x] where
  one h := ⟨_, List.mem_singleton_self _, worded_leaf (hx h)⟩
  all h n hn hnamed := by
    rw [List.mem_singleton.mp hn] at hnamed ⊢
    have hname : kind.isNamed = true := hnamed
    rw [Wording.leaf, hname, Bool.not_true, Bool.or_false] at h
    exact worded_leaf (hx h)
  constructs h n hn := by
    rw [List.mem_singleton.mp hn]
    exact h
  writes n hn := by
    rw [List.mem_singleton.mp hn]
    exact .leaf rfl fun h => hx (hkind h)

/-- A single branch. -/
theorem branchOf {kind : String} (h : w.Holds ns) (hkind : isTypeKind (.named kind) = true → w.one = true)
    (hcaught : kind = "catch_type" → w.all = true) : w.branch.Holds [Production.branchOf kind ns] where
  one hone := ⟨_, List.mem_singleton_self _, worded_branch (h.one hone)⟩
  all hone n hn _ := by
    rw [List.mem_singleton.mp hn]
    exact worded_branch (h.one hone)
  constructs _ n hn := by
    rw [List.mem_singleton.mp hn]
    rfl
  writes n hn := by
    rw [List.mem_singleton.mp hn]
    refine .branch h.writes ⟨?_, ?_⟩
    · rintro (htype | hrole)
      · exact worded_branch (h.one (hkind htype))
      · exact absurd hrole (by simp [Node.field, Node.label])
    · intro hk c hc
      have hname : kind = "catch_type" := by simpa [Production.branchOf, Node.isKind, Node.kind, Node.label] using hk
      obtain ⟨hmem, hnamed⟩ := List.mem_filter.mp hc
      exact h.all (hcaught hname) c hmem hnamed

theorem withField (h : w.Holds ns) {role : String} (hrole : role = "type" → w.all = true ∧ w.constructs = true) :
    w.Holds (ns.map (Node.withField role)) where
  one hone := by
    obtain ⟨n, hn, hworded⟩ := h.one hone
    exact ⟨_, List.mem_map_of_mem hn, hworded.withField role⟩
  all hall m hm hnamed := by
    obtain ⟨n, hn, rfl⟩ := List.mem_map.mp hm
    refine (h.all hall n hn ?_).withField role
    cases n <;> exact hnamed
  constructs hconstructs m hm := by
    obtain ⟨n, hn, rfl⟩ := List.mem_map.mp hm
    have hnamed := h.constructs hconstructs n hn
    cases n <;> exact hnamed
  writes m hm := by
    obtain ⟨n, hn, rfl⟩ := List.mem_map.mp hm
    refine (h.writes n hn).withField fun he => ?_
    obtain ⟨hall, hconstructs⟩ := hrole he
    exact h.all hall n hn (h.constructs hconstructs n hn)

end Holds

end Wording

namespace Production

variable {σ : Type}

/-! ## What can be seen from a production -/

/-- Whether a text that is asked for has a character in it that starts a name. -/
def isWorded (content : String) : Bool := content.toList.any isNameStart

/-- What is known of the nodes that a production yields, where `of` tells that of a symbol and `kept` that of what is
    held. -/
def wording (of : σ → Wording) : Wording → Production σ → Wording
  | _, .nothing | _, .tight | _, .finish | _, .ahead _ | _, .absent _ => .none
  | _, .text content k => .leaf k (isWorded content)
  | _, .name kind _ => .leaf (.named kind) true
  | _, .number => .leaf (.named "") false
  | _, .formed _ kind => .leaf (.named kind) false
  | _, .fuse k _ => .leaf k false
  | kept, .seq a b => (wording of kept a).append (wording of kept b)
  | kept, .either a b => (wording of kept a).join (wording of kept b)
  | kept, .many a => (wording of kept a).again
  | kept, .field _ a | kept, .only _ a | kept, .starting _ _ a => wording of kept a
  | kept, .node _ a => (wording of kept a).branch
  | _, .ref s => of s
  | kept, .held | kept, .regrow _ => kept
  | kept, .hold a b => wording of (wording of kept a) b

/-- Whether a role or a kind of types is given to worded nodes only, and what a production lets grow keeps what is known
    of it. -/
def writes (of : σ → Wording) : Wording → Production σ → Bool
  | _, .text content k => !isTypeKind k || isWorded content
  | _, .formed _ kind => !isTypeKind (.named kind)
  | _, .fuse k _ => !isTypeKind k
  | kept, .seq a b | kept, .either a b => writes of kept a && writes of kept b
  | kept, .many a | kept, .only _ a | kept, .starting _ _ a => writes of kept a
  | kept, .field role a =>
    writes of kept a && (role != "type" || ((wording of kept a).all && (wording of kept a).constructs))
  | kept, .node kind a =>
    writes of kept a && (!isTypeKind (.named kind) || (wording of kept a).one) &&
      (kind != "catch_type" || (wording of kept a).all)
  | kept, .hold a b => writes of kept a && writes of (wording of kept a) b
  | kept, .regrow a => writes of kept a && (wording of kept a).ensures kept
  | _, _ => true

/-! ## Reading -/

variable {of : σ → Wording} {g : σ → Production σ} {p : Production σ} {kept : Wording} {h xs : List Node}
  {ls rest : List Lexeme}

/-- What is known of each symbol is known of its production. -/
def WritingTable (of : σ → Wording) (g : σ → Production σ) : Prop :=
  ∀ s, (writes of .none (g s) && (wording of .none (g s)).ensures (of s)) = true

/-- No number is a type. -/
theorem isTypeKind_number : ∀ kind ∈ Scan.numbers.map Prod.fst, isTypeKind (.named kind) = false := by decide

/-- **What a production yields** is as it is known to be. -/
theorem holds_of_derives (hg : WritingTable of g) (hd : Derives g p h ls xs rest) (hp : writes of kept p = true)
    (hls : ∀ l ∈ ls, Lexeme.Spells l.form l.text.toList) (hh : kept.Holds h) : (wording of kept p).Holds xs := by
  -- by the ways to read, whatever is held
  induction hd generalizing kept with
  | nothing | tight | finish | ahead | absent => exact .nil
  | @text content kind _ l _ hl =>
      simp only [writes, Bool.or_eq_true, Bool.not_eq_true'] at hp
      have hcontent : isWorded content = true → ∃ c ∈ l.text.toList, isNameStart c = true := by
        rw [hl]
        exact List.any_eq_true.mp
      exact .leaf hcontent fun hkind => hp.resolve_left (by simp [hkind])
  | @name kind _ _ l _ hl => exact .leaf (fun _ => (hls l (List.mem_cons_self ..)).word hl) fun _ => rfl
  | @number kind _ l _ hl =>
      have hkind := isTypeKind_number kind ((hls l (List.mem_cons_self ..)).number kind hl)
      have hleaf : (Wording.leaf (.named kind) false).Holds [leafOf (.named kind) l] :=
        .leaf (by simp) fun h => absurd h (by simp [hkind])
      exact hleaf
  | @formed form kind _ l _ hl =>
      have hkind : isTypeKind (.named kind) = false := by simpa [writes] using hp
      exact .leaf (by simp) fun h => absurd h (by simp [hkind])
  | seq hda _ iha ihb =>
      obtain ⟨ha, hb⟩ := (Bool.and_eq_true _ _).mp hp
      exact (iha ha hls hh).append (ihb hb (fun l hl => hls l ((suffix_of_derives hda).subset hl)) hh)
  | left _ iha =>
      exact (iha ((Bool.and_eq_true _ _).mp hp).1 hls hh).of_ensures (Wording.join_ensures_left _ _)
  | right _ ihb =>
      exact (ihb ((Bool.and_eq_true _ _).mp hp).2 hls hh).of_ensures (Wording.join_ensures_right _ _)
  | done => exact Wording.Holds.nil.of_ensures (Wording.none_ensures_again _)
  | @more a _ _ _ _ _ _ hda _ iha ihm =>
      have ha : writes of kept a = true := hp
      have hmid := fun l hl => hls l ((suffix_of_derives hda).subset hl)
      exact ((iha ha hls hh).append (ihm hp hmid hh)).of_ensures (Wording.append_ensures_again _)
  | @field role a _ _ _ _ _ iha =>
      simp only [writes, Bool.and_eq_true, Bool.or_eq_true, bne_iff_ne, ne_eq] at hp
      exact (iha hp.1 hls hh).withField fun he => hp.2.resolve_left (not_not_intro he)
  | @node kind a _ _ _ _ _ iha =>
      simp only [writes, Bool.and_eq_true, Bool.or_eq_true, Bool.not_eq_true', bne_iff_ne, ne_eq] at hp
      obtain ⟨⟨ha, htype⟩, hcaught⟩ := hp
      exact (iha ha hls hh).branchOf (fun hkind => htype.resolve_left (by simp [hkind]))
        fun he => hcaught.resolve_left (not_not_intro he)
  | @fuse kind _ _ _ _ _ _ _ hl _ =>
      have hkind : isTypeKind kind = false := by simpa [writes] using hp
      unfold fused at hl
      split at hl
      · obtain rfl := Option.some.inj hl
        exact .leaf (by simp) fun h => absurd h (by simp [hkind])
      · exact absurd hl (by simp)
  | @ref s _ _ _ _ _ ihs =>
      obtain ⟨hwrites, hensures⟩ := (Bool.and_eq_true _ _).mp (hg s)
      exact (ihs hwrites hls .nil).of_ensures hensures
  | held | kept => exact hh
  | hold hda _ iha ihb =>
      obtain ⟨ha, hb⟩ := (Bool.and_eq_true _ _).mp hp
      exact ihb hb (fun l hl => hls l ((suffix_of_derives hda).subset hl)) (iha ha hls hh)
  | grown hda _ iha ihr =>
      -- what has grown is known to be the same and held in its turn
      obtain ⟨ha, hensures⟩ := (Bool.and_eq_true _ _).mp hp
      exact ihr hp (fun l hl => hls l ((suffix_of_derives hda).subset hl)) ((iha ha hls hh).of_ensures hensures)
  | @only _ a _ _ _ _ _ iha | @starting _ _ a _ _ _ _ _ iha =>
      have ha : writes of kept a = true := hp
      exact iha ha hls hh

end Production

/-! ## The table -/

namespace Grammar

open Production

/-- Types and qualified names are worded; of other symbols this need not be known. -/
def wordingOf : Symbol → Wording
  | .simpleType _ | .plainType _ | .anyType _ | .qualifiedName => ⟨true, true, true⟩
  | _ => ⟨false, false, false⟩

/-- What an operand grows by gives no role of types, whatever the level of the operators. -/
theorem writes_operatorSteps {place : Place} {arrow : Bool} {level : Nat} :
    writes wordingOf ⟨false, false, false⟩ (operatorSteps place arrow level) = true := by
  refine operatorSteps_of_all (P := fun p => writes wordingOf ⟨false, false, false⟩ p = true) rfl ?_ ?_
  · intro a b ha hb
    exact (Bool.and_eq_true _ _).mpr ⟨ha, hb⟩
  · cases place <;> cases arrow <;> decide +kernel

/-- **In every production of Java** types are worded. -/
theorem writes_table : WritingTable wordingOf table := by
  refine forall_symbols ?_ (by decide +kernel)
  intro place arrow level
  show (true && (writes wordingOf ⟨false, false, false⟩ (operatorSteps place.inner arrow level) && _) && _) = true
  rw [writes_operatorSteps]
  rfl

end Grammar

/-! ## Texts -/

/-- **In a Java text** there is a name in every type. -/
theorem writesTypes_of_parse? {source : String} {t : Tree} (h : parse? source = some t) : WritesTypesIn t.root := by
  obtain ⟨ls, trailing, nodes, hls, rfl, hd⟩ := derives_of_parse? h
  have hsymbol : Production.writes Grammar.wordingOf .none (.ref .program : Grammar.Phrase) = true := rfl
  have hnodes := Production.holds_of_derives Grammar.writes_table hd hsymbol (Lexeme.spells_of_ofText? hls) .nil
  refine .branch hnodes.writes ⟨?_, ?_⟩
  · rintro (hkind | hrole)
    · have hprogram : isTypeKind (.named "program") = false := by decide
      exact absurd (hprogram.symm.trans hkind) (by simp)
    · exact absurd hrole (by simp [Node.field, Node.label])
  · intro hkind
    exact absurd hkind (by simp [Node.isKind, Node.kind, Node.label])

end JavaRefactor.Java

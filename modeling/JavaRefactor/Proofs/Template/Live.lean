import JavaRefactor.Proofs.Java.Names
import JavaRefactor.Proofs.Java.Nested
import JavaRefactor.Proofs.Template.Reversal
import JavaRefactor.Proofs.Template.Weight
import Mathlib.Data.List.Sort

/-!
# `Proofs.Template.Live` — which metavariables of a template are nodes of its tree

A template's metavariables are recorded by a scan of its text, and its placeholders are found in the tree that is read from
the text. The two agree where each recorded metavariable is a token of its own. A placeholder is never cut by the tokens, so
else it is in a comment, or in a token that is longer: a literal, or a name.

## Contents
- **Places.** `Metavariable.placesFrom`, where the placeholders stand in the normalised text, and `Scans.placed`.
- **Tokens.** `placeholdersOfAll_eq`: the topmost placeholders are the tokens that stand for metavariables.
- **`Template.recorded`**, **`Template.standing`** and **`Buried`**; `Stands.mem_standing_iff`.
- **`compile_standing`**, and `compile_buried`, metavariables of which there is no node.
-/

namespace JavaRefactor

open Java (Lexeme Closed Compact CoversAll extent)
open Java.Lexeme (spelling)
open Syntax (Node spanOf)
open Text (Span InOrder byteLength)
open Text.Span (Inside)

namespace Metavariable

/-! ## Places -/

/-- What is asked of a metavariable, wherever it stands. -/
def key (m : Metavariable) : String × Shape := (m.name, m.shape)

/-- Where the placeholders of metavariables stand in a normalised text, with what is asked of these. In front of the first
    one the text is longer than the template by `shift` bytes. -/
def placesFrom : Nat → List Metavariable → List (Span × String × Shape)
  | _, [] => []
  | shift, m :: ms =>
    (⟨m.offset + shift, m.offset + shift + byteLength (placeholder m.name).toList⟩, m.key) ::
      placesFrom (shift + byteLength (placeholder m.name).toList - byteLength m.written) ms

theorem map_placesFrom (shift : Nat) (ms : List Metavariable) : (placesFrom shift ms).map (·.2) = ms.map key := by
  induction ms generalizing shift with
  | nil => rfl
  | cons m ms ih => rw [placesFrom, List.map_cons, List.map_cons, ih]

theorem toList_placeholderFront : placeholderFront.toList = '_' :: '_' :: 'R' :: "ECAST_MV_".toList := rfl

/-- A placeholder is longer than its metavariable. -/
theorem byteLength_written_le (m : Metavariable) : byteLength m.written ≤ byteLength (placeholder m.name).toList := by
  have hdollars : byteLength (List.replicate m.shape.dollars '$') ≤ byteLength ['_', '_', 'R'] := by
    cases m.shape <;> decide
  have hsplit : placeholderFront.toList = ['_', '_', 'R'] ++ "ECAST_MV_".toList := toList_placeholderFront
  rw [toList_placeholder, hsplit, written, Text.byteLength_append, Text.byteLength_append, Text.byteLength_append,
    Text.byteLength_append]
  omega

/-- **A scan puts the placeholders** at their places, in order. -/
theorem Scans.placed {rest : List Char} {final state : ScanState} {offset : Nat} {cs out : List Char}
    {ms : List Metavariable} (h : Scans rest final state offset cs ms out) :
    ∀ (front behind : List Char) (shift : Nat), byteLength front = offset + shift →
      (∀ p ∈ placesFrom shift ms, p.1.Cuts (front ++ out ++ behind) (placeholder p.2.1).toList) ∧
        InOrder (byteLength front) ((placesFrom shift ms).map (·.1)) (byteLength (front ++ out)) := by
  induction h with
  | done offset =>
      intro front behind shift _
      refine ⟨fun p hp => absurd hp (by simp [placesFrom]), ?_⟩
      rw [List.append_nil]
      exact Nat.le_refl _
  | @copied state offset c cs out ms _ _ _ ih =>
      intro front behind shift hplace
      have hnext : byteLength (front ++ [c]) = offset + c.utf8Size + shift := by
        rw [Text.byteLength_append, hplace, Text.byteLength_cons, Text.byteLength_nil]
        omega
      obtain ⟨hcuts, horder⟩ := ih (front ++ [c]) behind shift hnext
      rw [List.append_cons front c out]
      refine ⟨hcuts, horder.mono ?_ (Nat.le_refl _)⟩
      rw [Text.byteLength_append]
      exact Nat.le_add_right _ _
  | @found m cs out ms hname _ ih =>
      intro front behind shift hplace
      have hlonger := m.byteLength_written_le
      have hnext : byteLength (front ++ (placeholder m.name).toList) = m.offset + byteLength m.written +
          (shift + byteLength (placeholder m.name).toList - byteLength m.written) := by
        rw [Text.byteLength_append, hplace]
        omega
      obtain ⟨hcuts, horder⟩ := ih (front ++ (placeholder m.name).toList) behind _ hnext
      have hbyte : 0 < byteLength (placeholder m.name).toList := by
        have := Text.byteLength_pos m.written_ne_nil
        omega
      have hstop : byteLength (front ++ (placeholder m.name).toList) =
          m.offset + shift + byteLength (placeholder m.name).toList := by rw [Text.byteLength_append, hplace]
      rw [← List.append_assoc front]
      refine ⟨fun p hp => ?_, ?_⟩
      · rcases List.mem_cons.mp hp with rfl | hp
        · refine ⟨front, out ++ behind, by simp only [List.append_assoc]; rfl, ?_⟩
          rw [hplace]
          show _ = Span.mk _ (byteLength (front ++ (placeholder m.name).toList))
          rw [hstop]
        · exact hcuts p hp
      · rw [placesFrom, List.map_cons]
        refine ⟨Nat.le_of_eq hplace, Nat.lt_add_of_pos_right hbyte, ?_⟩
        rw [hstop] at horder
        exact horder

theorem isWordChar_of_continuesName {c : Char} (h : continuesName c = true) : Java.isWordChar c = true := by
  unfold continuesName at h
  unfold Java.isWordChar Char.isAlphanum Char.isAlpha Char.isUpper
  simp only [Bool.or_eq_true, Bool.and_eq_true, decide_eq_true_eq] at h ⊢
  rcases h with (⟨hlow, hhigh⟩ | h) | h
  · exact Or.inl (Or.inl (Or.inl ⟨hlow, hhigh⟩))
  · exact Or.inl (Or.inr h)
  · exact Or.inr h

/-- **A placeholder** is a word that is never cut. -/
theorem compact_placeholder {name : String} (h : isMetavariableName name.toList = true) :
    Compact (placeholder name).toList := by
  have hall : ∀ c ∈ (placeholder name).toList, Java.isWordChar c = true := by
    intro c hc
    refine isWordChar_of_continuesName (continuesName_of_mem_placeholder ?_ hc)
    exact fun d hd => continuesName_of_mem h hd
  rw [toList_placeholder, toList_placeholderFront] at hall ⊢
  exact Java.compact_of_underscores (by simp) rfl hall

end Metavariable

namespace Template

open Metavariable (placeholder)

variable {t : Template}

/-! ## Tokens -/

/-- A leaf that stands for a metavariable is its placeholder. -/
theorem eq_placeholder_of_leaf {l : Syntax.Label} {tr x : String} {v : Metavariable}
    (h : t.metavariableAt? (.leaf l tr x) = some v) : v ∈ t.metavariables ∧ x = placeholder v.name := by
  obtain ⟨hmem, l', tr', hleaf | ⟨-, honly⟩⟩ := metavariableAt?_inv h
  · exact ⟨hmem, (Node.leaf.inj hleaf).2.2⟩
  · exact absurd honly (by simp [Node.namedChildren, Node.children])

/-- A name is no statement. -/
theorem not_statement_of_isName {n : Node} (h : Java.isName n.kind = true) : n.isKind "expression_statement" = false := by
  unfold Node.isKind
  rcases (Bool.or_eq_true _ _).mp h with h | h
  · rw [beq_iff_eq.mp h]
    simp
  · rw [beq_iff_eq.mp h]
    simp

/-- A name that is spelled as the placeholder of a recorded metavariable stands for one of this name. -/
theorem exists_metavariableAt? {l : Syntax.Label} (tr : String) {m : Metavariable} (hm : m ∈ t.metavariables)
    (hkind : Java.isName l.kind = true) :
    ∃ v ∈ t.metavariables, t.metavariableAt? (.leaf l tr (placeholder m.name)) = some v ∧ v.name = m.name := by
  have hsome : (t.metavariables.find? (·.name == m.name)).isSome = true :=
    List.find?_isSome.mpr ⟨m, hm, beq_self_eq_true _⟩
  obtain ⟨v, hv⟩ := Option.isSome_iff_exists.mp hsome
  refine ⟨v, List.mem_of_find?_eq_some hv, ?_, by simpa using List.find?_some hv⟩
  have hstatement : (Node.leaf l tr (placeholder m.name)).isKind "expression_statement" = false :=
    not_statement_of_isName hkind
  have hnamed : ((Node.leaf l tr (placeholder m.name)).isKind "identifier" ||
      (Node.leaf l tr (placeholder m.name)).isKind "type_identifier") = true := hkind
  have hname : Metavariable.nameOfPlaceholder? (Node.leaf l tr (placeholder m.name)).leafText = some m.name :=
    Metavariable.nameOfPlaceholder?_placeholder m.name
  rw [metavariableAt?, placeholderLeaf?, hstatement]
  simp only [Bool.false_eq_true, if_false, hnamed, if_true, hname, Option.bind_some, hv]

/-- A statement that stands for a metavariable does so because of its only construct. -/
theorem metavariableAt?_of_statement {n leaf : Node} {v : Metavariable} (h : t.metavariableAt? n = some v)
    (hkind : n.isKind Java.statementKind = true) (honly : n.namedChildren = [leaf]) :
    t.metavariableAt? leaf = some v := by
  have hstatement : n.isKind "expression_statement" = true := hkind
  rw [metavariableAt?, placeholderLeaf?, if_pos hstatement, honly] at h
  dsimp only at h
  rw [metavariableAt?, placeholderLeaf?]
  by_cases hname : (leaf.isKind "identifier" || leaf.isKind "type_identifier") = true
  · have hplain : leaf.isKind "expression_statement" = false := not_statement_of_isName hname
    rw [hplain]
    exact h
  · rw [if_neg hname] at h
    exact absurd h (by simp)

mutual

/-- **The placeholders of a template node** are its tokens that stand for metavariables. -/
theorem placeholdersOf_eq : ∀ {p : Node}, Closed p → t.placeholdersOf p = p.tokens.filterMap t.metavariableAt?
  | .leaf l tr x, _ => by
      rw [placeholdersOf, Node.tokens]
      cases hv : t.metavariableAt? (.leaf l tr x) with
      | none => simp [hv]
      | some v => simp [hv]
  | .branch l cs, hclosed => by
      rw [Node.tokens]
      cases hv : t.metavariableAt? (.branch l cs) with
      | none =>
          rw [placeholdersOf_branch hv]
          exact placeholdersOfAll_eq fun c hc => hclosed.of_mem_children hc
      | some v =>
          -- but for the placeholder there is only the semicolon
          rw [placeholdersOf_of_some hv]
          obtain ⟨-, l', tr', hleaf | ⟨hkind, honly⟩⟩ := metavariableAt?_inv hv
          · exact absurd hleaf (by simp)
          · have hleaf := metavariableAt?_of_statement hv hkind honly
            obtain ⟨l'', tr'', hchildren⟩ := hclosed.children_of_namedChildren hkind honly
            obtain rfl : cs = [.leaf l' tr' (placeholder v.name), .leaf l'' tr'' ";"] := hchildren
            have hsemicolon : t.metavariableAt? (.leaf l'' tr'' ";") = none := by
              rw [Option.eq_none_iff_forall_ne_some]
              intro w hw
              have hsame := congrArg String.toList (eq_placeholder_of_leaf hw).2
              rw [Metavariable.toList_placeholder] at hsame
              exact absurd hsame (by simp [Metavariable.placeholderFront])
            simp [Node.tokensAll, Node.tokens, hleaf, hsemicolon]

theorem placeholdersOfAll_eq : ∀ {ps : List Node}, (∀ p ∈ ps, Closed p) →
    t.placeholdersOfAll ps = (Node.tokensAll ps).filterMap t.metavariableAt?
  | [], _ => rfl
  | p :: ps, hclosed => by
      rw [placeholdersOfAll_cons, Node.tokensAll, List.filterMap_append, placeholdersOf_eq (hclosed p (by simp)),
        placeholdersOfAll_eq fun q hq => hclosed q (by simp [hq])]

end

/-! ## Metavariables in the tree -/

/-- Where the placeholders of the recorded metavariables stand in the text of the tree. -/
def recorded (t : Template) : List (Span × String × Shape) :=
  Metavariable.placesFrom (spanOf t.roots).start t.metavariables

/-- Where the tokens stand that stand for metavariables. -/
def standing (t : Template) : List (Span × String × Shape) :=
  (Node.tokensAll t.roots).filterMap fun n => (t.metavariableAt? n).map fun v => (n.span, v.key)

/-- A range in the text of some nodes is none of their tokens. -/
inductive Buried (ns : List Node) (s : Span) : Prop
  /-- It is in the trivia in front of a token. -/
  | trivia {n : Node} (hn : n ∈ Node.tokensAll ns) (hstart : n.span.start ≤ s.start + byteLength n.leading)
      (hstop : s.stop ≤ n.span.start)
  /-- It is in a token that is longer. -/
  | longer {n : Node} (hn : n ∈ Node.tokensAll ns) (hin : Inside s n.span) (hne : s ≠ n.span)

/-- Two lists that are told by their places are one, if the one is part of the other and has all of its places. -/
theorem eq_of_places {α : Type} {ps qs : List (Span × α)} (hps : ps.Pairwise fun p q => p.1.start < q.1.start)
    (hqs : qs.Pairwise fun p q => p.1.start < q.1.start) (hsub : ∀ q ∈ qs, q ∈ ps)
    (hall : ∀ p ∈ ps, p.1 ∈ qs.map (·.1)) : ps = qs := by
  let Before (p q : Span × α) : Prop := p.1.start < q.1.start
  have hantisymm : Std.Antisymm Before := ⟨fun _ _ hpq hqp => absurd hpq (Nat.lt_asymm hqp)⟩
  have hirrefl : Std.Irrefl Before := ⟨fun _ => Nat.lt_irrefl _⟩
  refine List.Pairwise.eq_of_mem_iff (r := Before) hps hqs fun p => ⟨fun hp => ?_, hsub p⟩
  obtain ⟨q, hq, hspan⟩ := List.mem_map.mp (hall p hp)
  -- what stands at the place of `p` is `p`
  by_cases hsame : q = p
  · exact hsame ▸ hq
  · rcases Text.either_of_pairwise hps (hsub q hq) hp hsame with hlt | hlt
    · exact absurd hlt (by simp [hspan])
    · exact absurd hlt (by simp [hspan])

theorem mem_standing {p : Span × String × Shape} : p ∈ t.standing ↔
    ∃ n ∈ Node.tokensAll t.roots, ∃ v, t.metavariableAt? n = some v ∧ p = (n.span, v.key) := by
  unfold standing
  rw [List.mem_filterMap]
  constructor
  · rintro ⟨n, hn, hp⟩
    obtain ⟨v, hv, rfl⟩ := Option.map_eq_some_iff.mp hp
    exact ⟨n, hn, v, hv, rfl⟩
  · rintro ⟨n, hn, v, hv, rfl⟩
    exact ⟨n, hn, by rw [hv]; rfl⟩

theorem exists_of_mem_recorded {p : Span × String × Shape} (h : p ∈ t.recorded) :
    ∃ m ∈ t.metavariables, p.2 = m.key := by
  have hkey : p.2 ∈ t.recorded.map (·.2) := List.mem_map_of_mem h
  unfold recorded at hkey
  rw [Metavariable.map_placesFrom] at hkey
  obtain ⟨m, hm, hkey⟩ := List.mem_map.mp hkey
  exact ⟨m, hm, hkey.symm⟩

namespace Stands

variable {text : String} {ls part : List Lexeme} {nodes : List Node}
  (h : t.Stands text ls part nodes)
include h

/-- The recorded metavariables have names. -/
theorem isMetavariableName {m : Metavariable} (hm : m ∈ t.metavariables) :
    Metavariable.isMetavariableName m.name.toList = true := by
  obtain ⟨out, final, hscan, -⟩ := Metavariable.scans_of_normalise h.normal
  obtain ⟨front, ⟨behind, -, -, -, hname⟩, -⟩ :=
    (hscan.standsBehind [] rfl Metavariable.ScanState.behind_nil).1 m hm
  exact hname.valid

/-- **The recorded metavariables** stand in order in the text of the roots, where their placeholders are. -/
theorem placed : (∀ p ∈ t.recorded, p.1.Cuts t.tree.source.toList (placeholder p.2.1).toList) ∧
    InOrder (spanOf t.roots).start (t.recorded.map (·.1)) (spanOf t.roots).stop := by
  obtain ⟨out, final, hscan, rfl⟩ := Metavariable.scans_of_normalise h.normal
  obtain ⟨front, behind, hsource, hspan⟩ := h.cuts
  rw [String.toList_ofList] at hsource hspan
  unfold recorded
  rw [hsource, hspan]
  exact hscan.placed front behind (byteLength front) (Nat.zero_add _).symm

/-- **A word in the text of the roots** that is never cut is in the trivia in front of a token, or in a token. -/
theorem exists_token {word : List Char} {s : Span} (hword : Compact word)
    (hs : s.Cuts t.tree.source.toList word) (hin : Inside s (spanOf t.roots)) :
    ∃ n ∈ Node.tokensAll t.roots,
      n.span.start ≤ s.start + byteLength n.leading ∧ s.stop ≤ n.span.start ∨ Inside s n.span := by
  obtain ⟨l, rest, rfl, -⟩ := h.exists_cons
  obtain ⟨before, after, rfl⟩ := h.inside
  have hlaid := h.spelled.laid
  have htext := h.spelled.text
  have hapart := Lexeme.apartAll_of_ofText? h.read
  rw [Lexeme.laid_append, Lexeme.laid_append, Nat.zero_add] at hlaid
  obtain ⟨⟨-, hlaid⟩, -⟩ := hlaid
  rw [Lexeme.apartAll_append, Lexeme.apartAll_append] at hapart
  obtain ⟨⟨-, hapart⟩, -⟩ := hapart
  rw [Lexeme.spelling_append, Lexeme.spelling_append, List.append_assoc] at htext
  obtain ⟨hplace, -, hstop⟩ := Java.bounds_of_laid hlaid
  obtain ⟨hstart, hend⟩ := hin
  rw [h.covers.spanOf_eq] at hstart hend
  -- the word, told from where the lexemes of the roots start
  rw [← htext, List.append_assoc] at hs
  obtain ⟨front, behind, hrest, rfl⟩ := hs.behind (Nat.le_trans hplace hstart)
  simp only [Text.byteLength_append] at hstart hend ⊢
  exact h.covers.tokensAll.exists_of_compact hapart hlaid hword (by rw [hrest, List.append_assoc])
    (by omega)

/-- The tokens of the roots stand in order, and each is behind the trivia in front of it. -/
theorem tokens_apart : (∀ n ∈ Node.tokensAll t.roots, n.span.start < n.span.stop) ∧
    (Node.tokensAll t.roots).Pairwise fun n m => n.span.stop + byteLength m.leading ≤ m.span.start := by
  obtain ⟨before, after, rfl⟩ := h.inside
  have hlaid := h.spelled.laid
  rw [Lexeme.laid_append, Lexeme.laid_append] at hlaid
  obtain ⟨⟨-, hlaid⟩, -⟩ := hlaid
  obtain ⟨horder, -⟩ := h.covers.tokensAll.nested hlaid
  exact ⟨fun n hn => (horder.of_mem (List.mem_map_of_mem hn)).2.1, h.covers.tokensAll.pairwise_leading hlaid⟩

/-- A token of the roots is neither in trivia nor in a longer token. -/
theorem not_buried {n : Node} (hn : n ∈ Node.tokensAll t.roots) : ¬Buried t.roots n.span := by
  intro hburied
  obtain ⟨hbyte, hpairs⟩ := h.tokens_apart
  have hnbyte := hbyte n hn
  cases hburied with
  | @trivia m hm hfront hstop =>
      have hmbyte := hbyte m hm
      by_cases hsame : n = m
      · subst hsame
        omega
      · have hapart := Text.either_of_pairwise hpairs hn hm hsame
        omega
  | @longer m hm hin hne =>
      obtain ⟨hstart, hstop⟩ := hin
      have hmbyte := hbyte m hm
      by_cases hsame : n = m
      · exact hne (hsame ▸ rfl)
      · have hapart := Text.either_of_pairwise hpairs hn hm hsame
        omega

/-- A token of the roots takes its text out of the text of the tree. -/
theorem exists_leaf {n : Node} (hn : n ∈ Node.tokensAll t.roots) : ∃ l tr x, n = .leaf l tr x ∧
    n ∈ t.tree.root.listing ∧ n.span.Cuts t.tree.source.toList x.toList := by
  obtain ⟨hmem, hleaf⟩ := Node.mem_listingAll_of_mem_tokensAll hn
  obtain ⟨root, hroot, hmem⟩ := Node.mem_listingAll_iff.mp hmem
  obtain ⟨parent, hparent, hneighbours, -⟩ := h.run
  have htree : n ∈ t.tree.root.listing := Node.mem_listing_trans hparent
    (Node.mem_listing_trans (Node.mem_listing_of_mem_children (hneighbours.subset hroot)) hmem)
  cases n with
  | branch l cs => exact absurd hleaf (by simp [Node.isLeaf])
  | leaf l tr x => exact ⟨l, tr, x, rfl, htree, h.spelled.cuts_of_leaf htree⟩

/-- **A recorded metavariable is a node** unless it is in trivia or in a longer token. -/
theorem mem_standing_iff (hnames : Java.KeepsNames t.tree.root)
    (hshapes : ∀ v ∈ t.metavariables, ∀ m ∈ t.metavariables, v.name = m.name → v.shape = m.shape)
    {p : Span × String × Shape} (hp : p ∈ t.recorded) : p ∈ t.standing ↔ ¬Buried t.roots p.1 := by
  constructor
  · intro hstanding
    obtain ⟨n, hn, v, -, rfl⟩ := mem_standing.mp hstanding
    exact h.not_buried hn
  · intro hfree
    obtain ⟨m, hm, hkey⟩ := exists_of_mem_recorded hp
    obtain ⟨hcuts, horder⟩ := h.placed
    have hplaceholder := hcuts p hp
    have hname : p.2.1 = m.name := by rw [hkey]; rfl
    rw [hname] at hplaceholder
    have hbounds := horder.of_mem (List.mem_map_of_mem hp)
    obtain ⟨n, hn, hwhere⟩ := h.exists_token (Metavariable.compact_placeholder (h.isMetavariableName hm))
      hplaceholder ⟨hbounds.1, hbounds.2.2⟩
    have hspan : p.1 = n.span := by
      by_contra hne
      rcases hwhere with ⟨hstart, hstop⟩ | hin
      · exact hfree (.trivia hn hstart hstop)
      · exact hfree (.longer hn hin hne)
    obtain ⟨l, tr, x, rfl, htree, hx⟩ := h.exists_leaf hn
    -- what stands at one place is one text
    obtain rfl : x = placeholder m.name := by
      have hsame := Text.slice?_of_cuts hplaceholder
      rw [hspan, Text.slice?_of_cuts hx] at hsame
      simpa using hsame
    have hunderscores : Java.underscores <+: (placeholder m.name).toList := by
      rw [Metavariable.toList_placeholder, Metavariable.toList_placeholderFront, List.append_assoc]
      exact ⟨_, rfl⟩
    obtain ⟨v, hv, hat, hvname⟩ := exists_metavariableAt? tr hm (hnames l tr _ htree hunderscores)
    refine mem_standing.mpr ⟨_, hn, v, hat, Prod.ext hspan ?_⟩
    rw [hkey]
    exact Prod.ext hvname.symm (hshapes v hv m hm hvname).symm

/-- The tokens that stand for metavariables do so in order. -/
theorem pairwise_standing : t.standing.Pairwise fun p q => p.1.start < q.1.start := by
  obtain ⟨hbyte, hpairs⟩ := h.tokens_apart
  refine List.pairwise_filterMap.mpr (hpairs.imp_of_mem ?_)
  intro n m hn _ hapart p hp q hq
  obtain ⟨v, -, rfl⟩ := Option.map_eq_some_iff.mp hp
  obtain ⟨w, -, rfl⟩ := Option.map_eq_some_iff.mp hq
  have hnbyte := hbyte n hn
  show n.span.start < m.span.start
  omega

/-- The recorded metavariables do so, too. -/
theorem pairwise_recorded : t.recorded.Pairwise fun p q => p.1.start < q.1.start := by
  obtain ⟨-, horder⟩ := h.placed
  refine (List.pairwise_map.mp horder.pairwise_behind).imp_of_mem ?_
  intro p q hp _ hbehind
  exact Nat.lt_of_lt_of_le (horder.of_mem (List.mem_map_of_mem hp)).2.1 hbehind

/-- The placeholders of the template are the tokens that stand for metavariables. -/
theorem map_standing : t.standing.map (·.2) = t.placeholders.map Metavariable.key := by
  unfold placeholders standing
  rw [placeholdersOfAll_eq h.closed_roots, List.map_filterMap, List.map_filterMap]
  simp only [Option.map_map]
  rfl

end Stands

/-- **Metavariables and their nodes.** The placeholders of a template, read from its roots down, are its tokens that stand
    for metavariables. A recorded metavariable, whose placeholder stands at a place of its own in the text of the tree, is
    one of them exactly if it is neither in trivia, which is a comment, nor in a longer token, which is a literal or a name.
    So the two lists are one where no recorded metavariable is in such a place, and no name of the template is spelled as a
    placeholder that stands elsewhere. -/
theorem compile_standing {source : String} {ds : List Declaration} {t : Template} (h : compile source ds = .ok t) :
    t.placeholders.map Metavariable.key = t.standing.map (·.2) ∧
    t.metavariables.map Metavariable.key = t.recorded.map (·.2) ∧
    (∀ p ∈ t.recorded, p.1.Cuts t.tree.source.toList (placeholder p.2.1).toList ∧
      (p ∈ t.standing ↔ ¬Buried t.roots p.1)) ∧
    (t.standing = t.recorded ↔
      (∀ p ∈ t.recorded, ¬Buried t.roots p.1) ∧ ∀ p ∈ t.standing, p.1 ∈ t.recorded.map (·.1)) := by
  obtain ⟨text, ls, part, nodes, hstands⟩ := exists_stands h
  obtain ⟨source', -, hread, -⟩ := exists_placeOf? h
  have hnames := Java.keepsNames_of_parse? hread
  have hshapes : ∀ v ∈ t.metavariables, ∀ m ∈ t.metavariables, v.name = m.name → v.shape = m.shape :=
    fun v hv m hm => shape_eq_of_name_eq h hv hm
  have hiff : ∀ p ∈ t.recorded, (p ∈ t.standing ↔ ¬Buried t.roots p.1) :=
    fun p hp => hstands.mem_standing_iff hnames hshapes hp
  refine ⟨hstands.map_standing.symm, (Metavariable.map_placesFrom _ _).symm,
    fun p hp => ⟨hstands.placed.1 p hp, hiff p hp⟩, ?_, ?_⟩
  · intro hsame
    exact ⟨fun p hp => (hiff p hp).mp (hsame ▸ hp), fun p hp => List.mem_map_of_mem (hsame ▸ hp)⟩
  · rintro ⟨hfree, hall⟩
    exact eq_of_places hstands.pairwise_standing hstands.pairwise_recorded
      (fun p hp => (hiff p hp).mpr (hfree p hp)) hall

/-- A template with two metavariables, of which one occurs twice. -/
theorem compile_standing_call : ∃ t, compile "f($A, g($$$B), $A)" [] = .ok t ∧
    t.placeholders.map Metavariable.key = [("A", .single), ("B", .run), ("A", .single)] ∧
    t.metavariables.map Metavariable.key = t.placeholders.map Metavariable.key ∧
    ∀ p ∈ t.recorded, ¬Buried t.roots p.1 := by
  have h : ((compile "f($A, g($$$B), $A)" []).toOption.any fun t =>
      t.standing == t.recorded && t.recorded.map (·.2) == [("A", .single), ("B", .run), ("A", .single)]) = true := by
    decide +kernel
  obtain ⟨t, ht, h⟩ := (Option.any_eq_true _ _).mp h
  obtain ⟨hsame, hkeys⟩ := (Bool.and_eq_true _ _).mp h
  have ht := Attempts.toOption_eq_some.mp ht
  obtain ⟨hplaceholders, hmetavariables, -, hiff⟩ := compile_standing ht
  have hsame : t.standing = t.recorded := beq_iff_eq.mp hsame
  rw [hsame] at hplaceholders
  exact ⟨t, ht, hplaceholders.trans (beq_iff_eq.mp hkeys), hmetavariables.trans hplaceholders.symm, (hiff.mp hsame).1⟩

theorem exists_compiled {source : String} {keys found : List (String × Shape)}
    (h : ((compile source []).toOption.any fun t =>
      t.metavariables.map Metavariable.key == keys && t.placeholders.map Metavariable.key == found) = true) :
    ∃ t, compile source [] = .ok t ∧ t.metavariables.map Metavariable.key = keys ∧
      t.placeholders.map Metavariable.key = found := by
  obtain ⟨t, ht, h⟩ := (Option.any_eq_true _ _).mp h
  obtain ⟨hkeys, hfound⟩ := (Bool.and_eq_true _ _).mp h
  exact ⟨t, Attempts.toOption_eq_some.mp ht, beq_iff_eq.mp hkeys, beq_iff_eq.mp hfound⟩

/-- **Metavariables of which there is no node**: one between quotes in a text block, one in a comment, and two in longer
    names. -/
theorem compile_buried :
    (∃ t, compile "f(\"\"\"\n \"$X\" \"\"\")" [] = .ok t ∧ t.metavariables.map Metavariable.key = [("X", .single)] ∧
      t.placeholders.map Metavariable.key = []) ∧
    (∃ t, compile "f($A /* $B */)" [] = .ok t ∧
      t.metavariables.map Metavariable.key = [("A", .single), ("B", .single)] ∧
      t.placeholders.map Metavariable.key = [("A", .single)]) ∧
    ∃ t, compile "f($Index, foo$X)" [] = .ok t ∧
      t.metavariables.map Metavariable.key = [("I", .single), ("X", .single)] ∧
      t.placeholders.map Metavariable.key = [] :=
  ⟨exists_compiled (by decide +kernel), exists_compiled (by decide +kernel), exists_compiled (by decide +kernel)⟩

end Template

end JavaRefactor

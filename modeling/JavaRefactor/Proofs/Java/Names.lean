import JavaRefactor.Proofs.Java.Brackets
import JavaRefactor.Proofs.Java.Words

/-!
# `Proofs.Java.Names` — what starts with two underscores is a name

No keyword of Java starts with two underscores, and no literal or symbol does. So a leaf that does is a name, of a type or of
something else.

## Contents
- **`KeepsNames`**, the nodes below which this holds.
- **`Production.opensApart`** and **`Production.sparesNames`**, read off a production, and **`keepsNames_of_derives`**.
- **`sparesNames_table`**, for the productions of Java, and **`keepsNames_of_parse?`**.
-/

namespace JavaRefactor.Java

open Syntax (Node Kind Tree)

/-- What a reserved name starts with. -/
def underscores : List Char := ['_', '_']

/-- Whether nodes of a kind are names. -/
def isName (kind : Kind) : Bool := kind == .named "identifier" || kind == .named "type_identifier"

/-- In and below a node, a leaf that starts with two underscores is a name. -/
def KeepsNames (n : Node) : Prop :=
  ∀ l tr x, Node.leaf l tr x ∈ n.listing → underscores <+: x.toList → isName l.kind = true

theorem KeepsNames.leaf {l : Syntax.Label} {tr x : String} (h : underscores <+: x.toList → isName l.kind = true) :
    KeepsNames (.leaf l tr x) := by
  intro l' tr' x' hmem hx
  rw [Node.listing, List.mem_singleton] at hmem
  obtain ⟨rfl, -, rfl⟩ := Node.leaf.inj hmem
  exact h hx

theorem KeepsNames.branch {l : Syntax.Label} {cs : List Node} (h : ∀ c ∈ cs, KeepsNames c) :
    KeepsNames (.branch l cs) := by
  intro l' tr x hmem
  rw [Node.listing, List.mem_cons] at hmem
  rcases hmem with hmem | hmem
  · exact absurd hmem (by simp)
  · obtain ⟨c, hc, hmem⟩ := Node.mem_listingAll_iff.mp hmem
    exact h c hc l' tr x hmem

/-- A role changes nothing of this. -/
theorem KeepsNames.withField {n : Node} (h : KeepsNames n) (role : String) : KeepsNames (n.withField role) := by
  cases n with
  | leaf l tr x => exact .leaf (h l tr x (Node.mem_listing_self _))
  | branch l cs =>
      exact .branch fun c hc l' tr x hmem =>
        h l' tr x (Node.mem_listing_trans (Node.mem_listing_of_mem_children hc) hmem)

namespace Lexeme

/-- Where a lexeme is no word, it does not start as one. -/
def Opens (l : Lexeme) : Prop :=
  l.text.toList ≠ [] ∧ (l.form ≠ .word → ∀ c ∈ l.text.toList.head?, Text.isNameStart c = false)

/-- A lexeme that is no word starts with a character, and that is no underscore. -/
theorem Opens.exists_cons {l : Lexeme} (h : l.Opens) (hform : l.form ≠ .word) :
    ∃ c cs, l.text.toList = c :: cs ∧ c ≠ '_' := by
  obtain ⟨c, cs, hcs⟩ := List.exists_cons_of_ne_nil h.1
  refine ⟨c, cs, hcs, ?_⟩
  rintro rfl
  have hstart := h.2 hform '_' (by rw [hcs]; rfl)
  exact absurd hstart (by decide +kernel)

theorem opens_of_apartAll {ls : List Lexeme} {next : List Char} {place : Nat} (h : ApartAll ls next)
    (hlaid : Laid place ls) : ∀ l ∈ ls, l.Opens := by
  induction ls generalizing place with
  | nil => simp
  | cons l ls ih =>
      obtain ⟨hl, hls⟩ := h
      obtain ⟨-, htext, hrest⟩ := hlaid
      intro k hk
      rcases List.mem_cons.mp hk with rfl | hk
      · exact ⟨by simpa using htext, hl.opens⟩
      · exact ih hls hrest k hk

end Lexeme

/-- What starts with another character does not start with underscores. -/
theorem not_underscores {c : Char} {cs : List Char} (h : c ≠ '_') : ¬underscores <+: c :: cs := by
  rintro ⟨rest, hrest⟩
  exact h (List.cons.inj hrest).1.symm

namespace Production

variable {σ : Type}

/-! ## What can be seen from a production -/

/-- Whether the first token that a production reads starts with another character than an underscore. -/
def opensApart : Production σ → Bool
  | .text content _ => content.toList.head?.any (· != '_')
  | .formed form _ => form != .word
  | .seq a _ => opensApart a
  | _ => false

/-- Whether a production asks for no word with two underscores in front, and makes leaves of other words to names only. -/
def sparesNames : Production σ → Bool
  | .text content _ => !underscores.isPrefixOf content.toList
  | .name kind _ => isName (.named kind)
  | .formed form _ => form != .word
  | .fuse _ a => opensApart a
  | .seq a b | .either a b | .hold a b => sparesNames a && sparesNames b
  | .many a | .regrow a | .node _ a | .field _ a | .only _ a | .starting _ _ a => sparesNames a
  | _ => true

/-! ## Reading -/

variable {g : σ → Production σ} {p : Production σ} {h xs : List Node} {ls rest : List Lexeme}

/-- What is left to read stands behind what is read. -/
theorem suffix_of_derives (hd : Derives g p h ls xs rest) : rest <:+ ls := by
  induction hd with
  | nothing | tight | finish | ahead | absent | done | held | kept => exact List.suffix_rfl
  | text | name | number | formed => exact List.suffix_cons _ _
  | seq _ _ iha ihb | more _ _ iha ihb | hold _ _ iha ihb | grown _ _ iha ihb => exact ihb.trans iha
  | left _ ih | right _ ih | field _ ih | node _ ih | fuse _ _ ih | ref _ ih | only _ ih | starting _ ih => exact ih

/-- The first token starts with another character, if that can be seen. -/
theorem head_of_derives (hd : Derives g p h ls xs rest) (hp : opensApart p = true) (hls : ∀ l ∈ ls, l.Opens) :
    ∃ l tr x more c cs, Node.tokensAll xs = .leaf l tr x :: more ∧ x.toList = c :: cs ∧ c ≠ '_' := by
  induction hd with
  | @text content kind _ l _ hl =>
      obtain ⟨c, hc, hne⟩ := (Option.any_eq_true _ _).mp hp
      obtain ⟨cs, hcs⟩ := List.head?_eq_some_iff.mp hc
      exact ⟨_, _, _, [], c, cs, rfl, (congrArg String.toList hl).trans hcs, by simpa using hne⟩
  | @formed form kind _ l _ hl =>
      obtain ⟨c, cs, hcs, hne⟩ := (hls l (List.mem_cons_self ..)).exists_cons (hl ▸ bne_iff_ne.mp hp)
      exact ⟨_, _, _, [], c, cs, rfl, hcs, hne⟩
  | @seq _ _ _ _ ys _ _ _ _ _ iha _ =>
      obtain ⟨l, tr, x, more, c, cs, htokens, hcs, hne⟩ := iha hp hls
      exact ⟨l, tr, x, more ++ Node.tokensAll ys, c, cs, by rw [tokensAll_append, htokens]; rfl, hcs, hne⟩
  | _ => exact absurd hp (by simp [opensApart])

/-- A leaf that is melted from such tokens starts as the first of them does. -/
theorem keepsNames_of_fused {kind : Kind} {leaf : Node} (hl : fused kind xs = some leaf)
    (hhead : ∃ l tr x more c cs, Node.tokensAll xs = .leaf l tr x :: more ∧ x.toList = c :: cs ∧ c ≠ '_') :
    KeepsNames leaf := by
  obtain ⟨l, tr, x, more, c, cs, htokens, hcs, hne⟩ := hhead
  unfold fused at hl
  rw [htokens] at hl
  obtain rfl := Option.some.inj hl
  refine .leaf fun hx => ?_
  rw [String.toList_append, hcs] at hx
  exact absurd hx (not_underscores hne)

/-- A leaf that is no word does not start with underscores. -/
theorem keepsNames_leafOf {kind : Kind} {l : Lexeme} (hl : l.Opens) (hform : l.form ≠ .word) : KeepsNames (leafOf kind l) := by
  obtain ⟨c, cs, hcs, hne⟩ := hl.exists_cons hform
  refine .leaf fun hx => ?_
  rw [hcs] at hx
  exact absurd hx (not_underscores hne)

/-- **What a production reads** is named, if names are spared by all productions. -/
theorem keepsNames_of_derives (hg : ∀ s, sparesNames (g s) = true) (hd : Derives g p h ls xs rest)
    (hp : sparesNames p = true) (hls : ∀ l ∈ ls, l.Opens) (hh : ∀ n ∈ h, KeepsNames n) : ∀ n ∈ xs, KeepsNames n := by
  -- by the ways to read, whatever is held
  induction hd with
  | nothing | tight | finish | ahead | absent | done => exact fun n hn => absurd hn (by simp)
  | text hl =>
      intro n hn
      rw [List.mem_singleton.mp hn]
      refine .leaf fun hx => ?_
      rw [hl] at hx
      rw [sparesNames, List.isPrefixOf_iff_prefix.mpr hx] at hp
      exact absurd hp (by simp)
  | name =>
      intro n hn
      rw [List.mem_singleton.mp hn]
      exact .leaf fun _ => hp
  | @number _ _ l _ hl =>
      intro n hn
      rw [List.mem_singleton.mp hn]
      exact keepsNames_leafOf (hls l (List.mem_cons_self ..)) (by simp [hl])
  | @formed _ _ _ l _ hl =>
      intro n hn
      rw [List.mem_singleton.mp hn]
      exact keepsNames_leafOf (hls l (List.mem_cons_self ..)) (hl ▸ bne_iff_ne.mp hp)
  | seq hda _ iha ihb =>
      obtain ⟨ha, hb⟩ := (Bool.and_eq_true _ _).mp hp
      have hmid := fun l hl => hls l ((suffix_of_derives hda).subset hl)
      intro n hn
      exact (List.mem_append.mp hn).elim (iha ha hls hh n) (ihb hb hmid hh n)
  | left _ iha => exact iha ((Bool.and_eq_true _ _).mp hp).1 hls hh
  | right _ ihb => exact ihb ((Bool.and_eq_true _ _).mp hp).2 hls hh
  | more hda _ iha ihm =>
      have hmid := fun l hl => hls l ((suffix_of_derives hda).subset hl)
      intro n hn
      exact (List.mem_append.mp hn).elim (iha hp hls hh n) (ihm hp hmid hh n)
  | field _ iha =>
      intro n hn
      obtain ⟨m, hm, rfl⟩ := List.mem_map.mp hn
      exact (iha hp hls hh m hm).withField _
  | node _ iha =>
      intro n hn
      rw [List.mem_singleton.mp hn]
      exact .branch (iha hp hls hh)
  | fuse hda hl _ =>
      intro n hn
      rw [List.mem_singleton.mp hn]
      exact keepsNames_of_fused hl (head_of_derives hda hp hls)
  | @ref s _ _ _ _ _ ihs => exact ihs (hg s) hls (fun n hn => absurd hn (by simp))
  | held | kept => exact hh
  | hold hda _ iha ihb =>
      obtain ⟨ha, hb⟩ := (Bool.and_eq_true _ _).mp hp
      exact ihb hb (fun l hl => hls l ((suffix_of_derives hda).subset hl)) (iha ha hls hh)
  | grown hda _ iha ihr =>
      exact ihr hp (fun l hl => hls l ((suffix_of_derives hda).subset hl)) (iha hp hls hh)
  | only _ iha | starting _ iha => exact iha hp hls hh

end Production

/-! ## The table -/

namespace Grammar

open Production

/-- What an operand grows by spares names, whatever the level of the operators. -/
theorem sparesNames_operatorSteps {place : Place} {arrow : Bool} {level : Nat} :
    sparesNames (operatorSteps place arrow level) = true := by
  refine operatorSteps_of_all (P := fun p => sparesNames p = true) rfl ?_ ?_
  · intro a b ha hb
    exact (Bool.and_eq_true _ _).mpr ⟨ha, hb⟩
  · cases place <;> cases arrow <;> decide +kernel

/-- **Every production of Java spares names** that start with two underscores. -/
theorem sparesNames_table : ∀ s, sparesNames (table s) = true := by
  refine forall_symbols ?_ (by decide +kernel)
  intro place arrow level
  show (true && sparesNames (operatorSteps place.inner arrow level)) = true
  rw [sparesNames_operatorSteps]
  rfl

end Grammar

/-! ## Texts -/

/-- **In a Java text** what starts with two underscores is a name. -/
theorem keepsNames_of_parse? {source : String} {t : Tree} (h : parse? source = some t) : KeepsNames t.root := by
  obtain ⟨ls, trailing, nodes, hls, rfl, hd⟩ := derives_of_parse? h
  have hopens := Lexeme.opens_of_apartAll (Lexeme.apartAll_of_ofText? hls) (Lexeme.ofText?_spec hls).2
  have hsymbol : Production.sparesNames (.ref .program : Grammar.Phrase) = true := rfl
  exact .branch
    (Production.keepsNames_of_derives Grammar.sparesNames_table hd hsymbol hopens fun n hn => absurd hn (by simp))

end JavaRefactor.Java

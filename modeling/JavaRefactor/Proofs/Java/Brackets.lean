import JavaRefactor.Proofs.Java.Derives
import JavaRefactor.Proofs.Java.Symbols
import JavaRefactor.Proofs.Syntax.Listing

/-!
# `Proofs.Java.Brackets` — brackets of a Java tree are in pairs

A bracket is a bare token. What a part of a production does to the brackets that are due can be seen from the
production: some of them it closes, and some new ones it opens. A node is made only where nothing is due that was not due
before, so the brackets below each node are in pairs.

## Contents
- **Brackets.** `dueBehind`, the brackets that are due behind a token; `Balanced`, for the kinds of tokens.
- **`Effect`**, what some tokens do to the brackets that are due, and **`Acts`**, that they do.
- **`Production.effect`**, read off a production, and **`acts_of_derives`**.
- **`Bracketed`**, the nodes below which all brackets are in pairs; **`bracketed_of_derives`**.
- **`effect_table`**, for the productions of Java, and **`bracketed_of_parse?`**.
-/

namespace JavaRefactor.Java

open Syntax (Node Kind Tree)

/-! ## Brackets -/

/-- The brackets that open with those that close them. -/
def bracketPairs : List (String × String) := [("(", ")"), ("[", "]"), ("\x7b", "\x7d")]

/-- The bracket that closes what a token opens. -/
def closerOf (content : String) : Option String := (bracketPairs.find? (·.1 == content)).map (·.2)

/-- Whether a token is a bracket that closes. -/
def isCloser (content : String) : Bool := bracketPairs.any (·.2 == content)

/-- Whether a token is a bracket. -/
def isBracket (content : String) : Bool := (closerOf content).isSome || isCloser content

/-- Whether nodes of a kind are no brackets. -/
def isPlain : Kind → Bool
  | .named _ => true
  | .token content => !isBracket content

/-- The brackets that are due behind a token, innermost first; none if it closes another one than is due. -/
def dueBehind (due : List String) : Kind → Option (List String)
  | .named _ => some due
  | .token content =>
    match closerOf content with
    | some closer => some (closer :: due)
    | none =>
      if isCloser content then
        match due with
        | [] => none
        | closer :: outer => if closer == content then some outer else none
      else some due

/-- The brackets that are due behind tokens of these kinds. -/
def dueBehindAll (due : List String) (kinds : List Kind) : Option (List String) := kinds.foldlM dueBehind due

/-- Brackets are in pairs, each closed by its own and the inner ones first. -/
def Balanced (kinds : List Kind) : Prop := dueBehindAll [] kinds = some []

/-- The kinds of the tokens of some nodes. -/
def kindsOf (ns : List Node) : List Kind := (Node.tokensAll ns).map Node.kind

theorem dueBehindAll_append (due : List String) (ks ms : List Kind) :
    dueBehindAll due (ks ++ ms) = (dueBehindAll due ks).bind (dueBehindAll · ms) := List.foldlM_append

theorem dueBehindAll_singleton (due : List String) (kind : Kind) :
    dueBehindAll due [kind] = dueBehind due kind := by
  show (dueBehind due kind).bind some = dueBehind due kind
  cases dueBehind due kind <;> rfl

theorem Balanced.append {ks ms : List Kind} (hk : Balanced ks) (hm : Balanced ms) : Balanced (ks ++ ms) := by
  unfold Balanced at hk hm ⊢
  rw [dueBehindAll_append, hk]
  exact hm

theorem tokensAll_append (ns ms : List Node) :
    Node.tokensAll (ns ++ ms) = Node.tokensAll ns ++ Node.tokensAll ms := by
  induction ns with
  | nil => rfl
  | cons n ns ih => rw [List.cons_append, Node.tokensAll, Node.tokensAll, ih, List.append_assoc]

theorem kindsOf_append (ns ms : List Node) : kindsOf (ns ++ ms) = kindsOf ns ++ kindsOf ms := by
  unfold kindsOf
  rw [tokensAll_append, List.map_append]

/-- A role changes no token. -/
theorem kindsOf_withField (role : String) (ns : List Node) : kindsOf (ns.map (Node.withField role)) = kindsOf ns := by
  induction ns with
  | nil => rfl
  | cons n ns ih =>
      unfold kindsOf at ih ⊢
      rw [List.map_cons, Node.tokensAll, Node.tokensAll, List.map_append, List.map_append, ih]
      cases n <;> rfl

/-! ## Effects -/

/-- Some tokens close brackets that are due, and leave others due. -/
structure Effect where
  closes : List String
  opens : List String
  deriving DecidableEq, Repr

namespace Effect

/-- The effect of tokens with no bracket but in pairs. -/
def none : Effect := ⟨[], []⟩

/-- The effect of one behind the other, where they close what is due. -/
def andThen (a b : Effect) : Option Effect :=
  if b.closes.isPrefixOf a.opens then some ⟨a.closes, b.opens ++ a.opens.drop b.closes.length⟩
  else if a.opens.isPrefixOf b.closes then some ⟨a.closes ++ b.closes.drop a.opens.length, b.opens⟩
  else Option.none

/-- The effect of a leaf of a kind that is spelled as given. -/
def ofToken (content : String) : Kind → Option Effect
  | .named _ => some none
  | .token bracket =>
    if isBracket bracket && bracket != content then Option.none
    else
      match closerOf bracket with
      | some closer => some ⟨[], [closer]⟩
      | Option.none => if isCloser bracket then some ⟨[bracket], []⟩ else some none

end Effect

/-- Tokens of these kinds have the effect, whatever else is due. -/
def Acts (e : Effect) (kinds : List Kind) : Prop :=
  ∀ due, dueBehindAll (e.closes ++ due) kinds = some (e.opens ++ due)

theorem Acts.balanced {kinds : List Kind} (h : Acts .none kinds) : Balanced kinds := h []

theorem acts_nil : Acts .none [] := fun _ => rfl

theorem acts_plain {kind : Kind} (h : isPlain kind = true) : Acts .none [kind] := by
  cases kind with
  | named name => exact fun _ => rfl
  | token content =>
      obtain ⟨hopens, hcloses⟩ : (closerOf content).isSome = false ∧ isCloser content = false := by
        simpa [isPlain, isBracket] using h
      intro due
      have hnone : closerOf content = Option.none := by simpa using hopens
      simp [dueBehindAll_singleton, dueBehind, hnone, hcloses, Effect.none]

theorem Acts.append {a b e : Effect} {ks ms : List Kind} (ha : Acts a ks) (hb : Acts b ms)
    (he : a.andThen b = some e) : Acts e (ks ++ ms) := by
  intro due
  rw [dueBehindAll_append]
  unfold Effect.andThen at he
  split at he
  · rename_i hfront
    obtain ⟨more, hmore⟩ := List.isPrefixOf_iff_prefix.mp hfront
    obtain rfl := Option.some.inj he
    rw [ha due, Option.bind_some, ← hmore, List.append_assoc, hb, List.drop_left, List.append_assoc]
  · split at he
    · rename_i hfront
      obtain ⟨more, hmore⟩ := List.isPrefixOf_iff_prefix.mp hfront
      obtain rfl := Option.some.inj he
      show (dueBehindAll (a.closes ++ b.closes.drop a.opens.length ++ due) ks).bind _ = _
      rw [← hmore, List.drop_left, List.append_assoc, ha, Option.bind_some, ← List.append_assoc, hmore, hb]
    · exact absurd he (by simp)

/-- A leaf has the effect of its kind. -/
theorem acts_ofToken {content : String} {kind : Kind} {e : Effect} (h : Effect.ofToken content kind = some e) :
    Acts e [kind] := by
  intro due
  rw [dueBehindAll_singleton]
  cases kind with
  | named name =>
      obtain rfl := Option.some.inj h
      rfl
  | token bracket =>
      unfold Effect.ofToken at h
      dsimp only at h
      split at h
      · exact absurd h (by simp)
      · unfold dueBehind
        dsimp only
        split at h
        · rename_i closer hcloser
          obtain rfl := Option.some.inj h
          rfl
        · rename_i hopens
          split at h
          · rename_i hcloser
            obtain rfl := Option.some.inj h
            simp [hcloser]
          · rename_i hcloser
            obtain rfl := Option.some.inj h
            simp [hcloser, Effect.none]

/-! ## Nodes -/

/-- Brackets below a node are in pairs, and a leaf that is a bracket is spelled as one. -/
def Paired : Node → Prop
  | .leaf l _ text => ∀ bracket, l.kind = .token bracket → isBracket bracket = true → text = bracket
  | .branch _ cs => Balanced (kindsOf cs)

/-- In and below a node all brackets are in pairs. -/
def Bracketed (n : Node) : Prop := ∀ m ∈ n.listing, Paired m

namespace Bracketed

theorem leaf {l : Syntax.Label} {tr x : String} (h : Paired (.leaf l tr x)) : Bracketed (.leaf l tr x) := by
  intro m hm
  rw [Node.listing, List.mem_singleton] at hm
  exact hm ▸ h

theorem branch {l : Syntax.Label} {cs : List Node} (hcs : ∀ c ∈ cs, Bracketed c) (h : Balanced (kindsOf cs)) :
    Bracketed (.branch l cs) := by
  intro m hm
  rw [Node.listing, List.mem_cons] at hm
  rcases hm with rfl | hm
  · exact h
  · obtain ⟨c, hc, hm⟩ := Node.mem_listingAll_iff.mp hm
    exact hcs c hc m hm

theorem of_mem_listing {n m : Node} (h : Bracketed n) (hm : m ∈ n.listing) : Bracketed m :=
  fun k hk => h k (Node.mem_listing_trans hm hk)

/-- A role changes nothing of this. -/
theorem withField {n : Node} (h : Bracketed n) (role : String) : Bracketed (n.withField role) := by
  cases n with
  | leaf l tr x =>
      have hpaired : Paired (.leaf l tr x) := h _ (Node.mem_listing_self _)
      exact leaf hpaired
  | branch l cs =>
      exact branch (fun c hc => h.of_mem_listing (Node.mem_listing_of_mem_children hc)) (h _ (Node.mem_listing_self _))

end Bracketed

namespace Production

variable {σ : Type}

/-! ## What can be seen from a production -/

/-- The effect of one of two productions, if it is that of the other as well. -/
def sameEffect (a b : Option Effect) : Option Effect := if a = b then a else none

/-- What a production does to the brackets that are due, if it makes nodes, repeats and grows only where that is
    nothing. What is held and what symbols name is taken to do nothing. -/
def effect : Production σ → Option Effect
  | .text content kind => Effect.ofToken content kind
  | .seq a b => (effect a).bind fun x => (effect b).bind x.andThen
  | .either a b => sameEffect (effect a) (effect b)
  | .many a | .regrow a | .node _ a => sameEffect (effect a) (some .none)
  | .fuse kind _ => if isPlain kind then some .none else none
  | .field _ a | .only _ a | .starting _ _ a => effect a
  | .hold a b => if effect a = some .none then effect b else none
  | _ => some .none

theorem sameEffect_eq {a b : Option Effect} {e : Effect} (h : sameEffect a b = some e) : a = some e ∧ b = some e := by
  unfold sameEffect at h
  split at h
  · rename_i hab
    exact ⟨h, hab ▸ h⟩
  · exact absurd h (by simp)

/-! ## Reading -/

/-- Nodes are melted into a leaf of the kind that is asked for. -/
theorem eq_leaf_of_fused {kind : Kind} {ns : List Node} {n : Node} (h : fused kind ns = some n) :
    ∃ span tr x, n = .leaf ⟨kind, none, span⟩ tr x := by
  unfold fused at h
  split at h
  · exact ⟨_, _, _, (Option.some.inj h).symm⟩
  · exact absurd h (by simp)

variable {g : σ → Production σ} {p : Production σ} {e : Effect} {h xs : List Node} {ls rest : List Lexeme}

/-- **What a production reads** has the effect that can be seen from it. -/
theorem acts_of_derives (hg : ∀ s, effect (g s) = some .none) (hd : Derives g p h ls xs rest)
    (hp : effect p = some e) (hh : Acts .none (kindsOf h)) : Acts e (kindsOf xs) := by
  -- by the ways to read, whatever is held
  induction hd generalizing e with
  | nothing | tight | finish | ahead | absent =>
      obtain rfl := Option.some.inj hp
      exact acts_nil
  | text _ => exact acts_ofToken hp
  | name | number | formed =>
      obtain rfl := Option.some.inj hp
      exact acts_plain rfl
  | seq _ _ iha ihb =>
      obtain ⟨a, ha, hb⟩ := Option.bind_eq_some_iff.mp hp
      obtain ⟨b, hb, he⟩ := Option.bind_eq_some_iff.mp hb
      rw [kindsOf_append]
      exact (iha ha hh).append (ihb hb hh) he
  | left _ iha => exact iha (sameEffect_eq hp).1 hh
  | right _ ihb => exact ihb (sameEffect_eq hp).2 hh
  | done =>
      obtain rfl := Option.some.inj (sameEffect_eq hp).2
      exact acts_nil
  | more _ _ iha ihm =>
      obtain ⟨ha, he⟩ := sameEffect_eq hp
      obtain rfl := Option.some.inj he
      rw [kindsOf_append]
      exact (iha ha hh).append (ihm hp hh) rfl
  | field _ iha =>
      rw [kindsOf_withField]
      exact iha hp hh
  | node _ iha =>
      obtain ⟨ha, he⟩ := sameEffect_eq hp
      obtain rfl := Option.some.inj he
      have hacts := iha ha hh
      unfold kindsOf branchOf
      rwa [Node.tokensAll, Node.tokens, Node.tokensAll, List.append_nil]
  | fuse _ hl _ =>
      obtain ⟨hplain, he⟩ := Option.ite_none_right_eq_some.mp hp
      obtain rfl := Option.some.inj he
      obtain ⟨span, tr, x, rfl⟩ := eq_leaf_of_fused hl
      exact acts_plain hplain
  | @ref s _ _ _ _ _ ihs =>
      obtain rfl := Option.some.inj hp
      exact ihs (hg s) acts_nil
  | held =>
      obtain rfl := Option.some.inj hp
      exact hh
  | hold _ _ iha ihb =>
      obtain ⟨ha, hb⟩ := Option.ite_none_right_eq_some.mp hp
      exact ihb hb (iha ha hh)
  | kept =>
      obtain rfl := Option.some.inj (sameEffect_eq hp).2
      exact hh
  | grown _ _ iha ihr =>
      -- what has grown is held in its turn
      obtain ⟨ha, he⟩ := sameEffect_eq hp
      obtain rfl := Option.some.inj he
      exact ihr hp (iha ha hh)
  | only _ iha | starting _ iha => exact iha hp hh

/-- A leaf that is a bracket is spelled as one. -/
theorem paired_leafOf {content : String} {kind : Kind} {l : Lexeme} (hl : l.text = content)
    (h : Effect.ofToken content kind = some e) : Paired (leafOf kind l) := by
  rintro bracket rfl hbracket
  unfold Effect.ofToken at h
  dsimp only at h
  split at h
  · exact absurd h (by simp)
  · rename_i hsame
    have hcontent : bracket = content := by simpa [hbracket] using hsame
    rw [hl, hcontent]

theorem paired_of_isPlain {kind : Kind} {span : Text.Span} {tr x : String} (h : isPlain kind = true) :
    Paired (.leaf ⟨kind, none, span⟩ tr x) := by
  rintro bracket rfl hbracket
  rw [isPlain, hbracket] at h
  exact absurd h (by simp)

/-- **What a production reads** has its brackets in pairs. -/
theorem bracketed_of_derives (hg : ∀ s, effect (g s) = some .none) (hd : Derives g p h ls xs rest)
    (hp : effect p = some e) (hh : Acts .none (kindsOf h)) (hheld : ∀ n ∈ h, Bracketed n) :
    ∀ n ∈ xs, Bracketed n := by
  -- by the ways to read, whatever is held
  induction hd generalizing e with
  | nothing | tight | finish | ahead | absent | done => exact fun n hn => absurd hn (by simp)
  | text hl =>
      intro n hn
      rw [List.mem_singleton.mp hn]
      exact .leaf (paired_leafOf hl hp)
  | name | number | formed =>
      intro n hn
      rw [List.mem_singleton.mp hn]
      exact .leaf (paired_of_isPlain rfl)
  | seq _ _ iha ihb =>
      obtain ⟨a, ha, hb⟩ := Option.bind_eq_some_iff.mp hp
      obtain ⟨b, hb, -⟩ := Option.bind_eq_some_iff.mp hb
      intro n hn
      exact (List.mem_append.mp hn).elim (iha ha hh hheld n) (ihb hb hh hheld n)
  | left _ iha => exact iha (sameEffect_eq hp).1 hh hheld
  | right _ ihb => exact ihb (sameEffect_eq hp).2 hh hheld
  | more _ _ iha ihm =>
      intro n hn
      exact (List.mem_append.mp hn).elim (iha (sameEffect_eq hp).1 hh hheld n) (ihm hp hh hheld n)
  | field _ iha =>
      intro n hn
      obtain ⟨m, hm, rfl⟩ := List.mem_map.mp hn
      exact (iha hp hh hheld m hm).withField _
  | node hda iha =>
      obtain ⟨ha, he⟩ := sameEffect_eq hp
      intro n hn
      rw [List.mem_singleton.mp hn]
      exact .branch (iha ha hh hheld) (acts_of_derives hg hda (ha.trans (he ▸ rfl)) hh).balanced
  | fuse _ hl _ =>
      obtain ⟨hplain, -⟩ := Option.ite_none_right_eq_some.mp hp
      intro n hn
      obtain ⟨span, tr, x, rfl⟩ := eq_leaf_of_fused hl
      rw [List.mem_singleton.mp hn]
      exact .leaf (paired_of_isPlain hplain)
  | @ref s _ _ _ _ _ ihs => exact ihs (hg s) acts_nil (fun n hn => absurd hn (by simp))
  | held | kept => exact hheld
  | hold hda _ iha ihb =>
      obtain ⟨ha, hb⟩ := Option.ite_none_right_eq_some.mp hp
      exact ihb hb (acts_of_derives hg hda ha hh) (iha ha hh hheld)
  | grown hda _ iha ihr =>
      obtain ⟨ha, he⟩ := sameEffect_eq hp
      obtain rfl := Option.some.inj he
      exact ihr hp (acts_of_derives hg hda ha hh) (iha ha hh hheld)
  | only _ iha | starting _ iha => exact iha hp hh hheld

end Production

/-! ## The table -/

namespace Grammar

open Production

/-- What an operand grows by has its brackets in pairs, whatever the level of the operators. -/
theorem effect_operatorSteps {place : Place} {arrow : Bool} {level : Nat} :
    effect (operatorSteps place arrow level) = some .none := by
  refine operatorSteps_of_all (P := fun p => effect p = some .none) rfl ?_ ?_
  · intro a b ha hb
    rw [effect, ha, hb]
    rfl
  · cases place <;> cases arrow <;> decide +kernel

/-- **Every production of Java closes the brackets that it opens.** -/
theorem effect_table : ∀ s, effect (table s) = some .none := by
  refine forall_symbols ?_ (by decide +kernel)
  intro place arrow level
  show (if some Effect.none = some Effect.none then sameEffect (effect (operatorSteps place.inner arrow level)) _
    else none) = _
  rw [effect_operatorSteps]
  rfl

end Grammar

/-! ## Texts -/

/-- **In a Java text** all brackets are in pairs, below each node. -/
theorem bracketed_of_parse? {source : String} {t : Tree} (h : parse? source = some t) : Bracketed t.root := by
  obtain ⟨ls, trailing, nodes, -, rfl, hd⟩ := derives_of_parse? h
  have hsymbol : Production.effect (.ref .program : Grammar.Phrase) = some .none := rfl
  exact .branch
    (Production.bracketed_of_derives Grammar.effect_table hd hsymbol acts_nil fun n hn => absurd hn (by simp))
    (Production.acts_of_derives Grammar.effect_table hd hsymbol acts_nil).balanced

end JavaRefactor.Java

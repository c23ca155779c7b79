import JavaRefactor.Java.Production
import JavaRefactor.Proofs.Java.Lexeme

/-!
# `Proofs.Java.Cover` — nodes and the lexemes they are made of

A node of a Java text is made of neighbouring lexemes. It starts with the text of the first of them, whose
trivia stands in front of the node, and ends with the text of the last one; its children share its
lexemes among themselves, in order.

## Contents
- **`Covers`** and **`CoversAll`**, lexemes of a node and of neighbouring nodes.
- **Spans.** `extent`, the bytes that lexemes take, and `CoversAll.spanOf_eq`.
- **Texts.** `Covers.print_eq`: a node is printed as its lexemes are spelled; `CoversAll.tokensAll`, its tokens.
- **Descendants.** `CoversAll.of_mem_listingAll`: what stands below a node is made of some of its lexemes.
-/

namespace JavaRefactor.Java

open Lexeme (spelling Laid)
open Syntax (Node Kind Label)
open Text (Span byteLength)

/-! ## Lexemes of nodes -/

/-- The bytes from the start of the first lexeme to the end of the last one. -/
def extent (ls : List Lexeme) : Span :=
  match ls.head?, ls.getLast? with
  | some a, some b => ⟨a.start, b.stop⟩
  | _, _ => ⟨0, 0⟩

mutual

/-- A node is made of the lexemes. -/
inductive Covers : List Lexeme → Node → Prop where
  | leaf {l : Lexeme} {ls : List Lexeme} {kind : Kind} {field : Option String} {text : String}
      (h : text.toList = l.text.toList ++ spelling ls) :
      Covers (l :: ls) (.leaf ⟨kind, field, extent (l :: ls)⟩ l.trivia text)
  | branch {l : Lexeme} {ls : List Lexeme} {kind : Kind} {field : Option String} {ns : List Node}
      (h : CoversAll (l :: ls) ns) :
      Covers (l :: ls) (.branch ⟨kind, field, extent (l :: ls)⟩ ns)

/-- Neighbouring nodes are made of the lexemes, one behind the other. -/
inductive CoversAll : List Lexeme → List Node → Prop where
  | nil : CoversAll [] []
  | cons {ls ms : List Lexeme} {n : Node} {ns : List Node} (h : Covers ls n) (hs : CoversAll ms ns) :
      CoversAll (ls ++ ms) (n :: ns)

end

variable {l : Lexeme} {ls ms : List Lexeme} {n : Node} {ns : List Node}

/-- A node has a lexeme. -/
theorem Covers.exists_cons (h : Covers ls n) : ∃ l ls', ls = l :: ls' := by
  cases h with
  | leaf => exact ⟨_, _, rfl⟩
  | branch => exact ⟨_, _, rfl⟩

theorem CoversAll.single (h : Covers ls n) : CoversAll ls [n] := by
  have hs := CoversAll.cons h .nil
  rwa [List.append_nil] at hs

theorem CoversAll.of_single (h : CoversAll ls [n]) : Covers ls n := by
  cases h with
  | cons hn hnone =>
      cases hnone
      rwa [List.append_nil]

theorem CoversAll.append {ms' : List Node} (h : CoversAll ls ns) (h' : CoversAll ms ms') :
    CoversAll (ls ++ ms) (ns ++ ms') := by
  induction ns generalizing ls with
  | nil => cases h; exact h'
  | cons n ns ih =>
      cases h with
      | cons hn hns =>
          rw [List.append_assoc]
          exact .cons hn (ih hns)

/-- Nodes in front of others are made of lexemes in front of theirs. -/
theorem CoversAll.append_inv {front rest : List Node} (h : CoversAll ls (front ++ rest)) :
    ∃ ls' ms, ls = ls' ++ ms ∧ CoversAll ls' front ∧ CoversAll ms rest := by
  induction front generalizing ls with
  | nil => exact ⟨[], ls, rfl, .nil, h⟩
  | cons n ns ih =>
      cases h with
      | @cons ls ms _ _ hn hns =>
          obtain ⟨ls', ms', rfl, hfront, hrest⟩ := ih hns
          exact ⟨ls ++ ls', ms', by simp, .cons hn hfront, hrest⟩

/-- Some neighbours among nodes are made of some of their lexemes. -/
theorem CoversAll.of_infix {xs : List Node} (h : CoversAll ls ns) (hxs : xs <:+: ns) :
    ∃ part, part <:+: ls ∧ CoversAll part xs := by
  obtain ⟨front, rest, rfl⟩ := hxs
  obtain ⟨ls', behind, rfl, hls', -⟩ := h.append_inv
  obtain ⟨before, part, rfl, -, hpart⟩ := hls'.append_inv
  exact ⟨part, ⟨before, behind, rfl⟩, hpart⟩

theorem CoversAll.eq_nil (h : CoversAll [] ns) : ns = [] := by
  generalize hls : ([] : List Lexeme) = ls at h
  cases h with
  | nil => rfl
  | cons hn hns =>
      obtain ⟨l, ls', rfl⟩ := hn.exists_cons
      exact absurd hls (by simp)

theorem CoversAll.ne_nil (h : CoversAll ls ns) (hl : ls ≠ []) : ns ≠ [] := by
  cases h with
  | nil => exact absurd rfl hl
  | cons => simp

/-- A role changes nothing of what a node is made of. -/
theorem Covers.withField (role : String) (h : Covers ls n) : Covers ls (n.withField role) := by
  cases h with
  | leaf h => exact .leaf h
  | branch h => exact .branch h

theorem CoversAll.withField (role : String) (h : CoversAll ls ns) :
    CoversAll ls (ns.map (Node.withField role)) := by
  induction ns generalizing ls with
  | nil => exact h
  | cons n ns ih =>
      cases h with
      | cons hn hns => exact .cons (hn.withField role) (ih hns)

/-! ## Spans -/

theorem Covers.span_eq (h : Covers ls n) : n.span = extent ls := by
  cases h with
  | leaf => rfl
  | branch => rfl

/-- Neighbouring nodes start and end where their lexemes do. -/
theorem CoversAll.ends_eq (h : CoversAll ls ns) :
    ns.head?.map (·.span.start) = ls.head?.map (·.start) ∧
      ns.getLast?.map (·.span.stop) = ls.getLast?.map (·.stop) := by
  induction ns generalizing ls with
  | nil => cases h; exact ⟨rfl, rfl⟩
  | cons n ns ih =>
      cases h with
      | @cons ls ms _ _ hn hns =>
          obtain ⟨l, ls', rfl⟩ := hn.exists_cons
          have hspan := hn.span_eq
          obtain ⟨-, hlast⟩ := ih hns
          constructor
          · simp [hspan, extent, List.getLast?_cons]
          · rw [List.getLast?_cons, List.getLast?_append]
            cases hb : ns.getLast? with
            | none =>
                rw [hb] at hlast
                rw [Option.map_eq_none_iff.mp hlast.symm]
                simp [hspan, extent, List.getLast?_cons]
            | some m =>
                rw [hb] at hlast
                obtain ⟨b, hb', hstop⟩ := Option.map_eq_some_iff.mp hlast.symm
                rw [hb']
                simp [hstop]

/-- **The span of neighbouring nodes** is the extent of their lexemes. -/
theorem CoversAll.spanOf_eq (h : CoversAll ls ns) : Syntax.spanOf ns = extent ls := by
  obtain ⟨hstart, hstop⟩ := h.ends_eq
  unfold Syntax.spanOf extent
  cases hh : ns.head? with
  | none =>
      rw [hh] at hstart
      rw [Option.map_eq_none_iff.mp hstart.symm]
  | some a =>
      rw [hh] at hstart
      obtain ⟨a', ha', hstart⟩ := Option.map_eq_some_iff.mp hstart.symm
      rw [ha']
      cases hl : ns.getLast? with
      | none =>
          rw [hl] at hstop
          rw [Option.map_eq_none_iff.mp hstop.symm]
      | some b =>
          rw [hl] at hstop
          obtain ⟨b', hb', hstop⟩ := Option.map_eq_some_iff.mp hstop.symm
          rw [hb']
          simp only [hstart, hstop]

/-- The last of the lexemes that start at byte `place` ends where their spelling does. -/
theorem stop_of_laid {place : Nat} (h : Laid place (l :: ls)) :
    (ls.getLast?.getD l).stop = place + byteLength (spelling (l :: ls)) := by
  induction ls generalizing place l with
  | nil =>
      obtain ⟨hl, -, -⟩ := h
      rw [List.getLast?_nil, Option.getD_none, Lexeme.stop_eq, hl, Lexeme.spelling_cons,
        Lexeme.spelling_nil, List.append_nil, Text.byteLength_append]
      omega
  | cons m ls ih =>
      obtain ⟨hl, -, hrest⟩ := h
      rw [List.getLast?_cons, Option.getD_some, ih hrest, Lexeme.stop_eq, hl, Lexeme.spelling_cons l,
        Text.byteLength_append, Text.byteLength_append]
      omega

/-- Lexemes that start at byte `place` take the bytes from behind the first trivia to where the next ones
    start. -/
theorem extent_of_laid {place : Nat} (h : Laid place (l :: ls)) :
    extent (l :: ls) = ⟨place + byteLength l.trivia.toList, place + byteLength (spelling (l :: ls))⟩ := by
  have hstart : l.start = place + byteLength l.trivia.toList := h.1
  unfold extent
  rw [List.head?_cons, List.getLast?_cons]
  simp only [hstart, stop_of_laid h]

/-! ## Texts -/

theorem printAll_append (ns ms : List Node) :
    (Node.printAll (ns ++ ms)).toList = (Node.printAll ns).toList ++ (Node.printAll ms).toList := by
  unfold Node.printAll
  simp only [String.toList_join, List.map_append, List.flatMap_append]

theorem printAll_cons (n : Node) (ns : List Node) :
    (Node.printAll (n :: ns)).toList = n.fullText.toList ++ (Node.printAll ns).toList := by
  unfold Node.printAll
  simp only [String.toList_join, List.map_cons, List.flatMap_cons]

mutual

/-- The tokens of a node are printed as its lexemes are spelled. -/
theorem Covers.printAll_tokens : ∀ {n : Node} {ls : List Lexeme}, Covers ls n →
    (Node.printAll n.tokens).toList = spelling ls
  | .leaf _ _ _, _, h => by
      cases h with
      | leaf h =>
          rw [Node.tokens, printAll_cons, Node.fullText, String.toList_append, h]
          simp [Node.printAll]
  | .branch _ ns, _, h => by
      cases h with
      | branch h => exact h.printAll_tokens

/-- The tokens of neighbouring nodes are printed as their lexemes are spelled. -/
theorem CoversAll.printAll_tokens : ∀ {ns : List Node} {ls : List Lexeme}, CoversAll ls ns →
    (Node.printAll (Node.tokensAll ns)).toList = spelling ls
  | [], _, h => by
      cases h
      rfl
  | n :: ns, _, h => by
      cases h with
      | cons hn hns =>
          rw [Node.tokensAll, printAll_append, hn.printAll_tokens, hns.printAll_tokens,
            Lexeme.spelling_append]

end

mutual

/-- The first token of a node has the trivia of its first lexeme. -/
theorem Covers.exists_token : ∀ {n : Node} {l : Lexeme} {ls : List Lexeme}, Covers (l :: ls) n →
    ∃ label text rest, n.tokens = .leaf label l.trivia text :: rest
  | .leaf _ _ _, _, _, h => by
      cases h with
      | leaf => exact ⟨_, _, _, rfl⟩
  | .branch _ ns, _, _, h => by
      cases h with
      | branch h => exact h.exists_token

theorem CoversAll.exists_token : ∀ {ns : List Node} {l : Lexeme} {ls : List Lexeme},
    CoversAll (l :: ls) ns → ∃ label text rest, Node.tokensAll ns = .leaf label l.trivia text :: rest
  | [], _, _, h => absurd rfl (h.ne_nil (by simp))
  | n :: ns, l, ls, h => by
      generalize hall : l :: ls = all at h
      cases h with
      | cons hn hns =>
          obtain ⟨l', ls', rfl⟩ := hn.exists_cons
          obtain rfl : l = l' := (List.cons.inj hall).1
          obtain ⟨label, text, rest, hrest⟩ := hn.exists_token
          exact ⟨label, text, rest ++ Node.tokensAll ns, by rw [Node.tokensAll, hrest]; rfl⟩

end

mutual

/-- The tokens of a node are made of its lexemes. -/
theorem Covers.tokens : ∀ {n : Node} {ls : List Lexeme}, Covers ls n → CoversAll ls n.tokens
  | .leaf _ _ _, _, h => .single h
  | .branch _ ns, _, h => by
      cases h with
      | branch h => exact h.tokensAll

theorem CoversAll.tokensAll : ∀ {ns : List Node} {ls : List Lexeme}, CoversAll ls ns →
    CoversAll ls (Node.tokensAll ns)
  | [], _, h => h
  | n :: ns, _, h => by
      cases h with
      | cons hn hns => exact hn.tokens.append hns.tokensAll

end

/-- Behind the trivia in front of it, what is printed of the tokens of some nodes is the text of the first
    lexeme and what follows it. -/
theorem print_of_token {label : Label} {text : String} {tokens rest : List Node}
    (h : tokens = .leaf label l.trivia text :: rest)
    (hp : (Node.printAll tokens).toList = spelling (l :: ls)) :
    (text ++ Node.printAll rest).toList = l.text.toList ++ spelling ls := by
  rw [h, printAll_cons, Node.fullText, String.toList_append, Lexeme.spelling_cons, List.append_assoc,
    List.append_assoc] at hp
  rw [String.toList_append]
  exact List.append_cancel_left hp

/-- **A node is printed as its lexemes are spelled**, without the trivia in front. -/
theorem Covers.print_eq (h : Covers (l :: ls) n) : n.print.toList = l.text.toList ++ spelling ls := by
  obtain ⟨label, text, rest, hrest⟩ := h.exists_token
  unfold Node.print
  rw [hrest]
  exact print_of_token hrest h.printAll_tokens

/-! ## Descendants -/

mutual

/-- **A node below a node** is made of some of its lexemes. -/
theorem Covers.of_mem_listing : ∀ {n : Node} {ls : List Lexeme}, Covers ls n → ∀ m ∈ n.listing,
    ∃ part, part <:+: ls ∧ Covers part m
  | .leaf _ _ _, ls, h, m, hm => by
      rw [Node.listing, List.mem_singleton] at hm
      subst hm
      exact ⟨ls, List.infix_rfl, h⟩
  | .branch _ ns, ls, h, m, hm => by
      rw [Node.listing, List.mem_cons] at hm
      rcases hm with rfl | hm
      · exact ⟨ls, List.infix_rfl, h⟩
      · cases h with
        | branch h => exact h.of_mem_listingAll m hm

theorem CoversAll.of_mem_listingAll : ∀ {ns : List Node} {ls : List Lexeme}, CoversAll ls ns →
    ∀ m ∈ Node.listingAll ns, ∃ part, part <:+: ls ∧ Covers part m
  | [], _, _, m, hm => absurd hm (by simp [Node.listingAll])
  | n :: ns, _, h, m, hm => by
      rw [Node.listingAll, List.mem_append] at hm
      cases h with
      | @cons ls ms _ _ hn hns =>
          rcases hm with hm | hm
          · obtain ⟨part, hpart, hcovers⟩ := hn.of_mem_listing m hm
            exact ⟨part, hpart.trans (List.prefix_append ls ms).isInfix, hcovers⟩
          · obtain ⟨part, hpart, hcovers⟩ := hns.of_mem_listingAll m hm
            exact ⟨part, hpart.trans (List.suffix_append ls ms).isInfix, hcovers⟩

end

end JavaRefactor.Java

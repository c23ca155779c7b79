import JavaRefactor.Proofs.Java.Parse
import JavaRefactor.Proofs.Syntax.Nested
import JavaRefactor.Proofs.Text.Edit

/-!
# `Proofs.Java.Nested` — the ranges of a Java tree are nested

A node takes the bytes of its lexemes, which stand one behind the other and have a byte each.

## Contents
- **`Covers.nested`** and **`CoversAll.nested`**, by recursion on the tree.
- **`Spelled.nested`**, for the tree of a text.
- **Trivia.** `Node.leading`; for constructs at the top of a file, `Spelled.apart` and `Spelled.exists_around`, what
  stands around one.
- **`Spelled.pairwise_blank`**: blanks behind a construct at the top of a file are no part of the next one.
-/

namespace JavaRefactor

/-- The trivia in front of a node, which is that of its first token. -/
def Syntax.Node.leading (n : Syntax.Node) : List Char :=
  match n.tokens with
  | .leaf _ trivia _ :: _ => trivia.toList
  | _ => []

namespace Java

open Lexeme (spelling Laid)
open Syntax (Node Tree)
open Text (InOrder byteLength)

/-- The first token of a node of lexemes has the trivia of the first of them. -/
theorem Covers.leading_eq {n : Node} {l : Lexeme} {ls : List Lexeme} (h : Covers (l :: ls) n) :
    n.leading = l.trivia.toList := by
  obtain ⟨label, text, rest, hrest⟩ := h.exists_token
  unfold Node.leading
  rw [hrest]

/-- Lexemes take a byte at least, up to where the next ones start. -/
theorem bounds_of_laid {place : Nat} {l : Lexeme} {ls : List Lexeme} (h : Laid place (l :: ls)) :
    place ≤ (extent (l :: ls)).start ∧ (extent (l :: ls)).start < (extent (l :: ls)).stop ∧
      (extent (l :: ls)).stop = place + byteLength (spelling (l :: ls)) := by
  have htext : l.text.toList ≠ [] := by
    simpa using Lexeme.text_ne_empty_of_laid h (List.mem_cons_self ..)
  have hbyte := Text.byteLength_pos htext
  have hlength : byteLength (spelling (l :: ls)) =
      byteLength l.trivia.toList + byteLength l.text.toList + byteLength (spelling ls) := by
    rw [Lexeme.spelling_cons, Text.byteLength_append, Text.byteLength_append]
  rw [extent_of_laid h]
  refine ⟨Nat.le_add_right _ _, ?_, rfl⟩
  show place + byteLength l.trivia.toList < place + byteLength (spelling (l :: ls))
  omega

mutual

/-- **A node of lexemes** has nested ranges. -/
theorem Covers.nested : ∀ {n : Node} {ls : List Lexeme} {place : Nat}, Covers ls n → Laid place ls →
    n.Nested
  | .leaf .., _, _, h, hlaid => by
      cases h with
      | leaf _ =>
          obtain ⟨-, hbyte, -⟩ := bounds_of_laid hlaid
          exact Nat.le_of_lt hbyte
  | .branch _ ns, _, place, h, hlaid => by
      cases h with
      | @branch l ls _ _ _ h =>
          obtain ⟨horder, hnested⟩ := h.nested hlaid
          refine ⟨?_, hnested⟩
          -- the first child starts where the first lexeme does
          obtain ⟨n, ns, rfl⟩ := List.exists_cons_of_ne_nil (h.ne_nil (by simp))
          have hstart : n.span.start = l.start := Option.some.inj h.ends_eq.1
          obtain ⟨-, -, hstop⟩ := bounds_of_laid hlaid
          obtain ⟨-, hbyte, hrest⟩ := horder
          have hfirst : (extent (l :: ls)).start = n.span.start := by
            rw [extent_of_laid hlaid, hstart]
            exact hlaid.1.symm
          show InOrder (extent (l :: ls)).start _ (extent (l :: ls)).stop
          rw [hstop, hfirst]
          exact ⟨Nat.le_refl _, hbyte, hrest⟩

/-- **Neighbouring nodes of lexemes** stand in order. -/
theorem CoversAll.nested : ∀ {ns : List Node} {ls : List Lexeme} {place : Nat}, CoversAll ls ns →
    Laid place ls →
    InOrder place (ns.map Node.span) (place + byteLength (spelling ls)) ∧ Node.NestedAll ns
  | [], _, place, h, _ => by
      cases h with
      | nil => exact ⟨Nat.le_refl _, trivial⟩
  | n :: ns, _, place, h, hlaid => by
      cases h with
      | @cons ls ms _ _ hn hns =>
          obtain ⟨hls, hms⟩ := Lexeme.laid_append.mp hlaid
          obtain ⟨horder, hnested⟩ := hns.nested hms
          obtain ⟨l, ls, rfl⟩ := hn.exists_cons
          obtain ⟨hplace, hbyte, hstop⟩ := bounds_of_laid hls
          have hspan := hn.span_eq
          refine ⟨⟨by rw [hspan]; exact hplace, by rw [hspan]; exact hbyte, ?_⟩, hn.nested hls, hnested⟩
          rw [hspan, hstop, Lexeme.spelling_append, Text.byteLength_append, ← Nat.add_assoc]
          exact horder

end

/-- Each of neighbouring nodes is made of some of their lexemes. -/
theorem CoversAll.exists_part_of_mem {ns : List Node} {ls : List Lexeme} {n : Node} (h : CoversAll ls ns)
    (hn : n ∈ ns) : ∃ l part, (l :: part) <:+: ls ∧ Covers (l :: part) n := by
  obtain ⟨front, rest, rfl⟩ := List.append_of_mem hn
  obtain ⟨part, hpart, hcovers⟩ := h.of_infix (⟨front, rest, by simp⟩ : [n] <:+: front ++ n :: rest)
  have hcovers := hcovers.of_single
  obtain ⟨l, part, rfl⟩ := hcovers.exists_cons
  exact ⟨l, part, hpart, hcovers⟩

/-- Neighbouring nodes of lexemes start behind the trivia in front of them. -/
theorem CoversAll.le_start_of_mem {ns : List Node} {ls : List Lexeme} {place : Nat} {n : Node} (h : CoversAll ls ns)
    (hlaid : Laid place ls) (hn : n ∈ ns) : place + byteLength n.leading ≤ n.span.start := by
  obtain ⟨l, part, ⟨before, behind, rfl⟩, hcovers⟩ := h.exists_part_of_mem hn
  rw [Lexeme.laid_append, Lexeme.laid_append] at hlaid
  obtain ⟨⟨-, hlaid⟩, -⟩ := hlaid
  rw [hcovers.span_eq, extent_of_laid hlaid, hcovers.leading_eq]
  show _ ≤ place + byteLength (spelling before) + byteLength l.trivia.toList
  omega

/-- A lexeme stands among lexemes, with the trivia in front of it. -/
theorem bounds_of_mem {place : Nat} {ls : List Lexeme} {k : Lexeme} (h : Laid place ls) (hk : k ∈ ls) :
    place + byteLength k.trivia.toList ≤ k.start ∧ k.stop ≤ place + byteLength (spelling ls) := by
  obtain ⟨before, behind, rfl⟩ := List.append_of_mem hk
  obtain ⟨-, hstart, -, -⟩ := Lexeme.laid_append.mp h
  have hstop := k.stop_eq
  rw [Lexeme.spelling_append, Lexeme.spelling_cons, Text.byteLength_append, Text.byteLength_append,
    Text.byteLength_append]
  omega

/-- **A lexeme of neighbouring nodes** is the first one of a node, or it stands in a node with the trivia in front of
    it. -/
theorem CoversAll.exists_of_mem {ns : List Node} {ls : List Lexeme} {place : Nat} {k : Lexeme} (h : CoversAll ls ns)
    (hlaid : Laid place ls) (hk : k ∈ ls) : ∃ n ∈ ns, k.stop ≤ n.span.stop ∧
      (n.span.start = k.start ∧ n.leading = k.trivia.toList ∨
        n.span.start + byteLength k.trivia.toList < k.start) := by
  induction ns generalizing ls place with
  | nil =>
      cases h
      exact absurd hk (by simp)
  | cons n ns ih =>
      cases h with
      | @cons ls ms _ _ hn hns =>
          obtain ⟨hls, hms⟩ := Lexeme.laid_append.mp hlaid
          rcases List.mem_append.mp hk with hk | hk
          · obtain ⟨l, rest, rfl⟩ := hn.exists_cons
            have hspan := hn.span_eq
            have hbounds := (bounds_of_mem hls hk).2
            have hextent := bounds_of_laid hls
            rw [← hspan] at hextent
            refine ⟨n, List.mem_cons_self .., by omega, ?_⟩
            have hfirst : n.span.start = l.start := by
              rw [hspan]
              rfl
            rcases List.mem_cons.mp hk with rfl | hk
            · exact Or.inl ⟨hfirst, hn.leading_eq⟩
            · obtain ⟨-, htext, hrest⟩ := hls
              have hbehind := (bounds_of_mem hrest hk).1
              have hbyte : 0 < byteLength l.text.toList := Text.byteLength_pos (by simpa using htext)
              have hstop := l.stop_eq
              exact Or.inr (by omega)
          · obtain ⟨m, hm, hrest⟩ := ih hns hms hk
            exact ⟨m, List.mem_cons_of_mem n hm, hrest⟩

/-- **Neighbouring nodes of lexemes** are apart by the trivia in front of the second one. -/
theorem CoversAll.pairwise_leading : ∀ {ns : List Node} {ls : List Lexeme} {place : Nat}, CoversAll ls ns →
    Laid place ls → ns.Pairwise fun c d => c.span.stop + byteLength d.leading ≤ d.span.start
  | [], _, _, _, _ => .nil
  | n :: ns, _, place, h, hlaid => by
      cases h with
      | @cons ls ms _ _ hn hns =>
          obtain ⟨hls, hms⟩ := Lexeme.laid_append.mp hlaid
          have hstop : n.span.stop = place + byteLength (spelling ls) := by
            obtain ⟨l, ls, rfl⟩ := hn.exists_cons
            rw [hn.span_eq, (bounds_of_laid hls).2.2]
          refine .cons ?_ (hns.pairwise_leading hms)
          intro d hd
          rw [hstop]
          exact hns.le_start_of_mem hms hd

/-- **The tree of a text** has nested ranges. -/
theorem Spelled.nested {t : Tree} {ls : List Lexeme} {nodes : List Node} (h : Spelled t ls nodes) :
    t.root.Nested := by
  obtain ⟨horder, hnested⟩ := h.covers.nested h.laid
  rw [h.root]
  refine ⟨horder.mono (Nat.le_refl _) ?_, hnested⟩
  have hlength : byteLength t.source.toList =
      byteLength (spelling ls) + byteLength t.trailing.toList := by
    rw [← h.text, Text.byteLength_append]
  show 0 + byteLength (spelling ls) ≤ t.source.utf8ByteSize
  rw [Text.utf8ByteSize_eq, hlength]
  omega

section Constructs

variable {t : Tree} {ls : List Lexeme} {nodes : List Node} {n : Node} (h : Spelled t ls nodes)

include h

theorem Spelled.pairwise_leading : t.root.children.Pairwise fun c d =>
    c.span.stop + byteLength d.leading ≤ d.span.start := by
  rw [h.root]
  exact h.covers.pairwise_leading h.laid

/-- **Constructs at the top of a file** are apart from each other. -/
theorem Spelled.apart {m : Node} (hm : m ∈ t.root.children) (hn : n ∈ t.root.children) (hne : m ≠ n) :
    m.span.stop + byteLength n.leading ≤ n.span.start ∨ n.span.stop + byteLength m.leading ≤ m.span.start :=
  Text.either_of_pairwise h.pairwise_leading hm hn hne

/-- **A construct at the top of a file** in its text, with its trivia in front; it does not start with a blank. -/
theorem Spelled.exists_around (hn : n ∈ t.root.children) :
    ∃ front c cs rest, t.source.toList = front ++ n.leading ++ n.print.toList ++ rest ∧
      n.span = ⟨byteLength (front ++ n.leading), byteLength (front ++ n.leading ++ n.print.toList)⟩ ∧
      n.print.toList = c :: cs ∧ Text.isBlank c = false := by
  have hchildren : t.root.children = nodes := by
    rw [h.root]
    rfl
  rw [hchildren] at hn
  obtain ⟨l, part, hpart, hcovers⟩ := h.covers.exists_part_of_mem hn
  have hl : l ∈ ls := hpart.subset (List.mem_cons_self ..)
  obtain ⟨before, behind, rfl⟩ := hpart
  have hlaid := h.laid
  rw [Lexeme.laid_append, Lexeme.laid_append] at hlaid
  obtain ⟨⟨-, hlaid⟩, -⟩ := hlaid
  obtain ⟨c, cs, hcs⟩ := List.exists_cons_of_ne_nil (l := l.text.toList) (by simpa using hlaid.2.1)
  refine ⟨spelling before, c, cs ++ spelling part, spelling behind ++ t.trailing.toList, ?_, ?_, ?_,
    h.solid l hl c (by rw [hcs]; rfl)⟩
  · rw [← h.text, hcovers.leading_eq, hcovers.print_eq]
    simp
  · rw [hcovers.span_eq, extent_of_laid hlaid, hcovers.leading_eq, hcovers.print_eq]
    simp [Text.byteLength_append]
  · rw [hcovers.print_eq, hcs]
    rfl

/-- **Blanks behind a construct at the top of a file** stand in front of the next one. -/
theorem Spelled.pairwise_blank :
    t.root.children.Pairwise fun c d => ∀ before blank rest, t.source.toList = before ++ blank ++ rest →
      byteLength before = c.span.stop → (∀ x ∈ blank, Text.isBlank x = true) →
      c.span.stop + byteLength blank ≤ d.span.start := by
  refine h.pairwise_leading.imp_of_mem ?_
  intro c d _ hd hle before blank rest htext hbefore hblank
  obtain ⟨front, x, cs, rest', hsource, hspan, hprint, hx⟩ := h.exists_around hd
  rw [hsource, hprint] at htext
  have hstart : d.span.start = byteLength (front ++ d.leading) := by rw [hspan]
  have hsame : before ++ blank ++ rest = (front ++ d.leading) ++ x :: (cs ++ rest') := by
    rw [← htext, List.append_assoc _ (x :: cs)]
    rfl
  have hbehind : byteLength (before ++ blank) ≤ byteLength (front ++ d.leading) :=
    Text.byteLength_le_of_class hsame (by omega) hblank hx
  rw [Text.byteLength_append] at hbehind
  omega

end Constructs

end Java

end JavaRefactor

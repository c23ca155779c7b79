import JavaRefactor.Java.Parse
import JavaRefactor.Proofs.Java.Grammar

/-!
# `Proofs.Java.Parse` — a tree spells the text it was read from

## Contents
- **`Spelled`**, what a tree has of the lexemes of its text, with **`lexemes_of_parse?`** and `spelled_of_parse?`.
- **`Spelled.cuts_span`**: a node takes what is printed of it out of the text.
- **`print_of_parse?`**: nothing of a text is lost in its tree, and nothing of a piece in its node.
-/

namespace JavaRefactor.Java

open Lexeme (spelling Laid)
open Syntax (Node Tree)
open Text (byteLength)

/-- Below the root, a tree is made of the lexemes of its text. -/
structure Spelled (t : Tree) (ls : List Lexeme) (nodes : List Node) : Prop where
  root : t.root = rootOf t.source nodes
  covers : CoversAll ls nodes
  text : spelling ls ++ t.trailing.toList = t.source.toList
  laid : Laid 0 ls
  clear : ∀ l ∈ ls, Lexeme.Clear l
  solid : ∀ l ∈ ls, Lexeme.Solid l

/-- **The tree of a text** is made of the lexemes of the text. -/
theorem lexemes_of_parse? {source : String} {t : Tree} (h : parse? source = some t) :
    t.source = source ∧ ∃ ls nodes, Lexeme.ofText? source = some (ls, t.trailing) ∧ Spelled t ls nodes := by
  obtain ⟨ls, trailing, nodes, hls, rfl, hd⟩ := derives_of_parse? h
  have hstart : Holding.nothing.Starts [] [] := ⟨rfl, rfl⟩
  obtain ⟨used, rfl, hcovers, -⟩ :=
    Production.reads_of_derives Grammar.lossless_table Grammar.yields_table hd rfl hstart
  rw [List.append_nil] at hls
  obtain ⟨htext, hlaid⟩ := Lexeme.ofText?_spec hls
  exact ⟨rfl, used, nodes, hls, rfl, hcovers, htext, hlaid, Lexeme.clear_of_ofText? hls, Lexeme.solid_of_ofText? hls⟩

theorem spelled_of_parse? {source : String} {t : Tree} (h : parse? source = some t) :
    t.source = source ∧ ∃ ls nodes, Spelled t ls nodes := by
  obtain ⟨hsource, ls, nodes, -, hspelled⟩ := lexemes_of_parse? h
  exact ⟨hsource, ls, nodes, hspelled⟩

namespace Spelled

variable {t : Tree} {ls : List Lexeme} {nodes : List Node}

/-- The tokens and the trivia at the end are the text. -/
theorem print_eq (h : Spelled t ls nodes) : t.print = t.source := by
  apply String.toList_injective
  unfold Tree.print
  rw [h.root, String.toList_append, ← h.text]
  unfold rootOf
  rw [Node.tokens, h.covers.printAll_tokens]

/-- **Some lexemes of a tree** take a piece out of the text, which is what they spell without the trivia
    in front. -/
theorem cuts_extent (h : Spelled t ls nodes) {l : Lexeme} {part : List Lexeme}
    (hpart : (l :: part) <:+: ls) :
    (extent (l :: part)).Cuts t.source.toList (l.text.toList ++ spelling part) := by
  obtain ⟨before, behind, rfl⟩ := hpart
  have hlaid := h.laid
  rw [Lexeme.laid_append, Lexeme.laid_append] at hlaid
  obtain ⟨⟨-, hlaid⟩, -⟩ := hlaid
  refine ⟨spelling before ++ l.trivia.toList, spelling behind ++ t.trailing.toList, ?_, ?_⟩
  · rw [← h.text]
    simp
  · rw [extent_of_laid hlaid]
    simp [Text.byteLength_append]

end Spelled

end JavaRefactor.Java

import JavaRefactor.Proofs.Java.Cover
import JavaRefactor.Proofs.Java.Derives

/-!
# `Proofs.Java.Production` — productions lose no lexeme

What a production reads is made of the lexemes that it takes. Where nodes are held this is so only if the
production puts them in front of what it reads, once; that it does can be seen from its form.

## Contents
- **`Holding`**, what a production finds held, with `Holding.Starts`, the lexemes that this stands for.
- **`Production.yields`** and **`Production.lossless`**, read off a production: that it reads a lexeme at
  least, and that it uses what is held where and as often as it must.
- **`Reads`**, and **`reads_of_derives`**: a lossless production reads nodes that are made of the lexemes it
  takes.
-/

namespace JavaRefactor.Java

open Lexeme (spelling)
open Syntax (Node Kind)

/-- What a production finds held. -/
inductive Holding where
  /-- Nothing is held. -/
  | nothing
  /-- What is held stands elsewhere and must not be read again. -/
  | aside
  /-- What is held stands in front of what is read and belongs to it; if `filled`, it has a lexeme. -/
  | front (filled : Bool)
  deriving DecidableEq, Repr

namespace Holding

/-- What is found held behind a part of what is read. -/
def behind : Holding → Holding
  | front _ => aside
  | w => w

/-- Whether what is held belongs to what is read. -/
def isFront : Holding → Bool
  | front _ => true
  | _ => false

/-- Whether what is held has a lexeme. -/
def isFilled : Holding → Bool
  | front filled => filled
  | _ => false

/-- The held nodes, with the lexemes among them that belong to what is read. -/
def Starts : Holding → List Node → List Lexeme → Prop
  | nothing, h, prior => h = [] ∧ prior = []
  | aside, _, prior => prior = []
  | front filled, h, prior => CoversAll prior h ∧ (filled = true → prior ≠ [])

variable {w : Holding} {h : List Node} {prior : List Lexeme}

theorem Starts.prior_eq_nil (hs : w.Starts h prior) (hw : w.isFront = false) : prior = [] := by
  cases w with
  | nothing => exact hs.2
  | aside => exact hs
  | front filled => exact absurd hw (by simp [isFront])

theorem Starts.behind (hs : w.Starts h prior) : w.behind.Starts h [] := by
  cases w with
  | nothing => exact ⟨hs.1, rfl⟩
  | aside => rfl
  | front filled => rfl

/-- Unless it stands elsewhere, what is held can be put in front of what is read. -/
theorem Starts.front (hs : w.Starts h prior) (hw : w ≠ aside) :
    (Holding.front w.isFilled).Starts h prior := by
  cases w with
  | nothing =>
      obtain ⟨rfl, rfl⟩ := hs
      exact ⟨.nil, fun hf => absurd hf (by simp [isFilled])⟩
  | aside => exact absurd rfl hw
  | front filled => exact hs

end Holding

namespace Production

variable {σ : Type}

/-! ## What can be seen from a production -/

/-- Whether a production reads a lexeme at least, or is given one, where `full` tells the symbols that
    do. -/
def yields (full : σ → Bool) : Holding → Production σ → Bool
  | _, .nothing | _, .tight | _, .finish | _, .many _ | _, .ahead _ | _, .absent _ => false
  | _, .text .. | _, .name .. | _, .number | _, .formed .. | _, .node .. | _, .fuse .. => true
  | w, .seq a b => yields full w a || yields full w.behind b
  | w, .either a b => yields full w a && yields full w b
  | w, .field _ a | w, .only _ a | w, .starting _ _ a => yields full w a
  | _, .ref s => full s
  | w, .held | w, .regrow _ => w.isFilled
  | w, .hold a b => yields full (.front (yields full w a)) b

/-- Whether a production uses held nodes only in front of what it reads, and there exactly once, and makes
    no node of nothing. -/
def lossless (full : σ → Bool) : Holding → Production σ → Bool
  | w, .nothing | w, .text .. | w, .name .. | w, .number | w, .formed .. | w, .tight | w, .finish
  | w, .ref _ | w, .ahead _ | w, .absent _ => !w.isFront
  | w, .seq a b => lossless full w a && lossless full w.behind b
  | w, .either a b => lossless full w a && lossless full w b
  | w, .many a => !w.isFront && lossless full w a
  | w, .field _ a | w, .only _ a | w, .starting _ _ a => lossless full w a
  | w, .node _ a | w, .fuse _ a => lossless full w a && yields full w a
  | w, .held => w != .aside
  | w, .hold a b => lossless full w a && lossless full (.front (yields full w a)) b
  | w, .regrow a => w != .aside && lossless full (.front w.isFilled) a &&
      (!w.isFilled || yields full (.front w.isFilled) a)

/-! ## Nodes of lexemes -/

variable {l : Lexeme} {ls : List Lexeme} {ns : List Node}

theorem covers_leafOf (kind : Kind) (l : Lexeme) : Covers [l] (leafOf kind l) :=
  .leaf (by simp)

theorem covers_branchOf (kind : String) (h : CoversAll ls ns) (hl : ls ≠ []) :
    Covers ls (branchOf kind ns) := by
  obtain ⟨l, ls, rfl⟩ := List.exists_cons_of_ne_nil hl
  unfold branchOf
  rw [h.spanOf_eq]
  exact .branch h

theorem covers_fused {kind : Kind} (h : CoversAll ls ns) (hl : ls ≠ []) {n : Node}
    (hf : fused kind ns = some n) : Covers ls n := by
  obtain ⟨l, ls, rfl⟩ := List.exists_cons_of_ne_nil hl
  obtain ⟨label, text, rest, hrest⟩ := h.exists_token
  unfold fused at hf
  rw [hrest, h.spanOf_eq] at hf
  obtain rfl := Option.some.inj hf
  exact .leaf (print_of_token hrest h.printAll_tokens)

/-! ## Reading -/

/-- What is read of `ls`, up to `rest`, are nodes made of the lexemes `prior` and of those that are
    taken. -/
def Reads (full : Bool) (prior ls : List Lexeme) (ns : List Node) (rest : List Lexeme) : Prop :=
  ∃ used, ls = used ++ rest ∧ CoversAll (prior ++ used) ns ∧ (full = true → prior ++ used ≠ [])

theorem reads_nothing (ls : List Lexeme) : Reads false [] ls [] ls :=
  ⟨[], rfl, .nil, fun h => absurd h (by simp)⟩

theorem reads_leaf (full : Bool) (kind : Kind) (l : Lexeme) (rest : List Lexeme) :
    Reads full [] (l :: rest) [leafOf kind l] rest :=
  ⟨[l], rfl, .single (covers_leafOf kind l), fun _ => by simp⟩

namespace Reads

variable {full full' : Bool} {prior mid rest : List Lexeme} {ns' : List Node}

/-- Other nodes of the same lexemes. -/
theorem of_covers (hr : Reads full prior ls ns rest)
    (hc : ∀ ls, (full = true → ls ≠ []) → CoversAll ls ns → CoversAll ls ns') :
    Reads full prior ls ns' rest := by
  obtain ⟨used, hused, hcovers, hfull⟩ := hr
  exact ⟨used, hused, hc _ hfull hcovers, hfull⟩

/-- One node of all that is read. -/
theorem of_single {n : Node} (hr : Reads true prior ls ns rest)
    (hn : ∀ ls, CoversAll ls ns → ls ≠ [] → Covers ls n) : Reads true prior ls [n] rest :=
  hr.of_covers fun ls hls hcovers => .single (hn ls hcovers (hls rfl))

/-- One reading after the other. -/
theorem append (hr : Reads full prior ls ns mid) (hr' : Reads full' [] mid ns' rest) :
    Reads (full || full') prior ls (ns ++ ns') rest := by
  obtain ⟨used, rfl, hcovers, hfull⟩ := hr
  obtain ⟨used', rfl, hcovers', hfull'⟩ := hr'
  refine ⟨used ++ used', by simp, by simpa using hcovers.append hcovers', ?_⟩
  intro h he
  obtain ⟨rfl, rfl, rfl⟩ : prior = [] ∧ used = [] ∧ used' = [] := by simpa using he
  rcases (Bool.or_eq_true _ _).mp h with h | h
  · exact hfull h rfl
  · exact hfull' h rfl

/-- A reading in front of which stands what another one has read. -/
theorem trans (hr : Reads full prior ls ns mid)
    (h : ∀ prior', CoversAll prior' ns → (full = true → prior' ≠ []) →
      Reads full' prior' mid ns' rest) : Reads full' prior ls ns' rest := by
  obtain ⟨used, rfl, hcovers, hfull⟩ := hr
  obtain ⟨used', rfl, hcovers', hfull'⟩ := h _ hcovers hfull
  rw [List.append_assoc] at hcovers' hfull'
  exact ⟨used ++ used', by simp, hcovers', hfull'⟩

theorem weaken (hr : Reads full prior ls ns rest) (h : full' = true → full = true) :
    Reads full' prior ls ns rest := by
  obtain ⟨used, hused, hcovers, hfull⟩ := hr
  exact ⟨used, hused, hcovers, fun h' => hfull (h h')⟩

end Reads

/-- **Productions lose no lexeme.** -/
theorem reads_of_derives {g : σ → Production σ} {full : σ → Bool}
    (hg : ∀ s, lossless full .nothing (g s) = true)
    (hfull : ∀ s, full s = true → yields full .nothing (g s) = true) {p : Production σ}
    {w : Holding} {h xs : List Node} {prior ls rest : List Lexeme} (hd : Derives g p h ls xs rest)
    (hp : lossless full w p = true) (hw : w.Starts h prior) : Reads (yields full w p) prior ls xs rest := by
  -- by the ways to read, whatever is held
  induction hd generalizing w prior with
  | nothing | tight | finish | ahead | absent =>
      obtain rfl := hw.prior_eq_nil (by simpa [lossless] using hp)
      exact reads_nothing _
  | text _ | name | number | formed =>
      obtain rfl := hw.prior_eq_nil (by simpa [lossless] using hp)
      exact reads_leaf _ _ _ _
  | seq _ _ iha ihb =>
      obtain ⟨ha, hb⟩ := (Bool.and_eq_true _ _).mp hp
      exact (iha ha hw).append (ihb hb hw.behind)
  | left _ iha =>
      obtain ⟨ha, -⟩ := (Bool.and_eq_true _ _).mp hp
      exact (iha ha hw).weaken fun h => ((Bool.and_eq_true _ _).mp h).1
  | right _ ihb =>
      obtain ⟨-, hb⟩ := (Bool.and_eq_true _ _).mp hp
      exact (ihb hb hw).weaken fun h => ((Bool.and_eq_true _ _).mp h).2
  | done =>
      obtain ⟨hfront, -⟩ := (Bool.and_eq_true _ _).mp hp
      obtain rfl := hw.prior_eq_nil (by simpa using hfront)
      exact reads_nothing _
  | more _ _ iha ihm =>
      obtain ⟨hfront, ha⟩ := (Bool.and_eq_true _ _).mp hp
      obtain rfl := hw.prior_eq_nil (by simpa using hfront)
      exact ((iha ha hw).append (ihm hp hw)).weaken fun h => absurd h (by simp [yields])
  | @field role a _ _ _ _ _ iha =>
      have ha : lossless full w a = true := hp
      exact (iha ha hw).of_covers fun _ _ hcovers => hcovers.withField role
  | node _ iha =>
      obtain ⟨ha, hfilled⟩ := (Bool.and_eq_true _ _).mp hp
      have hread := iha ha hw
      rw [hfilled] at hread
      exact hread.of_single fun _ => covers_branchOf _
  | fuse _ hl iha =>
      obtain ⟨ha, hfilled⟩ := (Bool.and_eq_true _ _).mp hp
      have hread := iha ha hw
      rw [hfilled] at hread
      exact hread.of_single fun _ hcovers hls => covers_fused hcovers hls hl
  | @ref s _ _ _ _ _ ihs =>
      obtain rfl := hw.prior_eq_nil (by simpa [lossless] using hp)
      have hstart : Holding.nothing.Starts [] [] := ⟨rfl, rfl⟩
      exact (ihs (hg s) hstart).weaken fun h => hfull s h
  | held =>
      have hne : w ≠ .aside := by simpa [lossless] using hp
      obtain ⟨hcovers, hfilled⟩ := hw.front hne
      exact ⟨[], rfl, by simpa using hcovers, fun h => by simpa using hfilled h⟩
  | @hold a _ _ _ _ _ _ _ _ _ iha ihb =>
      obtain ⟨ha, hb⟩ := (Bool.and_eq_true _ _).mp hp
      exact (iha ha hw).trans fun prior' hcovers hfilled =>
        ihb (w := .front (yields full w a)) hb ⟨hcovers, hfilled⟩
  | kept =>
      simp only [lossless, Bool.and_eq_true] at hp
      obtain ⟨⟨hne, -⟩, -⟩ := hp
      have hstart := hw.front (by simpa using hne)
      exact ⟨[], rfl, by simpa using hstart.1, fun h => by simpa using hstart.2 h⟩
  | @grown a _ _ _ _ _ _ _ _ iha ihr =>
      simp only [lossless, Bool.and_eq_true] at hp
      obtain ⟨⟨hne, ha⟩, hfilled⟩ := hp
      have hstart := hw.front (by simpa using hne)
      -- what has grown is held in its turn
      have hagain : lossless full (.front w.isFilled) (.regrow a) = true := by
        simp only [lossless, Bool.and_eq_true]
        exact ⟨⟨rfl, ha⟩, hfilled⟩
      refine (iha ha hstart).trans fun prior' hcovers hgrown => ?_
      refine ihr (w := .front w.isFilled) hagain ⟨hcovers, fun h => hgrown ?_⟩
      simpa [h] using hfilled
  | @only _ a _ _ _ _ _ iha | @starting _ _ a _ _ _ _ _ iha =>
      have ha : lossless full w a = true := hp
      exact iha ha hw

end Production

end JavaRefactor.Java

import JavaRefactor.Java.Lexeme
import JavaRefactor.Proofs.Java.Scan
import JavaRefactor.Proofs.Text.Pieces
import Mathlib.Data.List.TakeDrop

/-!
# `Proofs.Java.Lexeme` — the lexemes of a text spell it

## Contents
- **`Lexeme.spelling`**, the characters of lexemes with their trivia, and **`Lexeme.Laid`**: lexemes that
  stand one behind the other, each with a character at least.
- **`step_spec`**, **`scan_spec`**: one lexeme, and all of them.
- **`IsRead`**, how a lexeme comes from a text. **`Clear`**: without a slash in front of a lexeme there is no
  comment there; **`Solid`**: a lexeme does not start with a blank; **`Spells`**, what its form says of it.
  `clear_of_ofText?`, `solid_of_ofText?` and `spells_of_ofText?`.
- **`ofText?_spec`**: the lexemes of a text and the trivia at its end are the text, and they stand where
  they say.
-/

namespace JavaRefactor.Java.Lexeme

open Text (byteLength)

/-! ## Lists of lexemes -/

/-- The characters of lexemes with the trivia in front of each. -/
def spelling (ls : List Lexeme) : List Char := ls.flatMap fun l => l.trivia.toList ++ l.text.toList

@[simp] theorem spelling_nil : spelling [] = [] := rfl

@[simp] theorem spelling_cons (l : Lexeme) (ls : List Lexeme) :
    spelling (l :: ls) = l.trivia.toList ++ l.text.toList ++ spelling ls := rfl

@[simp] theorem spelling_append (ls ms : List Lexeme) :
    spelling (ls ++ ms) = spelling ls ++ spelling ms :=
  List.flatMap_append

/-- From byte `place` on, lexemes with their trivia stand one behind the other, and none of them is
    empty. -/
def Laid : Nat → List Lexeme → Prop
  | _, [] => True
  | place, l :: ls => l.start = place + byteLength l.trivia.toList ∧ l.text ≠ "" ∧ Laid l.stop ls

theorem stop_eq (l : Lexeme) : l.stop = l.start + byteLength l.text.toList := by
  rw [stop, Text.utf8ByteSize_eq]

/-- Lexemes stand where those in front of them end. -/
theorem laid_append {place : Nat} {ls ms : List Lexeme} :
    Laid place (ls ++ ms) ↔ Laid place ls ∧ Laid (place + byteLength (spelling ls)) ms := by
  induction ls generalizing place with
  | nil => exact ⟨fun h => ⟨trivial, h⟩, fun h => h.2⟩
  | cons l ls ih =>
      have hplace : l.start = place + byteLength l.trivia.toList →
          place + byteLength (spelling (l :: ls)) = l.stop + byteLength (spelling ls) := by
        intro hstart
        rw [spelling_cons, Text.byteLength_append, Text.byteLength_append, stop_eq, hstart]
        omega
      constructor
      · rintro ⟨hstart, htext, hrest⟩
        obtain ⟨hls, hms⟩ := ih.mp hrest
        rw [hplace hstart]
        exact ⟨⟨hstart, htext, hls⟩, hms⟩
      · rintro ⟨⟨hstart, htext, hls⟩, hms⟩
        rw [hplace hstart] at hms
        exact ⟨hstart, htext, ih.mpr ⟨hls, hms⟩⟩

/-- No lexeme is empty. -/
theorem text_ne_empty_of_laid {place : Nat} {ls : List Lexeme} (h : Laid place ls) {l : Lexeme}
    (hl : l ∈ ls) : l.text ≠ "" := by
  induction ls generalizing place with
  | nil => exact absurd hl (by simp)
  | cons m ls ih =>
      obtain ⟨-, htext, hrest⟩ := h
      rcases List.mem_cons.mp hl with rfl | hl
      · exact htext
      · exact ih hrest hl

/-! ## Single lexemes -/

/-- A symbol is a beginning of the text. -/
theorem symbol?_spec {cs x rest : List Char} (h : symbol? cs = some (x, rest)) :
    x ++ rest = cs ∧ x ≠ [] := by
  unfold symbol? at h
  split at h
  · rename_i s hs
    obtain ⟨rfl, rfl⟩ := by simpa using h
    have hfront : s.toList <+: cs := by
      have := List.find?_some hs
      exact List.isPrefixOf_iff_prefix.mp this
    obtain ⟨behind, rfl⟩ := hfront
    have hlong : ∀ s ∈ longSymbols, s.toList ≠ [] := by decide
    exact ⟨by rw [List.drop_left], hlong s (List.mem_of_find?_eq_some hs)⟩
  · exact ⟨Scan.splits_one h, Scan.takes_one h⟩

/-- A string literal is a beginning of the text. -/
theorem stringStep_spec {opening cs : List Char} {block : Bool} {whole cut : Form} {nesting : Nesting}
    {s : Step} (ho : opening ≠ []) (h : stringStep opening block whole cut nesting cs = some s) :
    s.text ++ s.rest = opening ++ cs ∧ s.text ≠ [] := by
  have hbody : ∀ x rest e, (if block then Scan.blockBody cs else Scan.stringBody cs) =
      some (x, rest, e) → x ++ rest = cs := by
    intro x rest e hx
    split at hx
    · exact Scan.append_of_blockBody hx
    · exact Scan.append_of_stringBody hx
  unfold stringStep at h
  split at h
  · exact absurd h (by simp)
  · rename_i x rest hx
    obtain rfl := Option.some.inj h
    exact ⟨by rw [List.append_assoc, hbody _ _ _ hx], List.append_ne_nil_of_left_ne_nil ho x⟩
  · rename_i x rest hx
    obtain rfl := Option.some.inj h
    exact ⟨by rw [List.append_assoc, hbody _ _ _ hx], List.append_ne_nil_of_left_ne_nil ho x⟩

/-- **A lexeme** is a beginning of the text. -/
theorem step_spec {nesting : Nesting} {cs : List Char} {s : Step} (h : step nesting cs = some s) :
    s.text ++ s.rest = cs ∧ s.text ≠ [] := by
  unfold step at h
  split at h
  · exact absurd h (by simp)
  · exact stringStep_spec (by simp) h
  · exact stringStep_spec (by simp) h
  · exact absurd h (by simp)
  · rename_i cs _
    obtain ⟨⟨x, rest⟩, hx, rfl⟩ := Option.map_eq_some_iff.mp h
    exact ⟨by rw [List.cons_append, Scan.append_of_charBody hx], by simp⟩
  · rename_i c cs _ _ _ _
    split at h
    · rw [List.span_eq_takeWhile_dropWhile] at h
      obtain rfl := Option.some.inj h
      exact ⟨by rw [List.cons_append, List.takeWhile_append_dropWhile], by simp⟩
    · split at h
      · rename_i kind x rest hx
        obtain rfl := Option.some.inj h
        exact Scan.number_spec hx
      · split at h
        · exact stringStep_spec (by simp) h
        · obtain ⟨⟨x, rest⟩, hx, rfl⟩ := Option.map_eq_some_iff.mp h
          exact symbol?_spec hx

/-! ## Whole texts -/

/-- **The lexemes of a text** that starts at byte `place`. -/
theorem scan_spec {fuel place : Nat} {nesting : Nesting} {cs : List Char} {ls : List Lexeme}
    {trailing : String} (h : scan fuel place nesting cs = some (ls, trailing)) :
    spelling ls ++ trailing.toList = cs ∧ Laid place ls := by
  induction fuel generalizing place nesting cs ls with
  | zero => exact absurd h (by simp [scan])
  | succ fuel ih =>
      unfold scan at h
      split at h
      · exact absurd h (by simp)
      · rename_i tr htr
        obtain ⟨rfl, rfl⟩ : [] = ls ∧ String.ofList tr = trailing := by simpa using h
        refine ⟨?_, trivial⟩
        rw [spelling_nil, List.nil_append, String.toList_ofList, ← Scan.append_of_trivia htr,
          List.append_nil]
      · rename_i tr c rest htr
        split at h
        · exact absurd h (by simp)
        · rename_i s hs
          simp only at h
          split at h
          · exact absurd h (by simp)
          · rename_i ls' trailing' hrest
            obtain ⟨rfl, rfl⟩ : _ = ls ∧ trailing' = trailing := by simpa using h
            obtain ⟨htext, hne⟩ := step_spec hs
            obtain ⟨hspell, hlaid⟩ := ih hrest
            refine ⟨?_, ?_, ?_, ?_⟩
            · rw [spelling_cons, List.append_assoc, hspell]
              simp only [String.toList_ofList]
              rw [List.append_assoc, htext, Scan.append_of_trivia htr]
            · rw [String.toList_ofList]
            · intro he
              exact hne (by simpa using congrArg String.toList he)
            · rw [stop_eq, String.toList_ofList]
              exact hlaid

/-- A text in front of the first trivia moves no lexeme that already stands behind it. -/
theorem prependTrivia_spec {front : String} {ls ls' : List Lexeme} {trailing trailing' : String}
    (hl : Laid (byteLength front.toList) ls)
    (h : prependTrivia front (ls, trailing) = (ls', trailing')) :
    spelling ls' ++ trailing'.toList = front.toList ++ (spelling ls ++ trailing.toList) ∧
      Laid 0 ls' := by
  cases ls with
  | nil =>
      obtain ⟨rfl, rfl⟩ : [] = ls' ∧ front ++ trailing = trailing' := by simpa [prependTrivia] using h
      exact ⟨by simp, trivial⟩
  | cons l ls =>
      obtain ⟨rfl, rfl⟩ : { l with trivia := front ++ l.trivia } :: ls = ls' ∧ trailing = trailing' := by
        simpa [prependTrivia] using h
      obtain ⟨hstart, htext, hrest⟩ := hl
      refine ⟨by simp, ?_, htext, hrest⟩
      rw [hstart, String.toList_append, Text.byteLength_append]
      omega

/-- **The lexemes of a text** and the trivia at its end are the text, and they stand where they say. -/
theorem ofText?_spec {s : String} {ls : List Lexeme} {trailing : String}
    (h : ofText? s = some (ls, trailing)) :
    spelling ls ++ trailing.toList = s.toList ∧ Laid 0 ls := by
  unfold ofText? at h
  split at h
  · rename_i hs
    obtain ⟨rfl, rfl⟩ : [] = ls ∧ "" = trailing := by simpa using h
    exact ⟨by rw [hs]; rfl, trivial⟩
  · rename_i c cs hs
    rw [hs]
    split at h
    · obtain ⟨⟨ls', trailing'⟩, hscan, hfront⟩ := Option.map_eq_some_iff.mp h
      obtain ⟨hspell, hlaid⟩ := scan_spec hscan
      have hplace : c.utf8Size = byteLength (String.ofList [c]).toList := by simp
      rw [hplace] at hlaid
      obtain ⟨hspell', hlaid'⟩ := prependTrivia_spec hlaid hfront
      refine ⟨?_, hlaid'⟩
      rw [hspell', hspell, String.toList_ofList]
      rfl
    · exact scan_spec h

/-! ## Trivia -/

/-- A lexeme is read from a text: what is in front of it is trivia, and it stands where no trivia is left. -/
def IsRead (l : Lexeme) : Prop :=
  ∃ cs rest nesting s, Scan.trivia .blank cs = some (l.trivia.toList, rest) ∧ step nesting rest = some s ∧
    l.text.toList = s.text ∧ l.form = s.form

/-- In front of a lexeme there is a slash, or there are blanks only. A mark of the byte order counts as one. -/
def Clear (l : Lexeme) : Prop :=
  '/' ∈ l.trivia.toList ∨ ∀ c ∈ l.trivia.toList, Text.isBlank c = true ∨ c = byteOrderMark

/-- A lexeme does not start with a blank. -/
def Solid (l : Lexeme) : Prop := ∀ c ∈ l.text.toList.head?, Text.isBlank c = false

/-- What a form says of a text: in a word there is a character that starts a name, and a number is of a kind for
    numbers. -/
structure Spells (form : Form) (text : List Char) : Prop where
  word : form = .word → ∃ c ∈ text, Text.isNameStart c = true
  number : ∀ kind, form = .number kind → kind ∈ Scan.numbers.map Prod.fst

theorem IsRead.clear {l : Lexeme} (h : l.IsRead) : l.Clear := by
  obtain ⟨cs, rest, -, -, htr, -, -, -⟩ := h
  by_cases hslash : '/' ∈ l.trivia.toList
  · exact Or.inl hslash
  · exact Or.inr fun c hc => Or.inl (Scan.isBlank_of_trivia rfl htr hslash c hc)

theorem IsRead.solid {l : Lexeme} (h : l.IsRead) : l.Solid := by
  obtain ⟨cs, rest, nesting, s, htr, hs, htext, -⟩ := h
  obtain ⟨happend, hne⟩ := step_spec hs
  obtain ⟨d, ds, hd⟩ := List.exists_cons_of_ne_nil hne
  intro c hc
  refine Scan.head_of_trivia htr c ?_
  rw [htext, hd] at hc
  rw [← happend, hd]
  exact hc

/-- Neither a word nor a number, of which nothing is said. -/
theorem Spells.other {form : Form} {text : List Char} (hword : form ≠ .word) (hnumber : ∀ kind, form ≠ .number kind) :
    Spells form text :=
  ⟨fun h => absurd h hword, fun kind h => absurd h (hnumber kind)⟩

theorem spells_of_stringStep {opening cs : List Char} {block : Bool} {whole cut : Form} {nesting : Nesting} {s : Step}
    (h : stringStep opening block whole cut nesting cs = some s) (hwhole : ∀ text, Spells whole text)
    (hcut : ∀ text, Spells cut text) : Spells s.form s.text := by
  unfold stringStep at h
  split at h
  · exact absurd h (by simp)
  · obtain rfl := Option.some.inj h
    exact hwhole _
  · obtain rfl := Option.some.inj h
    exact hcut _

/-- **What is read** is what its form says. -/
theorem spells_of_step {nesting : Nesting} {cs : List Char} {s : Step} (h : step nesting cs = some s) :
    Spells s.form s.text := by
  have hstring : ∀ text, Spells .string text := fun _ => .other (by simp) (by simp)
  have hopening : ∀ text, Spells .stringOpening text := fun _ => .other (by simp) (by simp)
  have hmiddle : ∀ text, Spells .stringMiddle text := fun _ => .other (by simp) (by simp)
  have hclosing : ∀ text, Spells .stringClosing text := fun _ => .other (by simp) (by simp)
  unfold step at h
  split at h
  · exact absurd h (by simp)
  · exact spells_of_stringStep h hstring hopening
  · exact spells_of_stringStep h hstring hopening
  · exact absurd h (by simp)
  · obtain ⟨_, -, rfl⟩ := Option.map_eq_some_iff.mp h
    exact .other (by simp) (by simp)
  · rename_i c cs _ _ _ _
    split at h
    · rename_i hstart
      obtain rfl := Option.some.inj h
      exact ⟨fun _ => ⟨c, List.mem_cons_self .., hstart⟩, by simp⟩
    · split at h
      · rename_i kind x rest hnumber
        obtain rfl := Option.some.inj h
        obtain ⟨scan, hmem, -⟩ := Scan.exists_scan_of_number hnumber
        refine ⟨by simp, ?_⟩
        rintro _ ⟨rfl⟩
        exact List.mem_map_of_mem hmem
      · split at h
        · exact spells_of_stringStep h hclosing hmiddle
        · obtain ⟨_, -, rfl⟩ := Option.map_eq_some_iff.mp h
          exact .other (by simp) (by simp)

theorem IsRead.spells {l : Lexeme} (h : l.IsRead) : Spells l.form l.text.toList := by
  obtain ⟨cs, rest, nesting, s, -, hs, htext, hform⟩ := h
  rw [htext, hform]
  exact spells_of_step hs

theorem isRead_of_scan {fuel place : Nat} {nesting : Nesting} {cs : List Char} {ls : List Lexeme}
    {trailing : String} (h : scan fuel place nesting cs = some (ls, trailing)) : ∀ l ∈ ls, l.IsRead := by
  induction fuel generalizing place nesting cs ls with
  | zero => exact absurd h (by simp [scan])
  | succ fuel ih =>
      unfold scan at h
      split at h
      · exact absurd h (by simp)
      · rename_i tr htr
        obtain ⟨rfl, -⟩ : [] = ls ∧ String.ofList tr = trailing := by simpa using h
        simp
      · rename_i tr c rest htr
        split at h
        · exact absurd h (by simp)
        · rename_i s hs
          simp only at h
          split at h
          · exact absurd h (by simp)
          · rename_i ls' trailing' hrest
            obtain ⟨rfl, rfl⟩ : _ = ls ∧ trailing' = trailing := by simpa using h
            intro l hl
            rcases List.mem_cons.mp hl with rfl | hl
            · exact ⟨cs, c :: rest, nesting, s, by rw [String.toList_ofList]; exact htr, hs,
                String.toList_ofList, rfl⟩
            · exact ih hrest l hl

/-- **The lexemes of a text** are read from it, but for a mark of the byte order in front of the first one. -/
theorem isRead_of_ofText? {s : String} {ls : List Lexeme} {trailing : String}
    (h : ofText? s = some (ls, trailing)) : ∀ l ∈ ls, ∃ k : Lexeme, k.IsRead ∧ (l.text = k.text ∧ l.form = k.form) ∧
      (l.trivia = k.trivia ∨ l.trivia = String.ofList [byteOrderMark] ++ k.trivia) := by
  unfold ofText? at h
  split at h
  · obtain ⟨rfl, -⟩ : [] = ls ∧ "" = trailing := by simpa using h
    simp
  · split at h
    · rename_i c cs _ hmark
      obtain ⟨⟨ls', trailing'⟩, hscan, hfront⟩ := Option.map_eq_some_iff.mp h
      have hread := isRead_of_scan hscan
      obtain rfl := beq_iff_eq.mp hmark
      cases ls' with
      | nil =>
          obtain ⟨rfl, -⟩ : [] = ls ∧ String.ofList [byteOrderMark] ++ trailing' = trailing := by
            simpa [prependTrivia] using hfront
          simp
      | cons l ls' =>
          obtain ⟨rfl, -⟩ : { l with trivia := String.ofList [byteOrderMark] ++ l.trivia } :: ls' = ls ∧
              trailing' = trailing := by
            simpa [prependTrivia] using hfront
          intro k hk
          rcases List.mem_cons.mp hk with rfl | hk
          · exact ⟨l, hread l (List.mem_cons_self ..), ⟨rfl, rfl⟩, Or.inr rfl⟩
          · exact ⟨k, hread k (List.mem_cons_of_mem l hk), ⟨rfl, rfl⟩, Or.inl rfl⟩
    · intro l hl
      exact ⟨l, isRead_of_scan h l hl, ⟨rfl, rfl⟩, Or.inl rfl⟩

/-- **In front of a lexeme of a text** there are blanks only, unless there is a slash. -/
theorem clear_of_ofText? {s : String} {ls : List Lexeme} {trailing : String}
    (h : ofText? s = some (ls, trailing)) : ∀ l ∈ ls, Clear l := by
  intro l hl
  obtain ⟨k, hk, -, htrivia⟩ := isRead_of_ofText? h l hl
  unfold Clear
  rcases htrivia with htrivia | htrivia
  · rw [htrivia]
    exact hk.clear
  · -- the mark is put in front of what is there already
    rw [htrivia, String.toList_append, String.toList_ofList]
    rcases hk.clear with hslash | hblank
    · exact Or.inl (List.mem_append_right _ hslash)
    · refine Or.inr ?_
      intro d hd
      rcases List.mem_append.mp hd with hd | hd
      · exact Or.inr (List.mem_singleton.mp hd)
      · exact hblank d hd

/-- **A lexeme of a text** starts with no blank. -/
theorem solid_of_ofText? {s : String} {ls : List Lexeme} {trailing : String}
    (h : ofText? s = some (ls, trailing)) : ∀ l ∈ ls, Solid l := by
  intro l hl
  obtain ⟨k, hk, ⟨htext, -⟩, -⟩ := isRead_of_ofText? h l hl
  unfold Solid
  rw [htext]
  exact hk.solid

/-- **A lexeme of a text** is what its form says. -/
theorem spells_of_ofText? {s : String} {ls : List Lexeme} {trailing : String}
    (h : ofText? s = some (ls, trailing)) : ∀ l ∈ ls, Spells l.form l.text.toList := by
  intro l hl
  obtain ⟨k, hk, ⟨htext, hform⟩, -⟩ := isRead_of_ofText? h l hl
  rw [htext, hform]
  exact hk.spells

end JavaRefactor.Java.Lexeme

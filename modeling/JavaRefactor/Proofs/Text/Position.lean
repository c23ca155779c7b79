import JavaRefactor.Proofs.Text.Pieces
import JavaRefactor.Text.Position

/-!
# `Proofs.Text.Position` — lines and columns tell the bytes of a text apart

A position is counted character by character. Counted byte by byte it is the same, since no byte of a character but
the line feed is one; and there every byte moves it on, to the next column or to the next line.

## Contents
- **Bytes.** `bytesOf`, and `feed_not_mem_encode`.
- **Steps.** `Position.advance`, by one byte, and **`foldl_advance`**: characters and bytes are counted alike.
- **Order.** `Position.Before`; **`before_foldl`**, for a run of bytes.
- **Lines.** `lineStart`, behind the last line feed; **`positionBehind_eq`**.
- **Back to the bytes.** `startOfRow`, behind a number of line feeds; `startOfRow_append` and `offsetAt`.
- **Positions in a text.** `exactPosition`, `offsetAt_exactPosition`, and **`positionOf_identifies`**.
-/

namespace JavaRefactor.Text

/-! ## Bytes -/

/-- The bytes of a text. -/
def bytesOf (s : String) : List UInt8 := s.toUTF8.data.toList

/-- The byte of a line feed. -/
def feed : UInt8 := 10

theorem bytesOf_eq (s : String) : bytesOf s = s.toList.flatMap String.utf8EncodeChar := by
  unfold bytesOf
  conv => lhs; rw [← String.ofList_toList (s := s), String.toUTF8_eq_toByteArray, String.toByteArray_ofList]
  rw [List.utf8Encode, List.data_toByteArray, List.toList_toArray]

theorem length_bytesOf (s : String) : (bytesOf s).length = s.utf8ByteSize := by
  rw [utf8ByteSize_eq, bytesOf_eq]
  induction s.toList with
  | nil => rfl
  | cons c cs ih => rw [List.flatMap_cons, List.length_append, ih, String.length_utf8EncodeChar, byteLength_cons]

theorem feed_ne_ofNat {n : Nat} (h : n < 256) (hne : n ≠ 10) : feed ≠ UInt8.ofNat n := by
  intro heq
  have hnat : 10 = n % 256 := congrArg UInt8.toNat heq
  omega

/-- **Only the line feed** is written with its byte. -/
theorem feed_not_mem_encode {c : Char} (h : c ≠ '\n') : feed ∉ String.utf8EncodeChar c := by
  have hval : c.val.toNat ≠ 10 := by
    intro hc
    exact h (Char.ext (UInt32.toNat_inj.mp hc))
  have hbyte : ∀ {n : Nat}, 128 ≤ n → n < 256 → feed ≠ UInt8.ofNat n := fun h hlt =>
    feed_ne_ofNat hlt (by omega)
  rw [String.utf8EncodeChar]
  -- of a character that takes several bytes each is at least 128
  split
  · rw [List.mem_singleton]
    exact feed_ne_ofNat (by omega) hval
  · split
    · simp only [List.mem_cons, List.not_mem_nil, or_false, not_or]
      exact ⟨hbyte (by omega) (by omega), hbyte (by omega) (by omega)⟩
    · split
      · simp only [List.mem_cons, List.not_mem_nil, or_false, not_or]
        exact ⟨hbyte (by omega) (by omega), hbyte (by omega) (by omega), hbyte (by omega) (by omega)⟩
      · simp only [List.mem_cons, List.not_mem_nil, or_false, not_or]
        exact ⟨hbyte (by omega) (by omega), hbyte (by omega) (by omega), hbyte (by omega) (by omega),
          hbyte (by omega) (by omega)⟩

/-! ## Steps -/

namespace Position

/-- The position behind a byte, by the one in front of it. -/
def advance (p : Position) (b : UInt8) : Position :=
  if b = feed then ⟨p.line + 1, 1⟩ else ⟨p.line, p.column + 1⟩

theorem advance_feed (p : Position) : p.advance feed = ⟨p.line + 1, 1⟩ := if_pos rfl

/-- Bytes among which there is no line feed move a position on in its line. -/
theorem foldl_advance_of_not_mem {bytes : List UInt8} (h : feed ∉ bytes) (p : Position) :
    bytes.foldl advance p = ⟨p.line, p.column + bytes.length⟩ := by
  induction bytes generalizing p with
  | nil => rfl
  | cons b bs ih =>
      rw [List.mem_cons, not_or] at h
      obtain ⟨hb, hbs⟩ := h
      have hstep : p.advance b = ⟨p.line, p.column + 1⟩ := if_neg (Ne.symm hb)
      rw [List.foldl_cons, ih hbs, hstep, List.length_cons, Nat.add_assoc, Nat.add_comm 1]

end Position

/-- **Characters and bytes are counted alike**, also where the count ends within a character. -/
theorem foldl_advance (cs : List Char) (n row column : Nat) :
    ((cs.flatMap String.utf8EncodeChar).take n).foldl Position.advance ⟨row + 1, column + 1⟩ =
      ⟨(countLines cs n row column).1 + 1, (countLines cs n row column).2 + 1⟩ := by
  induction cs generalizing n row column with
  | nil => cases n <;> simp [countLines]
  | cons c cs ih =>
      cases n with
      | zero => simp [countLines]
      | succ n =>
          have hlength := String.length_utf8EncodeChar c
          rw [List.flatMap_cons, List.take_append, hlength, List.foldl_append, countLines]
          by_cases hc : c = '\n'
          · subst hc
            have hsize : '\n'.utf8Size ≤ n + 1 := Nat.succ_le_succ (Nat.zero_le n)
            have hstep : ((String.utf8EncodeChar '\n').take (n + 1)).foldl Position.advance ⟨row + 1, column + 1⟩ =
                ⟨row + 1 + 1, 0 + 1⟩ := by
              rw [List.take_of_length_le (by rw [hlength]; exact hsize)]
              rfl
            rw [hstep, ih, if_pos hsize, if_pos (beq_self_eq_true _)]
          · have hbytes : feed ∉ (String.utf8EncodeChar c).take (n + 1) := fun hmem =>
              feed_not_mem_encode hc (List.mem_of_mem_take hmem)
            rw [Position.foldl_advance_of_not_mem hbytes, List.length_take, hlength]
            split
            · rename_i hsize
              rw [if_neg (by simpa using hc), Nat.min_eq_right hsize, Nat.add_right_comm, ih]
            · rename_i hsize
              rw [Nat.min_eq_left (by omega), Nat.sub_eq_zero_of_le (by omega), List.take_zero, List.foldl_nil,
                Nat.add_right_comm]

/-- The position behind some bytes. -/
def positionBehind (bytes : List UInt8) : Position := bytes.foldl Position.advance ⟨1, 1⟩

/-- The greatest line and column that are told apart stand for all beyond them. -/
def Position.capped (p : Position) : Position := ⟨min p.line positionLimit, min p.column positionLimit⟩

theorem positionOf_eq (s : String) (offset : Nat) :
    positionOf s offset = (positionBehind ((bytesOf s).take offset)).capped := by
  rw [positionBehind, bytesOf_eq, foldl_advance s.toList offset 0 0]
  rfl

/-! ## Order -/

namespace Position

/-- The one position is in front of the other: in an earlier line, or in the same line further left. -/
def Before (p q : Position) : Prop := p.line < q.line ∨ p.line = q.line ∧ p.column < q.column

variable {p q r : Position}

theorem Before.trans (h : p.Before q) (h' : q.Before r) : p.Before r := by
  unfold Before at *
  omega

theorem before_advance (p : Position) (b : UInt8) : p.Before (p.advance b) := by
  unfold advance
  split
  · exact Or.inl (Nat.lt_succ_self p.line)
  · exact Or.inr ⟨rfl, Nat.lt_succ_self p.column⟩

/-- **Bytes move a position on.** -/
theorem before_foldl {bytes : List UInt8} (h : bytes ≠ []) (p : Position) : p.Before (bytes.foldl advance p) := by
  induction bytes generalizing p with
  | nil => exact absurd rfl h
  | cons b bs ih =>
      rw [List.foldl_cons]
      have hstep := p.before_advance b
      cases bs with
      | nil => exact hstep
      | cons b' bs => exact hstep.trans (ih (by simp) (p.advance b))

end Position

/-- A position further on in the text is behind the other. -/
theorem before_of_lt {bytes : List UInt8} {a b : Nat} (hab : a < b) (hb : b ≤ bytes.length) :
    (positionBehind (bytes.take a)).Before (positionBehind (bytes.take b)) := by
  obtain ⟨n, rfl⟩ := Nat.exists_eq_add_of_lt hab
  have hsplit : bytes.take (a + n + 1) = bytes.take a ++ (bytes.drop a).take (n + 1) := by
    rw [Nat.add_assoc, List.take_add]
  have hne : (bytes.drop a).take (n + 1) ≠ [] := by
    apply List.ne_nil_of_length_pos
    rw [List.length_take, List.length_drop]
    omega
  rw [hsplit, positionBehind, positionBehind, List.foldl_append]
  exact Position.before_foldl hne _

/-! ## Lines -/

/-- The index of the last line feed. -/
def lastFeed? : List UInt8 → Option Nat
  | [] => none
  | b :: bs =>
    match lastFeed? bs with
    | some i => some (i + 1)
    | none => if b = feed then some 0 else none

/-- The index at which the last line starts. -/
def lineStart (bytes : List UInt8) : Nat :=
  match lastFeed? bytes with
  | some i => i + 1
  | none => 0

theorem lastFeed?_eq_none_iff {bytes : List UInt8} : lastFeed? bytes = none ↔ feed ∉ bytes := by
  induction bytes with
  | nil => simp [lastFeed?]
  | cons b bs ih =>
      rw [lastFeed?, List.mem_cons, not_or, ← ih]
      cases lastFeed? bs with
      | some i => simp
      | none => simp [eq_comm]

/-- Behind the last line feed there is no other. -/
theorem exists_of_lastFeed? {bytes : List UInt8} {i : Nat} (h : lastFeed? bytes = some i) :
    ∃ front line, bytes = front ++ feed :: line ∧ front.length = i ∧ feed ∉ line := by
  induction bytes generalizing i with
  | nil => exact absurd h (by simp [lastFeed?])
  | cons b bs ih =>
      rw [lastFeed?] at h
      cases hlast : lastFeed? bs with
      | some j =>
          rw [hlast] at h
          obtain rfl := Option.some.inj h
          obtain ⟨front, line, rfl, hlength, hline⟩ := ih hlast
          exact ⟨b :: front, line, rfl, by rw [List.length_cons, hlength], hline⟩
      | none =>
          rw [hlast] at h
          by_cases hb : b = feed
          · subst hb
            obtain rfl : 0 = i := Option.some.inj ((if_pos rfl).symm.trans h)
            exact ⟨[], bs, rfl, rfl, lastFeed?_eq_none_iff.mp hlast⟩
          · exact absurd ((if_neg hb).symm.trans h) (by simp)

/-- A line start: nothing is in front of it, or a line feed. -/
def EndsLine (front : List UInt8) : Prop := front = [] ∨ ∃ init, front = init ++ [feed]

/-- **The last line** starts at the front of the bytes or behind a line feed, and has none in it. -/
theorem exists_line (bytes : List UInt8) : ∃ front line, bytes = front ++ line ∧ front.length = lineStart bytes ∧
    EndsLine front ∧ feed ∉ line := by
  unfold lineStart
  cases hlast : lastFeed? bytes with
  | none => exact ⟨[], bytes, rfl, rfl, Or.inl rfl, lastFeed?_eq_none_iff.mp hlast⟩
  | some i =>
      obtain ⟨front, line, rfl, hlength, hline⟩ := exists_of_lastFeed? hlast
      refine ⟨front ++ [feed], line, by simp, ?_, Or.inr ⟨front, rfl⟩, hline⟩
      rw [List.length_append, hlength]
      rfl

theorem lineStart_le (bytes : List UInt8) : lineStart bytes ≤ bytes.length := by
  obtain ⟨front, line, hbytes, hlength, -, -⟩ := exists_line bytes
  rw [← hlength, hbytes, List.length_append]
  exact Nat.le_add_right _ _

/-- There is no line feed behind the start of the last line, and one in front of it unless it is the first. -/
theorem lineStart_spec (bytes : List UInt8) : feed ∉ bytes.drop (lineStart bytes) ∧
    (lineStart bytes = 0 ∨ bytes[lineStart bytes - 1]? = some feed) := by
  obtain ⟨front, line, hbytes, hlength, hfront, hline⟩ := exists_line bytes
  rw [← hlength]
  subst hbytes
  refine ⟨by rwa [List.drop_left], ?_⟩
  rcases hfront with rfl | ⟨init, rfl⟩
  · exact Or.inl rfl
  · right
    simp

/-- Each line feed starts a line. -/
theorem line_foldl_advance (bytes : List UInt8) (p : Position) :
    (bytes.foldl Position.advance p).line = p.line + bytes.count feed := by
  induction bytes generalizing p with
  | nil => rfl
  | cons b bs ih =>
      rw [List.foldl_cons, ih, List.count_cons]
      unfold Position.advance
      by_cases hb : b = feed
      · rw [if_pos hb, if_pos (by simpa using hb)]
        show p.line + 1 + _ = _
        omega
      · rw [if_neg hb, if_neg (by simpa using hb)]
        rfl

/-- At the start of a line the column is the first one. -/
theorem column_of_endsLine {front : List UInt8} (h : EndsLine front) : (positionBehind front).column = 1 := by
  rcases h with rfl | ⟨init, rfl⟩
  · rfl
  · rw [positionBehind, List.foldl_append, List.foldl_cons, List.foldl_nil, Position.advance_feed]

/-- **The position behind some bytes** by the line feeds among them and by where their last line starts. -/
theorem positionBehind_eq (bytes : List UInt8) :
    positionBehind bytes = ⟨1 + bytes.count feed, 1 + (bytes.length - lineStart bytes)⟩ := by
  obtain ⟨front, line, hbytes, hlength, hfront, hline⟩ := exists_line bytes
  have hcount : line.count feed = 0 := List.count_eq_zero.mpr hline
  have hlast : positionBehind bytes = ⟨(positionBehind front).line, (positionBehind front).column + line.length⟩ := by
    rw [hbytes, positionBehind, List.foldl_append, Position.foldl_advance_of_not_mem hline]
    rfl
  have hrow : (positionBehind front).line = 1 + front.count feed := line_foldl_advance front ⟨1, 1⟩
  rw [hlast, hrow, column_of_endsLine hfront, ← hlength, hbytes, List.count_append, hcount, List.length_append,
    Nat.add_sub_cancel_left, Nat.add_zero]

/-! ## Back to the bytes -/

/-- The index behind so many line feeds. -/
def startOfRow : List UInt8 → Nat → Nat
  | _, 0 => 0
  | [], _ + 1 => 0
  | b :: bs, row + 1 => if b = feed then startOfRow bs row + 1 else startOfRow bs (row + 1) + 1

theorem startOfRow_zero (bytes : List UInt8) : startOfRow bytes 0 = 0 := by
  cases bytes <;> rfl

/-- The row behind a line feed starts there. -/
theorem startOfRow_feed (init rest : List UInt8) :
    startOfRow (init ++ feed :: rest) (init.count feed + 1) = init.length + 1 := by
  induction init with
  | nil =>
      show startOfRow (feed :: rest) (0 + 1) = 0 + 1
      rw [startOfRow, if_pos rfl, startOfRow_zero]
  | cons b bs ih =>
      rw [List.cons_append, List.count_cons]
      by_cases hb : b = feed
      · rw [if_pos (by simpa using hb), startOfRow, if_pos hb, ih, List.length_cons]
      · rw [if_neg (by simpa using hb), Nat.add_zero, startOfRow, if_neg hb, ih, List.length_cons]

/-- **Behind as many line feeds** as stand among some bytes their last line starts. -/
theorem startOfRow_append (bytes rest : List UInt8) :
    startOfRow (bytes ++ rest) (bytes.count feed) = lineStart bytes := by
  obtain ⟨front, line, hbytes, hlength, hfront, hline⟩ := exists_line bytes
  have hcount : bytes.count feed = front.count feed := by
    rw [hbytes, List.count_append, List.count_eq_zero.mpr hline, Nat.add_zero]
  rw [hcount, ← hlength, hbytes, List.append_assoc]
  rcases hfront with rfl | ⟨init, rfl⟩
  · exact startOfRow_zero _
  · rw [List.append_assoc, List.count_append, List.length_append]
    exact startOfRow_feed init (line ++ rest)

/-- The offset of a position in a text. -/
def offsetAt (s : String) (p : Position) : Nat := startOfRow (bytesOf s) (p.line - 1) + (p.column - 1)

/-! ## Positions in a text -/

/-- The bytes of a text in front of an offset. -/
def bytesBefore (s : String) (offset : Nat) : List UInt8 := (bytesOf s).take (min offset s.utf8ByteSize)

/-- One line more than there are line feeds in front of the offset, and one column more than there are bytes behind
    the last of them. -/
def exactPosition (s : String) (offset : Nat) : Position :=
  ⟨1 + (bytesBefore s offset).count feed,
    1 + (min offset s.utf8ByteSize - lineStart (bytesBefore s offset))⟩

/-- Line and column are below `2 ^ 32`. -/
def Position.Fits (p : Position) : Prop := p.line ≤ positionLimit ∧ p.column ≤ positionLimit

instance (p : Position) : Decidable p.Fits :=
  inferInstanceAs (Decidable (p.line ≤ positionLimit ∧ p.column ≤ positionLimit))

theorem Position.capped_of_fits {p : Position} (h : p.Fits) : p.capped = p := by
  unfold Position.capped
  rw [Nat.min_eq_left h.1, Nat.min_eq_left h.2]

/-- Order is kept where the one further on is told exactly. -/
theorem Position.Before.capped {p q : Position} (h : p.Before q) (hq : q.Fits) : p.capped.Before q.capped := by
  rw [Position.capped_of_fits hq]
  unfold Position.Before at *
  show min p.line positionLimit < q.line ∨ min p.line positionLimit = q.line ∧ min p.column positionLimit < q.column
  obtain ⟨hline, hcolumn⟩ := hq
  omega

theorem length_bytesBefore (s : String) (offset : Nat) : (bytesBefore s offset).length = min offset s.utf8ByteSize := by
  rw [bytesBefore, List.length_take, length_bytesOf]
  omega

theorem exactPosition_eq (s : String) (offset : Nat) :
    exactPosition s offset = positionBehind ((bytesOf s).take (min offset s.utf8ByteSize)) := by
  rw [positionBehind_eq, ← bytesBefore, length_bytesBefore]
  rfl

theorem positionOf_eq_capped (s : String) (offset : Nat) : positionOf s offset = (exactPosition s offset).capped := by
  rw [exactPosition_eq, positionOf_eq, ← length_bytesOf, ← List.take_eq_take_min]

/-- **An offset is found again** from its exact position. -/
theorem offsetAt_exactPosition {s : String} {offset : Nat} (h : offset ≤ s.utf8ByteSize) :
    offsetAt s (exactPosition s offset) = offset := by
  have hstart := startOfRow_append (bytesBefore s offset) ((bytesOf s).drop (min offset s.utf8ByteSize))
  rw [bytesBefore, List.take_append_drop, ← bytesBefore] at hstart
  have hle := lineStart_le (bytesBefore s offset)
  rw [length_bytesBefore] at hle
  rw [offsetAt, exactPosition, Nat.add_sub_cancel_left, Nat.add_sub_cancel_left, hstart]
  omega

/-- **Positions identify offsets.** The last line in front of an offset starts in front of it, so that its column is
    no difference below zero, and line and column are those of the exact position as far as 32 bits go. Where they
    do, a greater offset up to the end of the text has a later position, so that no two offsets have the same one,
    and the offset is found again from the text and its position. -/
theorem positionOf_identifies (s : String) :
    (∀ offset, lineStart (bytesBefore s offset) ≤ min offset s.utf8ByteSize ∧
      feed ∉ (bytesBefore s offset).drop (lineStart (bytesBefore s offset)) ∧
      (lineStart (bytesBefore s offset) = 0 ∨
        (bytesBefore s offset)[lineStart (bytesBefore s offset) - 1]? = some feed) ∧
      positionOf s offset = (exactPosition s offset).capped ∧
      ((exactPosition s offset).Fits → positionOf s offset = exactPosition s offset)) ∧
    (∀ a b, a < b → b ≤ s.utf8ByteSize → (exactPosition s b).Fits → (positionOf s a).Before (positionOf s b)) ∧
    (∀ a b, a ≤ s.utf8ByteSize → b ≤ s.utf8ByteSize → a ≠ b → (exactPosition s a).Fits → (exactPosition s b).Fits →
      positionOf s a ≠ positionOf s b) ∧
    ∀ offset, offset ≤ s.utf8ByteSize → (exactPosition s offset).Fits →
      offsetAt s (positionOf s offset) = offset := by
  have hexact : ∀ offset, (exactPosition s offset).Fits → positionOf s offset = exactPosition s offset := by
    intro offset hfits
    rw [positionOf_eq_capped, Position.capped_of_fits hfits]
  have hback : ∀ offset, offset ≤ s.utf8ByteSize → (exactPosition s offset).Fits →
      offsetAt s (positionOf s offset) = offset := by
    intro offset hle hfits
    rw [hexact offset hfits, offsetAt_exactPosition hle]
  refine ⟨?_, ?_, ?_, hback⟩
  · intro offset
    have hstart := lineStart_le (bytesBefore s offset)
    rw [length_bytesBefore] at hstart
    obtain ⟨hline, hfeed⟩ := lineStart_spec (bytesBefore s offset)
    exact ⟨hstart, hline, hfeed, positionOf_eq_capped s offset, hexact offset⟩
  · intro a b hab hb hfits
    rw [positionOf_eq_capped, positionOf_eq_capped]
    refine Position.Before.capped ?_ hfits
    rw [exactPosition_eq, exactPosition_eq, Nat.min_eq_left (by omega), Nat.min_eq_left hb]
    exact before_of_lt hab (by rwa [length_bytesOf])
  · intro a b ha hb hne hfitsA hfitsB hsame
    apply hne
    rw [← hback a ha hfitsA, hsame, hback b hb hfitsB]

/-- Offsets within characters, in two lines, and their positions. -/
theorem positionOf_identifies_within : 2 < 5 ∧ 5 ≤ "aé\né".utf8ByteSize ∧
    (exactPosition "aé\né" 2).Fits ∧ (exactPosition "aé\né" 5).Fits ∧
    positionOf "aé\né" 2 = ⟨1, 3⟩ ∧ positionOf "aé\né" 5 = ⟨2, 2⟩ ∧
    (positionOf "aé\né" 2).Before (positionOf "aé\né" 5) ∧ positionOf "aé\né" 2 ≠ positionOf "aé\né" 5 ∧
    offsetAt "aé\né" ⟨2, 2⟩ = 5 := by
  obtain ⟨hposition, hbefore, hdistinct, hback⟩ := positionOf_identifies "aé\né"
  have hsize : 5 ≤ "aé\né".utf8ByteSize := by decide
  have hfirst : exactPosition "aé\né" 2 = ⟨1, 3⟩ := by decide
  have hsecond : exactPosition "aé\né" 5 = ⟨2, 2⟩ := by decide
  have hfitsFirst : (exactPosition "aé\né" 2).Fits := by rw [hfirst]; decide
  have hfitsSecond : (exactPosition "aé\né" 5).Fits := by rw [hsecond]; decide
  have hat : positionOf "aé\né" 5 = ⟨2, 2⟩ := ((hposition 5).2.2.2.2 hfitsSecond).trans hsecond
  refine ⟨by decide, hsize, hfitsFirst, hfitsSecond, ((hposition 2).2.2.2.2 hfitsFirst).trans hfirst, hat,
    hbefore 2 5 (by decide) hsize hfitsSecond, hdistinct 2 5 (by omega) hsize (by decide) hfitsFirst hfitsSecond, ?_⟩
  have hfound := hback 5 hsize hfitsSecond
  rwa [hat] at hfound

end JavaRefactor.Text

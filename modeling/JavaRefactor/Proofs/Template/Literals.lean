import JavaRefactor.Proofs.Template.Reversal

/-!
# `Proofs.Template.Literals` — literals, comments, and how a scan takes them

A scan of a template tells code from literals by one open quote. A Java text has comments as well, in which quotes mean
nothing, and text blocks, in which up to two quotes in a row do. So a scan reads a text as Java does only where no quote
stands in these places.

## Contents
- **Java texts.** `Standing`, where a text stands between its characters, with `step`; `within`, what the next character
  belongs to.
- **`Plain`**, texts without the quotes that a scan takes amiss.
- **`scanned_eq_taken`**: in a plain text a scan stands where Java does.
- **`normalise_literalAware`**, and `not_literalAware_quotes`, a comment and a text block with quotes in them.
-/

namespace JavaRefactor.Metavariable

open Text (byteLength)

/-! ## Java texts -/

/-- Where a Java text stands between two characters. -/
inductive Standing where
  /-- In code. -/
  | code
  /-- Behind a slash in code. -/
  | slash
  /-- In a comment up to the end of the line. -/
  | line
  /-- In a bracketed comment. -/
  | block
  /-- Behind a star in a bracketed comment. -/
  | star
  /-- In a string or a character literal that ends with this quote. -/
  | literal (quote : Char)
  /-- Behind a backslash in such a literal. -/
  | escape (quote : Char)
  /-- Behind a quote that opens a string or a text block. -/
  | opened
  /-- Behind two quotes, which are the empty string or open a text block. -/
  | pair
  /-- In a text block. -/
  | text
  /-- Behind a backslash in a text block. -/
  | textEscape
  /-- Behind one quote in a text block. -/
  | textQuote
  /-- Behind two quotes in a row in a text block. -/
  | textQuotes
  deriving DecidableEq, Repr

namespace Standing

/-- Behind a character of code. -/
def codeStep (c : Char) : Standing :=
  if c == '/' then .slash else if c == '"' then .opened else if c == '\'' then .literal c else .code

/-- Behind a character of a literal with this quote. -/
def literalStep (quote c : Char) : Standing :=
  if c == '\\' then .escape quote else if c == quote then .code else .literal quote

/-- Where a text stands behind the next character. -/
def step : Standing → Char → Standing
  | .code, c => codeStep c
  | .slash, c => if c == '/' then .line else if c == '*' then .block else codeStep c
  | .line, c => if c == '\n' then .code else .line
  | .block, c => if c == '*' then .star else .block
  | .star, c => if c == '/' then .code else if c == '*' then .star else .block
  | .literal quote, c => literalStep quote c
  | .escape quote, _ => .literal quote
  | .opened, c => if c == '"' then .pair else literalStep '"' c
  | .pair, c => if c == '"' then .text else codeStep c
  | .text, c => if c == '\\' then .textEscape else if c == '"' then .textQuote else .text
  | .textEscape, _ => .text
  | .textQuote, c => if c == '\\' then .textEscape else if c == '"' then .textQuotes else .text
  | .textQuotes, c => if c == '\\' then .textEscape else if c == '"' then .code else .text

/-- Where a Java text stands behind some characters from its start. -/
def behind (front : List Char) : Standing := front.foldl step .code

end Standing

/-- What a character of a Java text belongs to. -/
inductive Within where
  | code
  | comment
  | literal
  deriving DecidableEq, Repr

/-- What the next character belongs to, if it is neither a quote nor part of the marks of a comment. -/
def Standing.within : Standing → Within
  | .code => .code
  | .slash => .code
  | .pair => .code
  | .line => .comment
  | .block => .comment
  | .star => .comment
  | _ => .literal

/-! ## Plain texts -/

/-- Whether the next character is taken by a scan as it is by Java: no quote in a comment, one or two quotes in a text
    block only as the first of three, and no embedded expression in a literal. -/
def Standing.admits : Standing → Char → Bool
  | .line, c => c != '"' && c != '\''
  | .block, c => c != '"' && c != '\''
  | .star, c => c != '"' && c != '\''
  | .textQuote, c => c == '"'
  | .textQuotes, c => c == '"'
  | .escape _, c => c != '{'
  | .textEscape, c => c != '{'
  | _, _ => true

/-- Whether all characters of a text, from where it stands on, are taken by a scan as they are by Java. -/
def plainFrom : Standing → List Char → Bool
  | _, [] => true
  | s, c :: cs => s.admits c && plainFrom (s.step c) cs

/-- A text with no quote in a comment, with no quotes in a text block but those that end it, and with no embedded
    expression. -/
def Plain (text : List Char) : Prop := plainFrom .code text = true

theorem plainFrom_append {s : Standing} {front more : List Char} :
    plainFrom s (front ++ more) = (plainFrom s front && plainFrom (front.foldl Standing.step s) more) := by
  induction front generalizing s with
  | nil => rfl
  | cons c front ih => rw [List.cons_append, plainFrom, plainFrom, ih, List.foldl_cons, Bool.and_assoc]

/-- How a scan takes the place where a Java text stands. -/
def Standing.taken : Standing → ScanState
  | .literal quote => .literal quote
  | .escape quote => .escape quote
  | .opened => .literal '"'
  | .text => .literal '"'
  | .textEscape => .escape '"'
  | .textQuotes => .literal '"'
  | _ => .code

/-- A character of code is taken for what it is. -/
theorem taken_codeStep (c : Char) : (Standing.codeStep c).taken = ScanState.next .code c := by
  unfold Standing.codeStep
  by_cases hslash : c = '/'
  · subst hslash
    decide +kernel
  · by_cases hdouble : c = '"'
    · subst hdouble
      decide +kernel
    · by_cases hsingle : c = '\''
      · subst hsingle
        decide +kernel
      · simp only [ScanState.next_code, beq_eq_false_iff_ne.mpr hslash, beq_eq_false_iff_ne.mpr hdouble,
          beq_eq_false_iff_ne.mpr hsingle, Bool.or_self, Bool.false_eq_true, if_false]
        rfl

/-- A character of a literal is taken for what it is. -/
theorem taken_literalStep (quote c : Char) :
    (Standing.literalStep quote c).taken = ScanState.next (.literal quote) c := by
  rw [Standing.literalStep, ScanState.next_literal]
  split
  · rfl
  · split <;> rfl

/-- A comment is taken for code, and so are its marks. -/
theorem Standing.taken_comment {s : Standing} (h : s.within = .comment) (c : Char) :
    s.taken = .code ∧ (s.step c).taken = .code := by
  cases s with
  | line =>
      rw [step]
      split <;> exact ⟨rfl, rfl⟩
  | block =>
      rw [step]
      split <;> exact ⟨rfl, rfl⟩
  | star =>
      rw [step]
      split
      · exact ⟨rfl, rfl⟩
      · split <;> exact ⟨rfl, rfl⟩
  | _ => exact absurd h (by simp [within])

/-- A character of a text block is taken for one of a string. -/
theorem Standing.taken_text (c : Char) : (Standing.text.step c).taken = ScanState.next (.literal '"') c := by
  rw [step, ScanState.next_literal]
  split
  · rfl
  · split <;> rfl

/-- **One character** of a plain text is taken by a scan as by Java. -/
theorem Standing.taken_step {s : Standing} {c : Char} (h : s.admits c = true) :
    (s.step c).taken = s.taken.next c := by
  have hcomment : s.within = .comment → (c != '"' && c != '\'') = true → (s.step c).taken = s.taken.next c := by
    intro hs hc
    obtain ⟨htaken, hstep⟩ := taken_comment hs c
    obtain ⟨hdouble, hsingle⟩ : c ≠ '"' ∧ c ≠ '\'' := by simpa using hc
    rw [htaken, hstep]
    simp [ScanState.next, hdouble, hsingle]
  cases s with
  | code => exact taken_codeStep c
  | slash =>
      rw [step]
      split
      · rename_i hc
        obtain rfl := beq_iff_eq.mp hc
        rfl
      · split
        · rename_i hc
          obtain rfl := beq_iff_eq.mp hc
          rfl
        · exact taken_codeStep c
  | line => exact hcomment rfl h
  | block => exact hcomment rfl h
  | star => exact hcomment rfl h
  | literal quote => exact taken_literalStep quote c
  | escape quote => rfl
  | opened =>
      rw [step]
      split
      · rename_i hc
        obtain rfl := beq_iff_eq.mp hc
        rfl
      · exact taken_literalStep '"' c
  | pair =>
      rw [step]
      split
      · rename_i hc
        obtain rfl := beq_iff_eq.mp hc
        rfl
      · exact taken_codeStep c
  | text => exact taken_text c
  | textEscape => rfl
  | textQuote =>
      obtain rfl : c = '"' := beq_iff_eq.mp h
      rfl
  | textQuotes =>
      obtain rfl : c = '"' := beq_iff_eq.mp h
      rfl

/-- **In a plain text a scan stands where Java does**, behind all its beginnings. -/
theorem scanned_eq_taken {front more : List Char} (h : Plain (front ++ more)) :
    scanned front = (Standing.behind front).taken := by
  have hfront : plainFrom .code front = true := by
    unfold Plain at h
    rw [plainFrom_append] at h
    exact ((Bool.and_eq_true _ _).mp h).1
  have hsteps : ∀ s : Standing, plainFrom s front = true →
      front.foldl ScanState.next s.taken = (front.foldl Standing.step s).taken := by
    clear h hfront
    induction front with
    | nil => exact fun _ _ => rfl
    | cons c front ih =>
        intro s hs
        obtain ⟨hc, hrest⟩ := (Bool.and_eq_true _ _).mp hs
        rw [List.foldl_cons, List.foldl_cons, ← s.taken_step hc]
        exact ih _ hrest
  exact hsteps .code hfront

/-- In a plain text a dollar of a literal is none that a scan finds in code. -/
theorem scanned_ne_code {front more : List Char} (h : Plain (front ++ '$' :: more))
    (hwithin : (Standing.behind front).within = .literal) : scanned front ≠ .code := by
  have hadmits : (Standing.behind front).admits '$' = true := by
    have hall := h
    unfold Plain at hall
    rw [plainFrom_append, plainFrom] at hall
    exact ((Bool.and_eq_true _ _).mp ((Bool.and_eq_true _ _).mp hall).2).1
  rw [scanned_eq_taken h]
  generalize Standing.behind front = s at hwithin hadmits
  cases s with
  | textQuote => exact absurd hadmits (by decide +kernel)
  | textQuotes => exact absurd hadmits (by decide +kernel)
  | literal quote => exact nofun
  | escape quote => exact nofun
  | opened => exact nofun
  | text => exact nofun
  | textEscape => exact nofun
  | _ => exact absurd hwithin (by decide)

/-- In a plain text a scan takes code for code. -/
theorem scanned_eq_code {front more : List Char} (h : Plain (front ++ more))
    (hwithin : (Standing.behind front).within = .code) : scanned front = .code := by
  rw [scanned_eq_taken h]
  generalize Standing.behind front = s at hwithin
  cases s with
  | code => rfl
  | slash => rfl
  | pair => rfl
  | _ => exact absurd hwithin (by simp [Standing.within])

/-! ## Normalisation -/

/-- A text is normalised as its literals ask for: what is not recorded is copied, no dollar of a literal is recorded, and
    every metavariable of the code is. -/
structure LiteralAware (text : List Char) (ms : List Metavariable) (normal : List Char) : Prop where
  copied : Text.applyAtOnce 0 (ms.map replacement) text = some normal
  spared : ∀ front more, text = front ++ '$' :: more → (Standing.behind front).within = .literal →
    ∀ m ∈ ms, m.offset + byteLength m.written ≤ byteLength front ∨ byteLength front < m.offset
  recorded : ∀ m front, m.StandsBehind front text → (Standing.behind front).within = .code → m ∈ ms

/-- In a plain text the dollars of literals are in none of the metavariables that are found in code. -/
theorem spared_of_plain {text front front' more : List Char} {m : Metavariable} (hplain : Plain text)
    (htext : text = front ++ '$' :: more) (hwithin : (Standing.behind front).within = .literal)
    (hm : m.StandsBehind front' text) (hcode : scanned front' = .code) :
    m.offset + byteLength m.written ≤ byteLength front ∨ byteLength front < m.offset := by
  subst htext
  obtain ⟨later, hlater, hplace, -, hname⟩ := hm
  rw [hplace]
  by_contra hin
  rw [List.append_assoc] at hlater
  obtain ⟨part, rfl, hpart⟩ := Text.append_inv hlater.symm (by omega)
  rw [Text.byteLength_append] at hin
  obtain ⟨rest, hwritten, -⟩ := Text.append_inv hpart.symm (by omega)
  -- behind the part of the metavariable in front of the dollar, a scan stands in code as well
  refine scanned_ne_code hplain hwithin ?_
  rw [scanned_append, hcode]
  exact foldl_next_of_prefix hname.valid ⟨rest, hwritten.symm⟩

/-- **Normalisation is aware of literals, where no quote is out of the way.** What is recorded is what stands in the
    text where a scan stands in code. In a plain text no dollar of a literal is touched, and none is the reason why the
    text is rejected; every metavariable of the code is recorded, whatever stands in front of it. -/
theorem normalise_literalAware (text : String) :
    (∀ ms normal, normalise text = .ok (ms, normal) →
      (∀ m, m ∈ ms ↔ ∃ front, m.StandsBehind front text.toList ∧ scanned front = .code) ∧
      (Plain text.toList → LiteralAware text.toList ms normal.toList)) ∧
    ∀ fault, normalise text = .error fault → Plain text.toList →
      ∃ front rest, text.toList = front ++ rest ∧ Faulty (byteLength front) rest fault ∧
        (Standing.behind front).within ≠ .literal := by
  refine ⟨fun ms normal h => ?_, fun fault h hplain => ?_⟩
  · obtain ⟨out, final, hscan, rfl⟩ := scans_of_normalise h
    have hfound : ∀ m, m ∈ ms ↔ ∃ front, m.StandsBehind front text.toList ∧ scanned front = .code := by
      intro m
      constructor
      · intro hm
        have hstands := (hscan.standsBehind [] rfl ScanState.behind_nil).1 m hm
        rwa [List.nil_append, List.append_nil] at hstands
      · rintro ⟨front, hfront, hcode⟩
        exact hscan.mem_of_standsBehind [] front rfl ScanState.behind_nil hfront hcode
    refine ⟨hfound, fun hplain => ⟨?_, fun front more htext hwithin m hm => ?_, fun m front hfront hwithin => ?_⟩⟩
    · have honce := hscan.applyAtOnce 0 [] rfl
      rwa [List.nil_append, List.append_nil, List.nil_append, List.append_nil, ← String.toList_ofList (l := out)]
        at honce
    · obtain ⟨front', hfront, hcode⟩ := (hfound m).mp hm
      exact spared_of_plain hplain htext hwithin hfront hcode
    · have hstands := hfront
      obtain ⟨later, htext, -⟩ := hfront
      rw [List.append_assoc] at htext
      exact (hfound m).mpr ⟨front, hstands, scanned_eq_code (htext ▸ hplain) hwithin⟩
  · obtain ⟨front, rest, ms, out, htext, hscan, hfault⟩ := scans_of_normalise_error h
    refine ⟨front, rest, htext, hfault, fun hwithin => ?_⟩
    have hcode := (hscan.standsBehind [] rfl ScanState.behind_nil).2.reads
    rw [List.nil_append] at hcode
    obtain ⟨count, later, rfl, hpos, -⟩ := hfault
    obtain ⟨more, rfl⟩ := Nat.exists_eq_add_of_lt hpos
    rw [Nat.zero_add, List.replicate_succ, List.cons_append] at htext
    exact scanned_ne_code (htext ▸ hplain) hwithin hcode

/-- A plain text with metavariables and dollars in code, in literals, in a comment and in a text block. -/
theorem normalise_literalAware_mixed :
    (let text := "f($A, \"$A\\\"\", '$' /* $B */, \"\"\"\n 'x' $A\"\"\", $$$C)"
     let found : List Metavariable := [⟨"A", .single, 2⟩, ⟨"B", .single, 21⟩, ⟨"C", .run, 44⟩]
     let normal := "f(__RECAST_MV_A__, \"$A\\\"\", '$' /* __RECAST_MV_B__ */, \"\"\"\n 'x' $A\"\"\", __RECAST_MV_C__)"
     normalise text = .ok (found, normal) ∧ Plain text.toList ∧ LiteralAware text.toList found normal.toList) ∧
    (let text := "f(\"$\", $x)"
     normalise text = .error (.nameless 7) ∧ Plain text.toList ∧
       ∃ front rest, text.toList = front ++ rest ∧ Faulty (byteLength front) rest (.nameless 7) ∧
         (Standing.behind front).within ≠ .literal) := by
  have haccepted : normalise "f($A, \"$A\\\"\", '$' /* $B */, \"\"\"\n 'x' $A\"\"\", $$$C)" =
      .ok ([⟨"A", .single, 2⟩, ⟨"B", .single, 21⟩, ⟨"C", .run, 44⟩],
        "f(__RECAST_MV_A__, \"$A\\\"\", '$' /* __RECAST_MV_B__ */, \"\"\"\n 'x' $A\"\"\", __RECAST_MV_C__)") := by
    decide +kernel
  have hplain : Plain "f($A, \"$A\\\"\", '$' /* $B */, \"\"\"\n 'x' $A\"\"\", $$$C)".toList := by
    unfold Plain
    decide +kernel
  have hrejected : normalise "f(\"$\", $x)" = .error (.nameless 7) := by decide +kernel
  have hplain' : Plain "f(\"$\", $x)".toList := by
    unfold Plain
    decide +kernel
  exact ⟨⟨haccepted, hplain, ((normalise_literalAware _).1 _ _ haccepted).2 hplain⟩,
    hrejected, hplain', (normalise_literalAware _).2 _ hrejected hplain'⟩

/-- **A quote that is out of the way.** Behind an apostrophe in a comment a metavariable of the code is not found, and
    between quotes in a text block one is found that is part of the literal. -/
theorem not_literalAware_quotes :
    (let text := "f(/* don't */ $X)"
     normalise text = .ok ([], text) ∧ ¬LiteralAware text.toList [] text.toList) ∧
    (let text := "f(\"\"\"\n \"$X\" \"\"\")"
     let normal := "f(\"\"\"\n \"__RECAST_MV_X__\" \"\"\")"
     normalise text = .ok ([⟨"X", .single, 8⟩], normal) ∧
       ¬LiteralAware text.toList [⟨"X", .single, 8⟩] normal.toList) := by
  refine ⟨⟨by decide +kernel, fun h => ?_⟩, by decide +kernel, fun h => ?_⟩
  · have hname : LongestName (leadingName ['X', ')']) ['X', ')'] := longestName_leadingName (by decide)
    have hstands : StandsBehind ⟨"X", .single, 14⟩ "f(/* don't */ ".toList "f(/* don't */ $X)".toList :=
      ⟨[')'], by decide +kernel, by decide +kernel, by decide +kernel, hname⟩
    exact absurd (h.recorded _ _ hstands (by decide +kernel)) List.not_mem_nil
  · have hspared := h.spared "f(\"\"\"\n \"".toList "X\" \"\"\")".toList (by decide +kernel) (by decide +kernel) _
      (List.mem_singleton_self _)
    exact absurd hspared (by decide +kernel)

end JavaRefactor.Metavariable

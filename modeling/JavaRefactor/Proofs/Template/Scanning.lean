import Mathlib.Data.List.Basic
import Mathlib.Data.List.TakeDrop
import JavaRefactor.Proofs.Text.Edit
import JavaRefactor.Template.Metavariable

/-!
# `Proofs.Template.Scanning` — how a template is scanned for metavariables

A scan of a template copies characters one by one, and takes a metavariable as a whole. Where it stands is told by the
last quote that is open: whether a dollar counts is decided by that alone.

## Contents
- **Names.** `LongestName`, and what `leadingName` finds.
- **Metavariables.** `written`, the text of a metavariable, and `Faulty`, dollars that are no metavariable;
  `readDollars_cases`.
- **`Scans`**, a scan of the beginning of a text, and **`normaliseFrom_cases`**: how a scan ends.
-/

namespace JavaRefactor

open Text (byteLength)

/-- How many dollars a metavariable is written with. -/
def Shape.dollars : Shape → Nat
  | .single => 1
  | .run => 3

namespace Metavariable

/-! ## Names -/

/-- A name at the front of a text, of which no other name there is longer. -/
structure LongestName (name cs : List Char) : Prop where
  front : name <+: cs
  valid : isMetavariableName name = true
  longest : ∀ other, other <+: cs → isMetavariableName other = true → other <+: name

theorem continuesName_of_startsName {c : Char} (h : startsName c = true) : continuesName c = true := by
  unfold startsName at h
  unfold continuesName
  rcases (Bool.or_eq_true _ _).mp h with h | h
  · rw [h, Bool.true_or, Bool.true_or]
  · rw [h, Bool.or_true]

theorem leadingName_isPrefix (cs : List Char) : leadingName cs <+: cs := by
  cases cs with
  | nil => exact List.prefix_rfl
  | cons c cs =>
      rw [leadingName]
      split
      · exact (List.prefix_cons_inj c).mpr (List.takeWhile_prefix _)
      · exact List.nil_prefix

/-- Every name at the front of a text is the beginning of the one that is found there. -/
theorem isPrefix_leadingName {name cs : List Char} (h : name <+: cs) (hname : isMetavariableName name = true) :
    name <+: leadingName cs := by
  cases name with
  | nil => exact List.nil_prefix
  | cons c name =>
      obtain ⟨rest, rfl⟩ := h
      obtain ⟨hstart, hall⟩ := (Bool.and_eq_true _ _).mp hname
      rw [List.cons_append, leadingName, if_pos hstart, List.prefix_cons_inj,
        List.takeWhile_append_of_pos (List.all_eq_true.mp hall)]
      exact List.prefix_append _ _

theorem isMetavariableName_leadingName {cs : List Char} (h : leadingName cs ≠ []) :
    isMetavariableName (leadingName cs) = true := by
  cases cs with
  | nil => exact absurd rfl h
  | cons c cs =>
      rw [leadingName] at h ⊢
      split at h
      · rename_i hstart
        rw [if_pos hstart, isMetavariableName, hstart, Bool.true_and]
        exact List.all_takeWhile
      · exact absurd rfl h

/-- **What is found at the front of a text** is its longest name. -/
theorem longestName_leadingName {cs : List Char} (h : leadingName cs ≠ []) : LongestName (leadingName cs) cs where
  front := leadingName_isPrefix cs
  valid := isMetavariableName_leadingName h
  longest _ := isPrefix_leadingName

theorem LongestName.eq_leadingName {name cs : List Char} (h : LongestName name cs) : leadingName cs = name := by
  have hback := isPrefix_leadingName h.front h.valid
  have hne : leadingName cs ≠ [] := by
    intro hnil
    rw [hnil, List.prefix_nil] at hback
    exact absurd (hback ▸ h.valid) (by simp [isMetavariableName])
  have hfront := h.longest _ (leadingName_isPrefix cs) (isMetavariableName_leadingName hne)
  exact hfront.eq_of_length_le hback.length_le

/-- Where nothing is found there is no name. -/
theorem isMetavariableName_eq_false {name cs : List Char} (h : leadingName cs = []) (hname : name <+: cs) :
    isMetavariableName name = false := by
  refine Bool.eq_false_iff.mpr ?_
  intro hvalid
  have hnil := isPrefix_leadingName hname hvalid
  rw [h, List.prefix_nil] at hnil
  exact absurd (hnil ▸ hvalid) (by simp [isMetavariableName])

/-- A name is spelled with the characters of names. -/
theorem continuesName_of_mem {name : List Char} {c : Char} (h : isMetavariableName name = true) (hc : c ∈ name) :
    continuesName c = true := by
  cases name with
  | nil => exact absurd hc List.not_mem_nil
  | cons d name =>
      obtain ⟨hstart, hall⟩ := (Bool.and_eq_true _ _).mp h
      rcases List.mem_cons.mp hc with rfl | hc
      · exact continuesName_of_startsName hstart
      · exact List.all_eq_true.mp hall c hc

/-! ## Metavariables -/

/-- A metavariable as it is written in a template. -/
def written (m : Metavariable) : List Char := List.replicate m.shape.dollars '$' ++ m.name.toList

/-- A metavariable starts with a dollar. -/
theorem exists_written (m : Metavariable) : ∃ more, m.written = '$' :: more := by
  unfold written
  cases m.shape
  · exact ⟨_, rfl⟩
  · exact ⟨_, rfl⟩

theorem written_ne_nil (m : Metavariable) : m.written ≠ [] := by
  obtain ⟨more, hmore⟩ := m.exists_written
  rw [hmore]
  exact List.cons_ne_nil _ _

theorem toList_placeholder (name : String) :
    (placeholder name).toList = placeholderFront.toList ++ name.toList ++ placeholderBack.toList := by
  unfold placeholder
  rw [String.toList_append, String.toList_append]

/-- A placeholder is spelled with the characters of names. -/
theorem continuesName_of_mem_placeholder {name : String} (hname : ∀ c ∈ name.toList, continuesName c = true)
    {c : Char} (hc : c ∈ (placeholder name).toList) : continuesName c = true := by
  have hends : (placeholderFront.toList ++ placeholderBack.toList).all continuesName = true := by decide
  rw [List.all_eq_true] at hends
  rw [toList_placeholder] at hc
  simp only [List.mem_append] at hc hends
  rcases hc with (hc | hc) | hc
  · exact hends c (Or.inl hc)
  · exact hname c hc
  · exact hends c (Or.inr hc)

/-- The dollars at the front of a text are no metavariable: there are neither one nor three of them, or no name is
    behind them. The text starts at byte `offset`. -/
def Faulty (offset : Nat) (cs : List Char) (fault : MetavariableFault) : Prop :=
  ∃ count behind, cs = List.replicate count '$' ++ behind ∧ 0 < count ∧ behind.head? ≠ some '$' ∧
    (count ≠ 1 ∧ count ≠ 3 ∧ fault = .dollars offset count ∨
      (count = 1 ∨ count = 3) ∧ leadingName behind = [] ∧ fault = .nameless offset)

/-- **A dollar** is the first one of a metavariable, or of dollars that are none. -/
theorem readDollars_cases (offset : Nat) (rest : List Char) :
    (∃ (m : Metavariable) (behind : List Char) (count : Nat),
      readDollars offset rest = .ok (count, m.name.toList, m.shape) ∧ m.offset = offset ∧
      '$' :: rest = m.written ++ behind ∧ count + 1 = m.written.length ∧
      LongestName m.name.toList (m.name.toList ++ behind)) ∨
    ∃ fault, readDollars offset rest = .error fault ∧ Faulty offset ('$' :: rest) fault := by
  have hsplit : rest.takeWhile (· == '$') ++ rest.dropWhile (· == '$') = rest := List.takeWhile_append_dropWhile
  have hdrop : (rest.takeWhile (· == '$') ++ rest.dropWhile (· == '$')).drop (rest.takeWhile (· == '$')).length =
      rest.dropWhile (· == '$') := List.drop_left
  rw [hsplit] at hdrop
  have hhead := Text.head_dropWhile (· == '$') rest
  have hdollars : rest.takeWhile (· == '$') = List.replicate (rest.takeWhile (· == '$')).length '$' :=
    List.eq_replicate_iff.mpr ⟨rfl, fun c hc => beq_iff_eq.mp (List.all_eq_true.mp List.all_takeWhile c hc)⟩
  unfold readDollars
  simp only [hdrop]
  generalize rest.dropWhile (· == '$') = behind at hsplit hhead
  generalize (rest.takeWhile (· == '$')).length = more at hdollars
  rw [hdollars] at hsplit
  have htext : '$' :: rest = List.replicate (more + 1) '$' ++ behind := by
    rw [List.replicate_succ, List.cons_append, hsplit]
  have hend : behind.head? ≠ some '$' := fun hc => absurd (hhead '$' hc) (by simp)
  by_cases hcount : more = 0 ∨ more = 2
  · have hguard : (more == 0 || more == 2) = true := by simpa using hcount
    rw [if_pos hguard]
    by_cases hname : leadingName behind = []
    · refine Or.inr ⟨.nameless offset, ?_, more + 1, behind, htext, Nat.succ_pos _, hend, Or.inr ⟨?_, hname, rfl⟩⟩
      · rw [if_pos (List.isEmpty_iff.mpr hname)]
      · omega
    · obtain ⟨later, hlater⟩ := leadingName_isPrefix behind
      obtain ⟨shape, hshape, hguarded⟩ : ∃ shape : Shape, shape.dollars = more + 1 ∧
          (if more == 0 then Shape.single else .run) = shape := by
        rcases hcount with rfl | rfl
        · exact ⟨.single, rfl, rfl⟩
        · exact ⟨.run, rfl, rfl⟩
      refine Or.inl ⟨⟨String.ofList (leadingName behind), shape, offset⟩, later, more + (leadingName behind).length,
        ?_, rfl, ?_, ?_, ?_⟩
      · rw [if_neg (by simpa using hname), hguarded, String.toList_ofList]
      · rw [written, hshape, String.toList_ofList, List.append_assoc, hlater, htext]
      · rw [written, hshape, String.toList_ofList, List.length_append, List.length_replicate]
        omega
      · rw [String.toList_ofList, hlater]
        exact longestName_leadingName hname
  · have hguard : (more == 0 || more == 2) = false := by simpa using hcount
    rw [hguard]
    exact Or.inr ⟨.dollars offset (more + 1), rfl, more + 1, behind, htext, Nat.succ_pos _, hend,
      Or.inl ⟨by omega, by omega, rfl⟩⟩

/-! ## Scans -/

/-- Where a scan stands behind a character that it copies. -/
def ScanState.next : ScanState → Char → ScanState
  | .literal q, c => if c == '\\' then .escape q else if c == q then .code else .literal q
  | .escape q, _ => .literal q
  | _, c => if c == '"' || c == '\'' then .literal c else .code

theorem ScanState.next_code (c : Char) :
    ScanState.next .code c = if c == '"' || c == '\'' then .literal c else .code := rfl

theorem ScanState.next_literal (quote c : Char) : ScanState.next (.literal quote) c =
    if c == '\\' then .escape quote else if c == quote then .code else .literal quote := rfl

/-- Whether a scan stands in front of the next character of a text, with nothing left to skip. -/
def ScanState.isReady : ScanState → Bool
  | .skip _ => false
  | _ => true

theorem ScanState.isReady_next (state : ScanState) (c : Char) : (state.next c).isReady = true := by
  fun_cases ScanState.next state c
  all_goals rfl

/-- From `state` on, where it stands at a byte of a text, a scan reads some characters, which stand in front of
    `rest`, and then stands in `final`. It finds metavariables and copies the other characters. -/
inductive Scans (rest : List Char) (final : ScanState) :
    ScanState → Nat → List Char → List Metavariable → List Char → Prop
  /-- Nothing is left to read. -/
  | done (offset : Nat) : Scans rest final final offset [] [] []
  /-- A character is copied; in code it is no dollar. -/
  | copied {state : ScanState} {offset : Nat} {c : Char} {cs out : List Char} {ms : List Metavariable}
      (hready : state.isReady = true) (hplain : state = .code → c ≠ '$') :
      Scans rest final (state.next c) (offset + c.utf8Size) cs ms out →
      Scans rest final state offset (c :: cs) ms (c :: out)
  /-- A metavariable in code is replaced. -/
  | found {m : Metavariable} {cs out : List Char} {ms : List Metavariable}
      (hname : LongestName m.name.toList (m.name.toList ++ (cs ++ rest))) :
      Scans rest final .code (m.offset + byteLength m.written) cs ms out →
      Scans rest final .code m.offset (m.written ++ cs) (m :: ms) ((placeholder m.name).toList ++ out)

/-- What is to be skipped is passed over. -/
theorem normaliseFrom_skip (count offset : Nat) (front rest : List Char) (h : count = front.length) :
    normaliseFrom (.skip count) offset (front ++ rest) =
      normaliseFrom .code (offset + byteLength front) rest := by
  induction front generalizing count offset with
  | nil =>
      subst h
      cases rest with
      | nil => rfl
      | cons c cs => rfl
  | cons c front ih =>
      subst h
      rw [List.length_cons, List.cons_append, normaliseFrom]
      cases front with
      | nil =>
          simp [byteLength]
      | cons d front =>
          rw [if_neg (by simp), ih _ _ rfl, Text.byteLength_cons c, Nat.add_assoc]

/-- A character that is copied. -/
theorem normaliseFrom_copied {state : ScanState} {c : Char} (hready : state.isReady = true)
    (hplain : state = .code → c ≠ '$') (offset : Nat) (cs : List Char) :
    normaliseFrom state offset (c :: cs) =
      (normaliseFrom (state.next c) (offset + c.utf8Size) cs).map fun r => (r.1, c :: r.2) := by
  cases state with
  | skip n => exact absurd hready (by simp [ScanState.isReady])
  | literal q => rfl
  | escape q => rfl
  | code =>
      have hdollar : (c == '$') = false := by simpa using hplain rfl
      simp only [normaliseFrom, hdollar]
      rfl

/-- A metavariable that is replaced. -/
theorem normaliseFrom_found {m : Metavariable} {count offset : Nat} {cs behind : List Char}
    (hread : readDollars offset cs = .ok (count, m.name.toList, m.shape)) (hoffset : m.offset = offset)
    (hcs : '$' :: cs = m.written ++ behind) (hcount : count + 1 = m.written.length) :
    normaliseFrom .code offset ('$' :: cs) =
      (normaliseFrom .code (offset + byteLength m.written) behind).map fun r =>
        (m :: r.1, (placeholder m.name).toList ++ r.2) := by
  subst hoffset
  obtain ⟨more, hwritten, rfl⟩ : ∃ more, m.written = '$' :: more ∧ cs = more ++ behind := by
    cases hm : m.written with
    | nil => exact absurd hcount (by simp [hm])
    | cons d more =>
        rw [hm, List.cons_append] at hcs
        obtain ⟨rfl, rfl⟩ := List.cons.inj hcs
        exact ⟨more, rfl, rfl⟩
  have hmore : count = more.length := by
    rw [hwritten, List.length_cons] at hcount
    exact Nat.succ.inj hcount
  rw [normaliseFrom, if_pos (by rfl), hread]
  · simp only [normaliseFrom_skip count _ more behind hmore, String.ofList_toList, hwritten, Text.byteLength_cons,
      Nat.add_assoc]
  all_goals simp

/-- **How a scan ends**: at the end of the text, or in code in front of dollars that are no metavariable. -/
theorem normaliseFrom_cases (state : ScanState) (offset : Nat) (cs : List Char) (hready : state.isReady = true) :
    (∃ ms out final, normaliseFrom state offset cs = .ok (ms, out) ∧ Scans [] final state offset cs ms out) ∨
    ∃ fault front rest ms out, normaliseFrom state offset cs = .error fault ∧ cs = front ++ rest ∧
      Scans rest .code state offset front ms out ∧ Faulty (offset + byteLength front) rest fault := by
  -- a scan reads on behind a character, or behind a metavariable, in what is shorter
  induction hlength : cs.length using Nat.strongRecOn generalizing state offset cs with
  | ind n ih =>
  subst hlength
  cases cs with
  | nil => exact Or.inl ⟨[], [], state, by cases state <;> rfl, .done offset⟩
  | cons c cs =>
    by_cases hcode : state = .code ∧ c = '$'
    · obtain ⟨rfl, rfl⟩ := hcode
      rcases readDollars_cases offset cs with ⟨m, behind, count, hread, rfl, hcs, hcount, hname⟩ | ⟨fault, hread, hfault⟩
      · have hstep := normaliseFrom_found hread rfl hcs hcount
        have hshorter : behind.length < ('$' :: cs).length := by
          rw [hcs, List.length_append]
          omega
        rcases ih _ hshorter .code (m.offset + byteLength m.written) behind rfl rfl with
          ⟨ms, out, final, hr, hscan⟩ | ⟨fault, front, rest, ms, out, hr, rfl, hscan, hfault⟩
        · refine Or.inl ⟨m :: ms, (placeholder m.name).toList ++ out, final, by rw [hstep, hr]; rfl, ?_⟩
          rw [hcs]
          exact .found (by rwa [List.append_nil]) hscan
        · refine Or.inr ⟨fault, m.written ++ front, rest, m :: ms, (placeholder m.name).toList ++ out,
            by rw [hstep, hr]; rfl, by rw [hcs, List.append_assoc], .found hname hscan, ?_⟩
          rwa [Text.byteLength_append, ← Nat.add_assoc]
      · refine Or.inr ⟨fault, [], '$' :: cs, [], [], ?_, rfl, .done offset, hfault⟩
        rw [normaliseFrom, if_pos (by rfl), hread]
        all_goals simp
    · have hplain : state = .code → c ≠ '$' := fun hs hc => hcode ⟨hs, hc⟩
      have hstep := normaliseFrom_copied hready hplain offset cs
      rcases ih cs.length (by simp) (state.next c) (offset + c.utf8Size) cs (state.isReady_next c) rfl with
        ⟨ms, out, final, hr, hscan⟩ | ⟨fault, front, rest, ms, out, hr, rfl, hscan, hfault⟩
      · exact Or.inl ⟨ms, c :: out, final, by rw [hstep, hr]; rfl, .copied hready hplain hscan⟩
      · refine Or.inr ⟨fault, c :: front, rest, ms, c :: out, by rw [hstep, hr]; rfl, rfl,
          .copied hready hplain hscan, ?_⟩
        rwa [Text.byteLength_cons, ← Nat.add_assoc]

/-- A text that is accepted is scanned to its end. -/
theorem scans_of_normalise {text normal : String} {ms : List Metavariable} (h : normalise text = .ok (ms, normal)) :
    ∃ out final, Scans [] final .code 0 text.toList ms out ∧ normal = String.ofList out := by
  unfold normalise at h
  rcases normaliseFrom_cases .code 0 text.toList rfl with ⟨ms', out, final, hr, hscan⟩ | ⟨fault, _, _, _, _, hr, -⟩
  · rw [hr] at h
    obtain ⟨rfl, rfl⟩ := Prod.mk.inj (Except.ok.inj h)
    exact ⟨out, final, hscan, rfl⟩
  · rw [hr] at h
    exact absurd h (by simp [Except.map])

/-- A text that is rejected is scanned up to dollars that are no metavariable. -/
theorem scans_of_normalise_error {text : String} {fault : MetavariableFault} (h : normalise text = .error fault) :
    ∃ front rest ms out, text.toList = front ++ rest ∧ Scans rest .code .code 0 front ms out ∧
      Faulty (byteLength front) rest fault := by
  unfold normalise at h
  rcases normaliseFrom_cases .code 0 text.toList rfl with
    ⟨ms', out, final, hr, -⟩ | ⟨fault', front, rest, ms, out, hr, htext, hscan, hfault⟩
  · rw [hr] at h
    exact absurd h (by simp [Except.map])
  · rw [hr] at h
    obtain rfl := Except.error.inj h
    rw [Nat.zero_add] at hfault
    exact ⟨front, rest, ms, out, htext, hscan, hfault⟩

/-! ## What is in front of a scan -/

/-- A metavariable stands behind some characters of a text: there are its dollars, no more than these, and behind them
    its name, which is the longest one there. -/
def StandsBehind (m : Metavariable) (front text : List Char) : Prop :=
  ∃ behind, text = front ++ m.written ++ behind ∧ m.offset = byteLength front ∧ front.getLast? ≠ some '$' ∧
    LongestName m.name.toList (m.name.toList ++ behind)

/-- A metavariable stands in a text, at its offset. -/
def StandsIn (m : Metavariable) (text : List Char) : Prop := ∃ front, m.StandsBehind front text

/-- Where a scan from the start of a text stands behind some characters. -/
def scanned (front : List Char) : ScanState := front.foldl ScanState.next .code

theorem scanned_append (front more : List Char) :
    scanned (front ++ more) = more.foldl ScanState.next (scanned front) := List.foldl_append

/-- A scan that stands in `state` behind the characters `front`. In a literal it waits for a quote, and in code the last
    of the characters is no dollar. -/
structure ScanState.Behind (state : ScanState) (front : List Char) : Prop where
  reads : scanned front = state
  quoted : ∀ q, state = .literal q ∨ state = .escape q → q = '"' ∨ q = '\''
  apart : state = .code → front.getLast? ≠ some '$'

theorem ScanState.behind_nil : ScanState.Behind .code [] := ⟨rfl, by simp, by simp⟩

/-- A quote is what a literal starts with, and what it ends with. -/
theorem ScanState.Behind.next {state : ScanState} {front : List Char} {c : Char} (h : state.Behind front)
    (hplain : state = .code → c ≠ '$') (hready : state.isReady = true) : (state.next c).Behind (front ++ [c]) := by
  refine ⟨by rw [scanned_append, h.reads]; rfl, fun q hq => ?_, fun hcode => ?_⟩
  · cases state with
    | skip n => exact absurd hready (by simp [isReady])
    | escape q' => exact h.quoted q (by simpa [ScanState.next] using hq)
    | literal q' =>
        refine h.quoted q (Or.inl ?_)
        unfold ScanState.next at hq
        dsimp only at hq
        split at hq
        · simpa using hq
        · split at hq
          · exact absurd hq (by simp)
          · simpa using hq
    | code =>
        unfold ScanState.next at hq
        dsimp only at hq
        split at hq
        · rename_i hquote
          obtain rfl : c = q := by simpa using hq
          simpa using hquote
        · exact absurd hq (by simp)
  · rw [List.getLast?_concat]
    intro hdollar
    obtain rfl := Option.some.inj hdollar
    cases state with
    | skip n => exact absurd hready (by simp [isReady])
    | escape q' => exact absurd hcode (by simp [ScanState.next])
    | literal q' =>
        have hquote := h.quoted q' (Or.inl rfl)
        rcases hquote with rfl | rfl
        · exact absurd hcode (by decide)
        · exact absurd hcode (by decide)
    | code => exact hplain rfl rfl

/-- The last character of a metavariable is one of its name. -/
theorem getLast?_written {m : Metavariable} (h : isMetavariableName m.name.toList = true) (front : List Char) :
    (front ++ m.written).getLast? ≠ some '$' := by
  have hne : m.name.toList ≠ [] := by
    intro hnil
    rw [hnil] at h
    exact absurd h (by simp [isMetavariableName])
  intro hlast
  rw [written, ← List.append_assoc, List.getLast?_append_of_ne_nil _ hne] at hlast
  exact absurd (continuesName_of_mem h (List.mem_of_getLast? hlast)) (by decide)

/-- The characters of a metavariable are dollars and characters of names. -/
theorem of_mem_written {m : Metavariable} (h : isMetavariableName m.name.toList = true) {c : Char}
    (hc : c ∈ m.written) : c = '$' ∨ continuesName c = true := by
  rcases List.mem_append.mp hc with hc | hc
  · exact Or.inl (List.eq_of_mem_replicate hc)
  · exact Or.inr (continuesName_of_mem h hc)

/-- A metavariable has no quote: behind each beginning of one a scan stands in code, as in front of it. -/
theorem foldl_next_of_prefix {m : Metavariable} (h : isMetavariableName m.name.toList = true) {part : List Char}
    (hpart : part <+: m.written) : part.foldl ScanState.next .code = .code := by
  have hplain : ∀ c ∈ part, ScanState.next .code c = .code := by
    intro c hc
    have hquotes : (c == '"' || c == '\'') = false := by
      rw [Bool.eq_false_iff]
      intro hquote
      rcases of_mem_written h (hpart.subset hc) with rfl | hname
      · exact absurd hquote (by decide)
      · rcases (Bool.or_eq_true _ _).mp hquote with hquote | hquote
        · obtain rfl := beq_iff_eq.mp hquote
          exact absurd hname (by decide)
        · obtain rfl := beq_iff_eq.mp hquote
          exact absurd hname (by decide)
    show (if c == '"' || c == '\'' then ScanState.literal c else .code) = .code
    rw [hquotes]
    rfl
  clear hpart
  induction part with
  | nil => rfl
  | cons c part ih =>
      rw [List.foldl_cons, hplain c (by simp)]
      exact ih fun d hd => hplain d (by simp [hd])

theorem ScanState.Behind.written {m : Metavariable} {front : List Char} (h : ScanState.Behind .code front)
    (hname : isMetavariableName m.name.toList = true) : ScanState.Behind .code (front ++ m.written) :=
  ⟨by rw [scanned_append, h.reads, foldl_next_of_prefix hname List.prefix_rfl], by simp,
    fun _ => getLast?_written hname front⟩

/-- **What a scan finds** stands in the text, where the scan stands in code; and the scan ends behind what it reads. -/
theorem Scans.standsBehind {rest : List Char} {final state : ScanState} {offset : Nat} {cs out : List Char}
    {ms : List Metavariable} (h : Scans rest final state offset cs ms out) :
    ∀ (front : List Char), offset = byteLength front → state.Behind front →
      (∀ m ∈ ms, ∃ front', m.StandsBehind front' (front ++ cs ++ rest) ∧ scanned front' = .code) ∧
        final.Behind (front ++ cs) := by
  induction h with
  | done offset =>
      intro front _ hbehind
      exact ⟨by simp, by rwa [List.append_nil]⟩
  | @copied state offset c cs out ms hready hplain _ ih =>
      intro front hoffset hbehind
      have hnext := ih (front ++ [c]) (by rw [Text.byteLength_append, hoffset]; rfl)
        (hbehind.next hplain hready)
      rwa [List.append_assoc front [c], List.singleton_append] at hnext
  | @found m cs out ms hname _ ih =>
      intro front hoffset hbehind
      obtain ⟨hlater, hfinal⟩ := ih (front ++ m.written) (by rw [Text.byteLength_append, hoffset])
        (hbehind.written hname.valid)
      rw [List.append_assoc front] at hlater hfinal
      refine ⟨fun v hv => ?_, hfinal⟩
      rcases List.mem_cons.mp hv with rfl | hv
      · refine ⟨front, ⟨cs ++ rest, ?_, hoffset, hbehind.apart rfl, hname⟩, hbehind.reads⟩
        simp only [List.append_assoc]
      · exact hlater v hv

/-- The dollars of a metavariable are all that are there, so what is behind them is its name. -/
theorem span_written {m : Metavariable} (h : isMetavariableName m.name.toList = true) (behind : List Char) :
    (m.written ++ behind).span (· == '$') =
      (List.replicate m.shape.dollars '$', m.name.toList ++ behind) := by
  have hall : ∀ c ∈ List.replicate m.shape.dollars '$', (c == '$') = true := by
    intro c hc
    rw [List.eq_of_mem_replicate hc]
    rfl
  cases hname : m.name.toList with
  | nil =>
      rw [hname] at h
      exact absurd h (by simp [isMetavariableName])
  | cons d name =>
      have hd : (d == '$') = false := by
        rw [Bool.eq_false_iff]
        intro hdollar
        obtain rfl := beq_iff_eq.mp hdollar
        rw [hname] at h
        exact absurd (continuesName_of_mem h (List.mem_cons_self ..)) (by decide)
      rw [List.span_eq_takeWhile_dropWhile, written, hname, List.append_assoc, List.takeWhile_append_of_pos hall,
        List.dropWhile_append_of_pos hall, List.cons_append, List.takeWhile_cons, List.dropWhile_cons, hd]
      simp

/-- In front of a dollar of a metavariable there are only dollars. -/
theorem eq_replicate_of_written {m : Metavariable} (h : isMetavariableName m.name.toList = true)
    {part later : List Char} (hwritten : m.written = part ++ '$' :: later) :
    part = List.replicate part.length '$' := by
  rcases List.append_eq_append_iff.mp hwritten with ⟨behind, rfl, hname⟩ | ⟨behind, hdollars, -⟩
  · have hdollar : '$' ∈ m.name.toList := by
      rw [hname]
      exact List.mem_append_right _ (List.mem_cons_self ..)
    exact absurd (continuesName_of_mem h hdollar) (by decide)
  · refine List.eq_replicate_iff.mpr ⟨rfl, fun c hc => ?_⟩
    have hmem : c ∈ List.replicate m.shape.dollars '$' := by
      rw [hdollars]
      exact List.mem_append_left _ hc
    exact List.eq_of_mem_replicate hmem

/-- At one place there stands one metavariable. -/
theorem eq_of_written_append {a b : Metavariable} {xs ys : List Char} (h : a.written ++ xs = b.written ++ ys)
    (hoffset : a.offset = b.offset) (ha : LongestName a.name.toList (a.name.toList ++ xs))
    (hb : LongestName b.name.toList (b.name.toList ++ ys)) : a = b := by
  have hspan := congrArg (List.span (· == '$')) h
  rw [span_written ha.valid, span_written hb.valid] at hspan
  obtain ⟨hdollars, hrest⟩ := Prod.mk.inj hspan
  have hshape : a.shape = b.shape := by
    have hcount := congrArg List.length hdollars
    rw [List.length_replicate, List.length_replicate] at hcount
    revert hcount
    cases a.shape <;> cases b.shape <;> decide
  have hname : a.name.toList = b.name.toList := by rw [← ha.eq_leadingName, hrest, hb.eq_leadingName]
  cases a
  cases b
  simp only [mk.injEq]
  exact ⟨String.toList_injective hname, hshape, hoffset⟩

/-- **What stands in code is found** by a scan to the end of the text, here of its part behind `front`. -/
theorem Scans.mem_of_standsBehind {final state : ScanState} {offset : Nat} {cs out : List Char}
    {ms : List Metavariable} (h : Scans [] final state offset cs ms out) :
    ∀ (front more : List Char) {m : Metavariable}, offset = byteLength front → state.Behind front →
      m.StandsBehind (front ++ more) (front ++ cs) → scanned (front ++ more) = .code → m ∈ ms := by
  induction h with
  | done offset =>
      intro front more m _ _ hm _
      obtain ⟨behind, htext, -⟩ := hm
      have hlength := congrArg List.length htext
      have hpos := List.length_pos_iff.mpr m.written_ne_nil
      simp only [List.length_append, List.length_nil] at hlength
      omega
  | @copied state offset c cs out ms hready hplain _ ih =>
      intro front more m hoffset hbehind hm hcode
      cases more with
      | nil =>
          -- the metavariable would start with a character that is copied
          rw [List.append_nil] at hm hcode
          obtain ⟨behind, htext, -⟩ := hm
          rw [List.append_assoc, List.append_cancel_left_eq] at htext
          refine absurd ?_ (hplain (hbehind.reads.symm.trans hcode))
          obtain ⟨more, hmore⟩ := exists_written m
          rw [hmore] at htext
          exact (List.cons.inj htext).1
      | cons d more =>
          obtain rfl : d = c := by
            obtain ⟨behind, htext, -⟩ := hm
            rw [List.append_assoc, List.append_assoc, List.append_cancel_left_eq] at htext
            exact (List.cons.inj htext).1.symm
          rw [List.append_cons front d more] at hm hcode
          rw [List.append_cons front d cs] at hm
          exact ih _ more (by rw [Text.byteLength_append, hoffset]; rfl) (hbehind.next hplain hready) hm hcode
  | @found v cs out ms hname _ ih =>
      intro front more m hoffset hbehind hm hcode
      have hstands := hm
      obtain ⟨behind, htext, hplace, hapart, hlongest⟩ := hm
      rw [List.append_assoc, List.append_assoc, List.append_cancel_left_eq] at htext
      by_cases hle : byteLength v.written ≤ byteLength more
      · -- it stands behind the one that is found here
        obtain ⟨later, rfl, -⟩ := Text.append_inv htext hle
        rw [← List.append_assoc] at hstands hcode
        rw [← List.append_assoc front v.written cs] at hstands
        exact List.mem_cons_of_mem _
          (ih (front ++ v.written) later (by rw [Text.byteLength_append, hoffset]) (hbehind.written hname.valid)
            hstands hcode)
      · obtain ⟨part, hwritten, hrest⟩ := Text.append_inv htext.symm (by omega)
        obtain ⟨dollars, hdollars⟩ := m.exists_written
        cases part with
        | nil =>
            rw [List.append_nil] at hwritten
            exact absurd (Nat.le_of_eq (congrArg byteLength hwritten)) hle
        | cons d part =>
            obtain rfl : '$' = d := by
              rw [hdollars] at hrest
              exact (List.cons.inj hrest).1
            have hmore := eq_replicate_of_written hname.valid hwritten
            cases more with
            | nil =>
                rw [List.append_nil] at hplace
                rw [List.append_nil] at hname
                have hm : m = v := eq_of_written_append htext.symm (hplace.trans hoffset.symm) hlongest hname
                exact hm ▸ List.mem_cons_self ..
            | cons c more =>
                -- in front of it there would be a dollar
                refine absurd ?_ hapart
                rw [List.getLast?_append_of_ne_nil _ (by simp), hmore, List.getLast?_replicate]
                rfl

/-- What a scan finds stands behind where it starts, and one behind the other. -/
theorem Scans.offsets {rest : List Char} {final state : ScanState} {offset : Nat} {cs out : List Char}
    {ms : List Metavariable} (h : Scans rest final state offset cs ms out) :
    (∀ m ∈ ms, offset ≤ m.offset) ∧ ms.Pairwise fun a b => a.offset + byteLength a.written ≤ b.offset := by
  induction h with
  | done offset => exact ⟨by simp, List.Pairwise.nil⟩
  | @copied state offset c cs out ms _ _ _ ih =>
      exact ⟨fun m hm => Nat.le_trans (Nat.le_add_right _ _) (ih.1 m hm), ih.2⟩
  | @found m cs out ms _ _ ih =>
      refine ⟨fun v hv => ?_, List.pairwise_cons.mpr ih⟩
      rcases List.mem_cons.mp hv with rfl | hv
      · exact Nat.le_refl _
      · exact Nat.le_trans (Nat.le_add_right _ _) (ih.1 v hv)

end Metavariable

end JavaRefactor

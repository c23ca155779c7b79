import JavaRefactor.Proofs.Text.Pieces
import JavaRefactor.Text.Edit

/-!
# `Proofs.Text.Edit` — edits one after the other and at once

Edits that are in order and apart from each other can be made from the last to the first: an edit leaves
what stands in front of it where it was. So the ranges of all edits may be told in the text as it was
before.

## Contents
- **`Span.Cuts.behind`**: a range of a text, told behind a beginning of the text; and `Span.Cuts.between` and
  `Span.Cuts.append`, for two ranges.
- **At once.** `applyAtOnce_cons`; `applyAtOnce_behind` and `applyAtOnce_around`: what stands in front of the edits or
  between them; `applyAtOnce_filter`: an edit that changes nothing.
- **`applyFromEnd_eq_applyAtOnce`**, and `applyWhereFits_of_applyFromEnd`; `applyWhereFits_insertions`, at one place.
-/

namespace JavaRefactor.Text

/-- Of two beginnings of one text, the longer one starts with the other. -/
theorem append_inv {front rest front' rest' : List Char} (h : front ++ rest = front' ++ rest')
    (hle : byteLength front ≤ byteLength front') :
    ∃ between, front' = front ++ between ∧ rest = between ++ rest' := by
  rcases List.append_eq_append_iff.mp h with ⟨between, hfront, hrest⟩ | ⟨between, hfront, hrest⟩
  · exact ⟨between, hfront, hrest⟩
  · -- what is left over takes no byte, so there is nothing left over
    cases between with
    | nil => exact ⟨[], by simpa using hfront.symm, by simpa using hrest.symm⟩
    | cons c cs =>
        have hpos : 0 < byteLength (c :: cs) := byteLength_pos (by simp)
        rw [hfront, byteLength_append] at hle
        omega

/-- Two beginnings of one text that take as many bytes are the same. -/
theorem append_inj {front rest front' rest' : List Char} (h : front ++ rest = front' ++ rest')
    (hlength : byteLength front = byteLength front') : front = front' ∧ rest = rest' := by
  obtain ⟨between, hfront, hrest⟩ := append_inv h (Nat.le_of_eq hlength)
  cases between with
  | nil => exact ⟨by simpa using hfront.symm, by simpa using hrest⟩
  | cons c cs =>
      have hpos : 0 < byteLength (c :: cs) := byteLength_pos (by simp)
      rw [hfront, byteLength_append] at hlength
      omega

/-- Behind the characters of a class at the front of a text there is none of them. -/
theorem head_dropWhile (p : Char → Bool) (cs : List Char) : ∀ c ∈ (cs.dropWhile p).head?, p c = false := by
  intro c hc
  have hnot := List.head?_dropWhile_not p cs
  rw [Option.mem_def.mp hc] at hnot
  simpa using hnot

/-- Characters of a class end in front of the next character that is none. -/
theorem byteLength_le_of_class {p : Char → Bool} {before middle rest front behind : List Char} {c : Char}
    (h : before ++ middle ++ rest = front ++ c :: behind) (hle : byteLength before ≤ byteLength front)
    (hmiddle : ∀ x ∈ middle, p x = true) (hc : p c = false) : byteLength (before ++ middle) ≤ byteLength front := by
  rw [List.append_assoc] at h
  obtain ⟨between, rfl, hrest⟩ := append_inv h hle
  rw [byteLength_append, byteLength_append]
  refine Nat.le_of_not_lt fun hlonger => ?_
  obtain ⟨more, rfl, hmore⟩ := append_inv hrest.symm (by omega)
  cases more with
  | nil => exact absurd hlonger (by simp)
  | cons x more =>
      obtain ⟨rfl, -⟩ := List.cons.inj hmore
      rw [hmiddle c (List.mem_append_right _ (List.mem_cons_self ..))] at hc
      exact absurd hc (by simp)

/-- A range that starts behind a beginning of the text. -/
theorem Span.Cuts.behind {span : Span} {front rest middle : List Char}
    (h : span.Cuts (front ++ rest) middle) (hle : byteLength front ≤ span.start) :
    ∃ before behind, rest = before ++ middle ++ behind ∧
      span = ⟨byteLength (front ++ before), byteLength (front ++ before ++ middle)⟩ := by
  obtain ⟨front', behind, htext, rfl⟩ := h
  rw [List.append_assoc] at htext
  obtain ⟨before, rfl, hrest⟩ := append_inv htext hle
  exact ⟨before, behind, by rw [hrest, List.append_assoc], rfl⟩

/-- What stands between two ranges. -/
theorem Span.Cuts.between {a b : Span} {cs x y : List Char} (ha : a.Cuts cs x) (hb : b.Cuts cs y)
    (hle : a.stop ≤ b.start) : ∃ middle, (⟨a.stop, b.start⟩ : Span).Cuts cs middle := by
  obtain ⟨front, rest, rfl, rfl⟩ := ha
  obtain ⟨middle, behind, rfl, rfl⟩ := hb.behind hle
  exact ⟨middle, front ++ x, y ++ behind, by simp only [List.append_assoc], rfl⟩

/-- Two ranges, of which one starts where the other ends. -/
theorem Span.Cuts.append {first middle last : Nat} {cs x y : List Char}
    (hx : (⟨first, middle⟩ : Span).Cuts cs x) (hy : (⟨middle, last⟩ : Span).Cuts cs y) :
    (⟨first, last⟩ : Span).Cuts cs (x ++ y) := by
  obtain ⟨front, rest, rfl, hspan⟩ := hx
  obtain ⟨rfl, rfl⟩ := Span.mk.inj hspan
  obtain ⟨front', behind, htext, hspan⟩ := hy
  obtain ⟨hmiddle, rfl⟩ := Span.mk.inj hspan
  rw [List.append_assoc front' y behind] at htext
  obtain ⟨rfl, rfl⟩ := append_inj htext hmiddle
  exact ⟨front, behind, by simp only [List.append_assoc], by simp only [List.append_assoc]⟩

/-- An edit of the middle of three parts. -/
theorem applied?_append {e : Edit} {front middle rest : List Char}
    (h : e.span = ⟨byteLength front, byteLength (front ++ middle)⟩) :
    e.applied? (front ++ middle ++ rest) = some (front ++ e.text ++ rest) := by
  have hle : byteLength front ≤ byteLength (front ++ middle) := by
    rw [byteLength_append]; omega
  have htake : takeBytes (front ++ middle ++ rest) (byteLength front) = some front := by
    rw [List.append_assoc, takeBytes_append]
  unfold Edit.applied?
  rw [h, if_pos hle]
  simp only [htake, dropBytes_append]

/-- Edits at once, of which the first one edits the middle of three parts. -/
theorem applyAtOnce_append {e : Edit} {es : List Edit} {place : Nat} {before middle behind : List Char}
    (h : e.span = ⟨place + byteLength before, place + byteLength (before ++ middle)⟩) :
    applyAtOnce place (e :: es) (before ++ middle ++ behind) =
      (applyAtOnce e.span.stop es behind).map fun r => before ++ e.text ++ r := by
  have hplaces : place ≤ e.span.start ∧ e.span.start ≤ e.span.stop := by
    rw [h]
    simp only [byteLength_append]
    omega
  have hstart : e.span.start - place = byteLength before := by rw [h]; simp
  have hstop : e.span.stop - place = byteLength (before ++ middle) := by rw [h]; simp
  have htake : takeBytes (before ++ middle ++ behind) (byteLength before) = some before := by
    rw [List.append_assoc, takeBytes_append]
  rw [applyAtOnce, if_pos hplaces, hstart, hstop]
  simp only [htake, dropBytes_append]

/-- The first of edits at once, told in the text as a whole: what stands in front of its range stays, and the others
    are made behind it. -/
theorem applyAtOnce_cons {e : Edit} {front cs middle : List Char} (h : e.span.Cuts (front ++ cs) middle)
    (hle : byteLength front ≤ e.span.start) :
    ∃ before behind, cs = before ++ middle ++ behind ∧
      e.span = ⟨byteLength (front ++ before), byteLength (front ++ before ++ middle)⟩ ∧
      ∀ es rest, applyAtOnce (byteLength front) (e :: es) (before ++ middle ++ rest) =
        (applyAtOnce (byteLength (front ++ before ++ middle)) es rest).map fun r => before ++ e.text ++ r := by
  obtain ⟨before, behind, hcs, hspan⟩ := h.behind hle
  refine ⟨before, behind, hcs, hspan, fun es rest => ?_⟩
  have hplaces : e.span = ⟨byteLength front + byteLength before, byteLength front + byteLength (before ++ middle)⟩ := by
    rw [hspan]
    simp only [byteLength_append, Nat.add_assoc]
  rw [applyAtOnce_append hplaces, hspan]

/-- **Edits behind a beginning of the text** leave it as it is. -/
theorem applyAtOnce_behind {es : List Edit} (front skipped : List Char) {cs : List Char}
    (hcuts : ∀ e ∈ es, (∃ middle, e.span.Cuts (front ++ skipped ++ cs) middle) ∧
      byteLength (front ++ skipped) ≤ e.span.start) :
    applyAtOnce (byteLength front) es (skipped ++ cs) =
      (applyAtOnce (byteLength (front ++ skipped)) es cs).map (skipped ++ ·) := by
  cases es with
  | nil => rfl
  | cons e es =>
      obtain ⟨⟨middle, hmiddle⟩, hstart⟩ := hcuts e (by simp)
      obtain ⟨before, behind, rfl, hspan⟩ := hmiddle.behind hstart
      have hwhole : e.span = ⟨byteLength front + byteLength (skipped ++ before),
          byteLength front + byteLength (skipped ++ before ++ middle)⟩ := by
        rw [hspan]
        simp only [byteLength_append, Nat.add_assoc]
      have hrest : e.span = ⟨byteLength (front ++ skipped) + byteLength before,
          byteLength (front ++ skipped) + byteLength (before ++ middle)⟩ := by
        rw [hspan]
        simp only [byteLength_append, Nat.add_assoc]
      have htext : skipped ++ (before ++ middle ++ behind) = skipped ++ before ++ middle ++ behind := by
        simp only [List.append_assoc]
      rw [htext, applyAtOnce_append hwhole, applyAtOnce_append hrest, Option.map_map]
      congr 1
      funext r
      simp only [Function.comp_apply, List.append_assoc]

/-- **An edit that puts in what it takes out** may as well be left out. -/
theorem applyAtOnce_filter {α : Type} {edit : α → Edit} {p : α → Bool} (front : List Char) {cs : List Char}
    {xs : List α}
    (hcuts : ∀ x ∈ xs, byteLength front ≤ (edit x).span.start ∧
      ∃ middle, (edit x).span.Cuts (front ++ cs) middle ∧ (p x = false → (edit x).text = middle))
    (hapart : xs.Pairwise fun a b => (edit a).span.stop ≤ (edit b).span.start) :
    applyAtOnce (byteLength front) ((xs.filter p).map edit) cs = applyAtOnce (byteLength front) (xs.map edit) cs := by
  induction xs generalizing front cs with
  | nil => rfl
  | cons x xs ih =>
      obtain ⟨hstart, middle, hmiddle, hsame⟩ := hcuts x (by simp)
      obtain ⟨hbehind, hxs⟩ := List.pairwise_cons.mp hapart
      obtain ⟨before, behind, rfl, hspan, hstep⟩ := applyAtOnce_cons hmiddle hstart
      have htext : front ++ (before ++ middle ++ behind) = front ++ before ++ middle ++ behind := by
        simp only [List.append_assoc]
      have hstop : (edit x).span.stop = byteLength (front ++ before ++ middle) := by rw [hspan]
      rw [htext] at hcuts
      have hrest : ∀ y ∈ xs, byteLength (front ++ before ++ middle) ≤ (edit y).span.start ∧
          ∃ middle', (edit y).span.Cuts (front ++ before ++ middle ++ behind) middle' ∧
            (p y = false → (edit y).text = middle') :=
        fun y hy => ⟨hstop ▸ hbehind y hy, (hcuts y (by simp [hy])).2⟩
      have hxs := ih (front ++ before ++ middle) hrest hxs
      rw [List.map_cons, hstep, ← hxs]
      by_cases hx : p x = true
      · rw [List.filter_cons_of_pos hx, List.map_cons, hstep]
      · rw [List.filter_cons_of_neg hx, hsame (by simpa using hx)]
        have hlater : ∀ e ∈ (xs.filter p).map edit,
            (∃ middle', e.span.Cuts (front ++ (before ++ middle) ++ behind) middle') ∧
              byteLength (front ++ (before ++ middle)) ≤ e.span.start := by
          intro e he
          obtain ⟨y, hy, rfl⟩ := List.mem_map.mp he
          obtain ⟨hplace, middle', hcut, -⟩ := hrest y (List.mem_filter.mp hy).1
          rw [← List.append_assoc front]
          exact ⟨⟨middle', hcut⟩, hplace⟩
        rw [applyAtOnce_behind front (before ++ middle) hlater, ← List.append_assoc front]

/-- **Edits around a piece of the text** leave it as it is: some are made in front of it, the others behind it. -/
theorem applyAtOnce_around {es : List Edit} (first front : List Char) {middle rest out : List Char}
    (hcuts : ∀ e ∈ es, byteLength first ≤ e.span.start ∧
      ∃ cut, e.span.Cuts (first ++ (front ++ middle ++ rest)) cut)
    (hapart : es.Pairwise fun a b => a.span.stop ≤ b.span.start)
    (hbeside : ∀ e ∈ es, e.span.stop ≤ byteLength (first ++ front) ∨
      byteLength (first ++ front ++ middle) ≤ e.span.start)
    (hout : applyAtOnce (byteLength first) es (front ++ middle ++ rest) = some out) :
    ∃ es₁ es₂ front' rest', es = es₁ ++ es₂ ∧ applyAtOnce (byteLength first) es₁ front = some front' ∧
      applyAtOnce (byteLength (first ++ front ++ middle)) es₂ rest = some rest' ∧ out = front' ++ middle ++ rest' := by
  induction es generalizing first front out with
  | nil => exact ⟨[], [], front, rest, rfl, rfl, rfl, (Option.some.inj hout).symm⟩
  | cons e es ih =>
      obtain ⟨hstart, cut, hcut⟩ := hcuts e (by simp)
      obtain ⟨hbehind, hes⟩ := List.pairwise_cons.mp hapart
      obtain ⟨before, behind, htext, hspan, hstep⟩ := applyAtOnce_cons hcut hstart
      rcases hbeside e (by simp) with hfront | hrest
      · -- this edit is made in front of the piece, which stands behind it in the rest of the text
        obtain ⟨between, rfl, rfl⟩ : ∃ between, front = before ++ cut ++ between ∧
            behind = between ++ (middle ++ rest) := by
          rw [List.append_assoc front] at htext
          refine append_inv htext.symm ?_
          rw [hspan] at hfront
          simp only [byteLength_append] at hfront ⊢
          omega
        have hstop : e.span.stop = byteLength (first ++ before ++ cut) := by rw [hspan]
        have hwhole : first ++ (before ++ cut ++ between ++ middle ++ rest) =
            first ++ before ++ cut ++ (between ++ middle ++ rest) := by
          simp only [List.append_assoc]
        have hplace : first ++ (before ++ cut ++ between) = first ++ before ++ cut ++ between := by
          simp only [List.append_assoc]
        have hsplit : before ++ cut ++ between ++ middle ++ rest = before ++ cut ++ (between ++ middle ++ rest) := by
          simp only [List.append_assoc]
        rw [hsplit, hstep] at hout
        rw [hwhole] at hcuts
        rw [hplace] at hbeside ⊢
        obtain ⟨out, hlater, rfl⟩ := Option.map_eq_some_iff.mp hout
        obtain ⟨es₁, es₂, front', rest', rfl, hes₁, hes₂, rfl⟩ := ih (first ++ before ++ cut) between
          (fun e' he' => ⟨hstop ▸ hbehind e' he', (hcuts e' (by simp [he'])).2⟩) hes
          (fun e' he' => hbeside e' (by simp [he'])) hlater
        refine ⟨e :: es₁, es₂, before ++ e.text ++ front', rest', rfl, ?_, hes₂, by simp only [List.append_assoc]⟩
        rw [hstep, hes₁]
        rfl
      · -- this edit is made behind the piece, and so are those behind it
        have hstop : e.span.start ≤ e.span.stop := by
          rw [hspan, byteLength_append (first ++ before)]
          exact Nat.le_add_right _ _
        have hlater : ∀ e' ∈ e :: es, (∃ cut, e'.span.Cuts (first ++ (front ++ middle) ++ rest) cut) ∧
            byteLength (first ++ (front ++ middle)) ≤ e'.span.start := by
          intro e' he'
          have hcut' := (hcuts e' he').2
          rw [← List.append_assoc first] at hcut'
          refine ⟨hcut', ?_⟩
          rw [← List.append_assoc first]
          rcases List.mem_cons.mp he' with rfl | he'
          · exact hrest
          · exact Nat.le_trans (Nat.le_trans hrest hstop) (hbehind e' he')
        rw [applyAtOnce_behind first (front ++ middle) hlater, ← List.append_assoc first] at hout
        obtain ⟨rest', hrest', rfl⟩ := Option.map_eq_some_iff.mp hout
        exact ⟨[], e :: es, front, rest', rfl, rfl, hrest', rfl⟩

/-- **Edits from the last to the first**, in a text of which `front` stands in front of all of them. -/
theorem applyFromEnd_append {edits : List Edit} (front : List Char) {cs : List Char}
    (hcuts : ∀ e ∈ edits, (∃ middle, e.span.Cuts (front ++ cs) middle) ∧
      byteLength front ≤ e.span.start)
    (hapart : edits.Pairwise fun a b => a.span.stop ≤ b.span.start) :
    ∃ out, applyAtOnce (byteLength front) edits cs = some out ∧
      applyFromEnd edits (front ++ cs) = some (front ++ out) := by
  -- the front grows by what stands before the first edit and by what that edit takes out
  induction edits generalizing front cs with
  | nil => exact ⟨cs, rfl, rfl⟩
  | cons e es ih =>
      obtain ⟨⟨middle, hmiddle⟩, hstart⟩ := hcuts e (by simp)
      obtain ⟨hbehind, hes⟩ := List.pairwise_cons.mp hapart
      obtain ⟨before, behind, rfl, hspan, hstep⟩ := applyAtOnce_cons hmiddle hstart
      have htext : front ++ (before ++ middle ++ behind) = front ++ before ++ middle ++ behind := by
        simp only [List.append_assoc]
      have hstop : e.span.stop = byteLength (front ++ before ++ middle) := by rw [hspan]
      rw [htext] at hcuts ⊢
      have hrest : ∀ e' ∈ es, (∃ middle', e'.span.Cuts (front ++ before ++ middle ++ behind) middle') ∧
          byteLength (front ++ before ++ middle) ≤ e'.span.start :=
        fun e' he' => ⟨(hcuts e' (by simp [he'])).1, hstop ▸ hbehind e' he'⟩
      obtain ⟨out, hout, hend⟩ := ih _ hrest hes
      refine ⟨before ++ e.text ++ out, ?_, ?_⟩
      · rw [hstep, hout]
        rfl
      · have hfrom : applyFromEnd (e :: es) (front ++ before ++ middle ++ behind) =
            (applyFromEnd es (front ++ before ++ middle ++ behind)).bind e.applied? := rfl
        rw [hfrom, hend, Option.bind_some, applied?_append hspan]
        simp only [List.append_assoc]

/-- **Edits from the last to the first are made at once**, where they are in order and apart from each
    other and their ranges end between characters. -/
theorem applyFromEnd_eq_applyAtOnce {edits : List Edit} {cs : List Char}
    (hcuts : ∀ e ∈ edits, ∃ middle, e.span.Cuts cs middle)
    (hapart : edits.Pairwise fun a b => a.span.stop ≤ b.span.start) :
    ∃ out, applyAtOnce 0 edits cs = some out ∧ applyFromEnd edits cs = some out :=
  applyFromEnd_append [] (fun e he => ⟨hcuts e he, Nat.zero_le _⟩) hapart

/-- **No edit is left out** where all of them fit, the last one made first. -/
theorem applyWhereFits_of_applyFromEnd {edits : List Edit} {cs out : List Char}
    (h : applyFromEnd edits cs = some out) : applyWhereFits edits.reverse cs = out := by
  unfold applyWhereFits
  rw [List.foldl_reverse]
  induction edits generalizing out with
  | nil => exact Option.some.inj h
  | cons e es ih =>
      obtain ⟨r, hr, he⟩ := Option.bind_eq_some_iff.mp h
      rw [List.foldr_cons, ih hr, he, Option.getD_some]

/-- **Texts put in at one place** come to stand the other way round. -/
theorem applyWhereFits_insertions {α : Type} (text : α → List Char) (xs : List α) (front rest : List Char) :
    applyWhereFits (xs.map fun x => ⟨⟨byteLength front, byteLength front⟩, text x⟩) (front ++ rest) =
      front ++ xs.reverse.flatMap text ++ rest := by
  unfold applyWhereFits
  induction xs generalizing rest with
  | nil => simp
  | cons x xs ih =>
      have hfits : (⟨⟨byteLength front, byteLength front⟩, text x⟩ : Edit).applied? (front ++ [] ++ rest) =
          some (front ++ text x ++ rest) := applied?_append (by simp)
      rw [List.append_nil, List.append_assoc] at hfits
      rw [List.map_cons, List.foldl_cons, hfits, Option.getD_some, ih, List.reverse_cons, List.flatMap_append]
      simp

end JavaRefactor.Text

import JavaRefactor.Proofs.Imports.Weight
import JavaRefactor.Proofs.Match.Weight
import JavaRefactor.Proofs.Pass.Parentheses

/-!
# `Proofs.Pass.Weight` — passes that make a text lighter

A rule shrinks texts if the tokens of each before-template outweigh all that a replacement puts in besides the values: the
text of the after-template, parentheses around each value and around the whole, and the imports of the rule. The
values weigh as much as before, if none of them is put in twice. So a pass of such a rule makes any text lighter in which
it replaces something.

## Contents
- **Slots.** `weight_fill`, one of them, and `weight_fillSlots`.
- **Values.** `boundWeight`, and `sum_boundWeight_le`: names that differ are bound to values that are faced apart.
- **`Rule.Shrinks`**, which is decidable.
- **`weight_replacement`**, **`weight_substitute`**, **`weight_apply`**: one occurrence, all of them, and a pass.
-/

namespace JavaRefactor

open Java (Lexeme Spelled)
open Syntax (Node Tree)
open Text (Edit slice weight spanWeight)

variable {w : Char → Nat}

namespace Pass

variable {t : Tree} {ls : List Lexeme} {nodes : List Node}

/-! ## Slots -/

/-- What a pair of parentheses weighs. -/
def pairWeight (w : Char → Nat) : Nat := w '(' + w ')'

theorem weight_parenthesized (text : String) :
    weight w (parenthesized text).toList = weight w text.toList + pairWeight w := by
  have hchars : (parenthesized text).toList = '(' :: (text.toList ++ [')']) := by
    unfold parenthesized
    rw [String.toList_append, String.toList_append]
    rfl
  rw [hchars]
  unfold pairWeight
  simp only [Text.weight_cons, Text.weight_append, Text.weight_nil]
  omega

/-- What is written for a node weighs what the node does, and a pair of parentheses, at most. -/
theorem weight_textForNode (h : Spelled t ls nodes) (parent slot : Node) {n : Node}
    (hn : n ∈ t.root.listing) :
    weight w (textForNode t.source parent slot n).toList ≤
      spanWeight w t.source n.span + pairWeight w := by
  rcases textForNode_cases t.source parent slot n with ⟨e, he, -, htext⟩ | ⟨-, htext⟩
  · have hbelow : e ∈ n.listing := by
      rcases he with rfl | he
      · exact Node.mem_listing_self e
      · unfold insideParentheses? at he
        split at he
        · have hchild : e ∈ n.namedChildren := List.mem_of_mem_head? he
          exact Node.mem_listing_of_mem_children (List.mem_of_mem_filter hchild)
        · exact absurd he (by simp)
    have hle := h.spanWeight_le_of_mem_listing (w := w) hn hbelow
    rw [htext]
    exact Nat.le_trans hle (Nat.le_add_right _ _)
  · rw [htext, weight_parenthesized]
    exact Nat.le_refl _

/-- **A slot** is filled with what weighs as much as the value, and a pair of parentheses, at most. -/
theorem weight_fill (h : Spelled t ls nodes) (s : Slot) {v : Bound}
    (hv : ∀ k ∈ v.nodes, k ∈ t.root.listing) :
    weight w (s.fill t.source v).toList ≤ spanWeight w t.source v.span + pairWeight w := by
  cases v with
  | run ns anchor => exact Nat.le_add_right _ _
  | node n =>
      unfold Slot.fill
      cases s.parent with
      | none => exact Nat.le_add_right _ _
      | some parent => exact weight_textForNode h parent s.node (hv n (List.mem_singleton_self n))

/-- What a template's text weighs from byte `place` to `stop` beside the slots. -/
def frameWeight (w : Char → Nat) (text : String) (stop : Nat) : Nat → List Slot → Nat
  | place, [] => spanWeight w text ⟨place, stop⟩
  | place, s :: rest =>
    spanWeight w text ⟨place, s.node.span.start⟩ + frameWeight w text stop s.node.span.stop rest

/-- What the value of a name weighs. -/
def boundWeight (w : Char → Nat) (source : String) (b : Binding) (name : String) : Nat :=
  match b.get? name with
  | some v => spanWeight w source v.span
  | none => 0

/-- **A template that is filled in** weighs what its frame and the values do, and a pair of parentheses for each slot,
    at most. -/
theorem weight_fillSlots (h : Spelled t ls nodes) {text out : String} {b : Binding}
    {stop place : Nat} {slots : List Slot}
    (hb : ∀ name v, b.get? name = some v → ∀ k ∈ v.nodes, k ∈ t.root.listing)
    (hout : fillSlots text t.source b stop place slots = .ok out) :
    weight w out.toList ≤ frameWeight w text stop place slots +
      (slots.map fun s => boundWeight w t.source b s.name).sum + slots.length * pairWeight w := by
  induction slots generalizing place out with
  | nil =>
      obtain rfl := Except.ok.inj hout
      exact Nat.le_add_right _ _
  | cons s slots ih =>
      obtain ⟨v, tail, hv, htail, rfl⟩ := fillSlots_cons.mp hout
      have hfill := weight_fill (w := w) h s (hb s.name v hv)
      have hrest := ih htail
      have hvalue : boundWeight w t.source b s.name = spanWeight w t.source v.span := by
        unfold boundWeight
        rw [hv]
      have hfront : weight w (slice text ⟨place, s.node.span.start⟩).toList =
          spanWeight w text ⟨place, s.node.span.start⟩ := rfl
      rw [frameWeight, List.map_cons, List.sum_cons, List.length_cons, Nat.succ_mul, hvalue]
      simp only [String.toList_append, Text.weight_append]
      omega

/-! ## Values -/

/-- **Names that differ** are bound to values that are faced apart from each other. -/
theorem sum_boundWeight_le {source : String} {b : Binding} {names : List String} (hne : names.Nodup)
    {fs : List Facing}
    (hfaced : ∀ name ∈ names, ∀ v, b.get? name = some v → ∃ f ∈ fs, f.name = name ∧ f.value = v) :
    (names.map (boundWeight w source b)).sum ≤ facedWeight w source fs := by
  induction names generalizing fs with
  | nil => exact Nat.zero_le _
  | cons name names ih =>
      obtain ⟨hnew, hne⟩ := List.nodup_cons.mp hne
      rw [List.map_cons, List.sum_cons]
      cases hv : b.get? name with
      | none =>
          have hnone : boundWeight w source b name = 0 := by
            unfold boundWeight
            rw [hv]
          rw [hnone, Nat.zero_add]
          exact ih hne fun n hn => hfaced n (List.mem_cons_of_mem name hn)
      | some v =>
          -- the value of this name is taken out of those that are faced
          obtain ⟨f, hf, hname, hvalue⟩ := hfaced name (List.mem_cons_self ..) v hv
          obtain ⟨front, rest, rfl⟩ := List.append_of_mem hf
          have hothers : (names.map (boundWeight w source b)).sum ≤
              facedWeight w source (front ++ rest) := by
            refine ih hne ?_
            intro n hn v' hv'
            obtain ⟨f', hf', hname', hvalue'⟩ := hfaced n (List.mem_cons_of_mem name hn) v' hv'
            refine ⟨f', ?_, hname', hvalue'⟩
            rcases List.mem_append.mp hf' with hfront | hrest
            · exact List.mem_append_left rest hfront
            · rcases List.mem_cons.mp hrest with rfl | hrest
              · rw [hname.symm.trans hname'] at hnew
                exact absurd hn hnew
              · exact List.mem_append_right front hrest
          have hthis : boundWeight w source b name = spanWeight w source f.value.span := by
            unfold boundWeight
            rw [hv, hvalue]
          have hsplit : facedWeight w source (front ++ f :: rest) =
              spanWeight w source f.value.span + facedWeight w source (front ++ rest) := by
            have hcons : facedWeight w source (f :: rest) =
                spanWeight w source f.value.span + facedWeight w source rest := rfl
            rw [facedWeight_append, facedWeight_append, hcons]
            omega
          omega

end Pass

/-! ## Rules -/

/-- What filling in a template puts in besides the values, at most. -/
def Template.addedWeight (w : Char → Nat) (a : Template) : Nat :=
  let slots := Pass.slotsOfAll a none a.roots
  let span := Syntax.spanOf a.roots
  Pass.frameWeight w a.tree.source span.stop span.start slots +
    (slots.length + 1) * Pass.pairWeight w

/-- The least number by which the tokens of each before-template must outweigh what a replacement puts in. -/
def Rule.margin (w : Char → Nat) (r : Rule) : Nat := Imports.declarationsWeight w r.imports + 1

/-- **A rule that makes texts lighter**: it puts in no value twice, and the tokens of each before-template outweigh
    what else it puts in. -/
def Rule.Shrinks (w : Char → Nat) (r : Rule) : Prop :=
  ((Pass.slotsOfAll r.templates.after none r.templates.after.roots).map (·.name)).Nodup ∧
    ∀ before ∈ r.templates.befores,
      r.templates.after.addedWeight w + r.margin w ≤ before.ownWeight w

instance (w : Char → Nat) (r : Rule) : Decidable (r.Shrinks w) :=
  inferInstanceAs (Decidable (_ ∧ _))

namespace Pass

open JavaRefactor.Types (Oracle)

variable {t : Tree} {ls : List Lexeme} {nodes : List Node} {r : Rule} {types : Oracle}

/-- The text of an after-template whose slots have different names. -/
theorem weight_instantiate (h : Spelled t ls nodes) {a : Template} {b : Binding} {out : String}
    {fs : List Facing}
    (hne : ((slotsOfAll a none a.roots).map (·.name)).Nodup)
    (hfaced : ∀ name v, b.get? name = some v → ∃ f ∈ fs, f.name = name ∧ f.value = v)
    (hnodes : ∀ f ∈ fs, ∀ k ∈ f.value.nodes, k ∈ t.root.listing)
    (hout : instantiate a b t.source = .ok out) :
    weight w out.toList + pairWeight w ≤ a.addedWeight w + facedWeight w t.source fs := by
  have hb : ∀ name v, b.get? name = some v → ∀ k ∈ v.nodes, k ∈ t.root.listing := by
    intro name v hv k hk
    obtain ⟨f, hf, -, rfl⟩ := hfaced name v hv
    exact hnodes f hf k hk
  have hvalues : ((slotsOfAll a none a.roots).map fun s => boundWeight w t.source b s.name).sum ≤
      facedWeight w t.source fs := by
    have hnames : (((slotsOfAll a none a.roots).map (·.name)).map (boundWeight w t.source b)).sum ≤
        facedWeight w t.source fs := sum_boundWeight_le hne (fun name _ => hfaced name)
    rw [List.map_map] at hnames
    exact hnames
  unfold instantiate at hout
  cases hroots : a.roots with
  | nil =>
      rw [hroots] at hout
      exact absurd hout (by simp)
  | cons root roots =>
      rw [hroots] at hout hvalues
      have hfilled := weight_fillSlots (w := w) h hb hout
      unfold Template.addedWeight
      simp only [hroots, Nat.succ_mul]
      omega

/-- **A replacement** is lighter than what it replaces, by the margin of the rule at least. -/
theorem weight_replacement (h : Spelled t ls nodes) (hr : r.Shrinks w) {o : Occurrence} {e : Edit}
    (ho : o ∈ occurrences r t types) (he : replacement r t o = .ok e) :
    weight w e.text + r.margin w ≤ spanWeight w t.source o.span := by
  obtain ⟨hne, hshrinks⟩ := hr
  obtain ⟨hbefore, hsite⟩ := site_of_mem_occurrences ho
  obtain ⟨fs, hfaced, hnodes, hsite⟩ := exists_facings_of_site (w := w) h hsite
  unfold replacement at he
  obtain ⟨text, htext, rfl⟩ := Attempts.map_eq_ok.mp he
  have hfilled := weight_instantiate (w := w) h hne hfaced hnodes htext
  have hown := hshrinks o.before hbefore
  have hwrapped : weight w (if needsWrapping r t o then parenthesized text else text).toList ≤
      weight w text.toList + pairWeight w := by
    split
    · exact Nat.le_of_eq (weight_parenthesized text)
    · exact Nat.le_add_right _ _
  have hspan : spanWeight w t.source o.site.span = spanWeight w t.source o.span := rfl
  have htemplate : (Matcher.mk o.before (.ofOracle types)).template = o.before := rfl
  rw [htemplate] at hsite
  simp only
  omega

/-- **The text with all occurrences replaced** is lighter, by the margin for each of them. -/
theorem weight_substitute (h : Spelled t ls nodes) (hr : r.Shrinks w) {s : String}
    (hs : substitute r t (occurrences r t types) = .ok s) :
    weight w s.toList + r.margin w * (occurrences r t types).length ≤ weight w t.source.toList := by
  obtain ⟨edits, he, hout⟩ := substitute_eq_ok h hs
  have hpairs := Attempts.mapM_eq_ok.mp he
  have hlength : (occurrences r t types).length = edits.length := hpairs.length_eq
  rw [hlength]
  have hwhole : Text.applyAtOnce (Text.byteLength []) edits t.source.toList = some s.toList := hout
  refine Text.weight_applyAtOnce hwhole ?_
  intro e hmem
  obtain ⟨o, ho, he⟩ := Attempts.exists_of_forall₂ hpairs hmem
  obtain ⟨middle, hcuts, -⟩ := cuts_of_mem_occurrences h ho
  have hlight := weight_replacement h hr ho he
  rw [Text.spanWeight_of_cuts hcuts] at hlight
  rw [← span_of_replacement he] at hcuts
  exact ⟨middle, hcuts, hlight⟩

/-! ## Passes -/

/-- A pass over a tree makes its text lighter, or leaves it as it is. -/
theorem weight_outcomeOf (h : Spelled t ls nodes) (hr : r.Shrinks w) {fixImports : Bool} {out : Outcome}
    (ho : outcomeOf fixImports r t = .ok out) :
    out.output = t.source ∨ weight w out.output.toList < weight w t.source.toList := by
  unfold outcomeOf at ho
  simp only at ho
  split at ho
  · obtain rfl := Except.ok.inj ho
    exact Or.inl rfl
  · rename_i hos
    obtain ⟨after, hafter, rfl⟩ := Attempts.map_eq_ok.mp ho
    obtain ⟨s, hs, hprint⟩ := print_of_rewritten hafter
    have hlight := weight_substitute h hr hs
    have hpos : 0 < (occurrences r t (.ofTree t)).length := by
      rw [List.length_pos_iff]
      intro hnil
      exact hos (by rw [hnil]; rfl)
    have hmargin : r.margin w ≤ r.margin w * (occurrences r t (.ofTree t)).length :=
      Nat.le_mul_of_pos_right _ hpos
    have hdef : r.margin w = Imports.declarationsWeight w r.imports + 1 := rfl
    refine Or.inr ?_
    show weight w after.print.toList < weight w t.source.toList
    rcases hprint with hprint | ⟨-, middle, hmiddle, hfix⟩
    · rw [hprint]
      omega
    · have hadded := Imports.weight_of_fix? (w := w) hfix
      rw [hmiddle] at hadded
      omega

/-- **A pass of a rule that shrinks texts** makes a text lighter, or leaves it as it is. -/
theorem weight_apply (hr : r.Shrinks w) {fixImports : Bool} {source : String} {out : Outcome}
    (h : apply fixImports r source = .ok out) :
    out.output = source ∨ weight w out.output.toList < weight w source.toList := by
  rw [apply_eq] at h
  obtain ⟨t, ht, ho⟩ := Attempts.bind_eq_ok.mp h
  obtain ⟨rfl, ls, nodes, hspelled⟩ := spelled_of_readJava ht
  exact weight_outcomeOf hspelled hr ho

end Pass

end JavaRefactor

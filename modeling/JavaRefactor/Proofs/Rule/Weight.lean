import JavaRefactor.Proofs.Pass.Slots
import JavaRefactor.Proofs.Pass.Weight
import JavaRefactor.Proofs.Rule.Build
import JavaRefactor.Proofs.Text.Occurrences

/-!
# `Proofs.Rule.Weight` — the texts of a rule tell whether it makes texts lighter

What the templates of a rule weigh can be read off their texts, without reading them as Java, if what they are laid out
with weighs nothing. The tokens of a before-template weigh as much as its text, and what filling in an after-template
puts in weighs no more than its text. If the placeholder of a metavariable stands there once, its value is put in once.

## Contents
- **Slots.** `Pass.frameWeight_add` and `Pass.count_le_occurrences`.
- **Placeholders.** `Metavariable.standOnce`, computed from a text.
- **After-templates.** `Template.addedWeight_le` and `Template.nodup_slots`.
- **`RuleDraft.takesOff`**, which is computed from the texts, and **`RuleDraft.shrinks_of_takesOff`**.
-/

namespace JavaRefactor

open Syntax (Node spanOf)
open Text (InOrder weight spanWeight)

variable {w : Char → Nat}

/-! ## Slots -/

namespace Pass

/-- **A frame and its slots** weigh what they are taken out of. -/
theorem frameWeight_add {text : String} {stop place : Nat} {slots : List Slot} {whole : List Char}
    (horder : InOrder place (slots.map (·.node.span)) stop)
    (hslots : ∀ s ∈ slots, ∃ middle, s.node.span.Cuts text.toList middle)
    (hwhole : (⟨place, stop⟩ : Text.Span).Cuts text.toList whole) :
    frameWeight w text stop place slots + (slots.map fun s => spanWeight w text s.node.span).sum =
      weight w whole := by
  induction slots generalizing place whole with
  | nil => exact Text.spanWeight_of_cuts hwhole
  | cons s slots ih =>
      rw [List.map_cons] at horder
      obtain ⟨hstart, -, hrest⟩ := horder
      obtain ⟨middle, hmiddle⟩ := hslots s (List.mem_cons_self ..)
      obtain ⟨before, behind, hbefore, hbehind, rfl⟩ := hwhole.split_inside hmiddle hstart hrest.le
      have htail := ih hrest (fun s' hs' => hslots s' (List.mem_cons_of_mem s hs')) hbehind
      rw [frameWeight, List.map_cons, List.sum_cons, Text.spanWeight_of_cuts hbefore,
        Text.spanWeight_of_cuts hmiddle, Text.weight_append, Text.weight_append, ← htail]
      omega

/-- **The slots of a name** are no more than the occurrences of a piece that each of them has. -/
theorem count_le_occurrences {text name : String} {stop place : Nat} {slots : List Slot}
    {whole piece : List Char} (hne : piece ≠ []) (horder : InOrder place (slots.map (·.node.span)) stop)
    (hslots : ∀ s ∈ slots, ∃ middle, s.node.span.Cuts text.toList middle ∧
      (s.name = name → piece <:+: middle))
    (hwhole : (⟨place, stop⟩ : Text.Span).Cuts text.toList whole) :
    (slots.map (·.name)).count name ≤ Text.occurrences piece whole := by
  induction slots generalizing place whole with
  | nil => exact Nat.zero_le _
  | cons s slots ih =>
      rw [List.map_cons] at horder
      obtain ⟨hstart, -, hrest⟩ := horder
      obtain ⟨middle, hmiddle, hpiece⟩ := hslots s (List.mem_cons_self ..)
      obtain ⟨before, behind, -, hbehind, rfl⟩ := hwhole.split_inside hmiddle hstart hrest.le
      have htail := ih hrest (fun s' hs' => hslots s' (List.mem_cons_of_mem s hs')) hbehind
      have hfront := Text.occurrences_append_le piece before middle
      have hsplit := Text.occurrences_append_le piece (before ++ middle) behind
      rw [List.map_cons, List.count_cons]
      by_cases hname : s.name = name
      · have hpos := Text.occurrences_pos hne (hpiece hname)
        rw [if_pos (beq_iff_eq.mpr hname)]
        omega
      · rw [if_neg (by simpa using hname)]
        omega

end Pass

/-! ## Placeholders -/

/-- The placeholder of each metavariable that is found in a text stands once in what the text is normalised to. -/
def Metavariable.standOnce (cs : List Char) : Bool :=
  match normaliseFrom .code 0 cs with
  | .ok (ms, text) => ms.all fun v => Nat.ble (Text.occurrences (placeholder v.name).toList text) 1
  | .error _ => false

theorem Metavariable.occurrences_le_of_standOnce {source text : String} {ms : List Metavariable}
    (h : standOnce source.toList = true) (hnormal : normalise source = .ok (ms, text)) :
    ∀ v ∈ ms, Text.occurrences (placeholder v.name).toList text.toList ≤ 1 := by
  unfold normalise at hnormal
  obtain ⟨⟨ms', out⟩, hr, he⟩ := Attempts.map_eq_ok.mp hnormal
  obtain ⟨rfl, rfl⟩ := Prod.mk.inj he
  unfold standOnce at h
  rw [hr] at h
  intro v hv
  rw [String.toList_ofList]
  exact Nat.le_of_ble_eq_true (List.all_eq_true.mp h v hv)

/-! ## After-templates -/

namespace Template

variable {t : Template} {text : String} {ls part : List Java.Lexeme} {nodes : List Node}

/-- **What filling in a template puts in** weighs no more than its text. -/
theorem addedWeight_le (hw : Metavariable.SparesNames w) (hpair : Pass.pairWeight w = 0) {source : String}
    {ds : List Declaration} (h : compile source ds = .ok t) :
    t.addedWeight w ≤ weight w t.source.toList := by
  obtain ⟨text, ls, part, nodes, hstands⟩ := exists_stands h
  obtain ⟨-, hweight⟩ := Metavariable.normalise_spec hw hstands.normal
  have hframe := Pass.frameWeight_add (w := w) hstands.inOrder_slots
    (fun s hs => (hstands.cuts_of_mem_slots hs).imp fun _ h => h.1) hstands.cuts
  have hadded : t.addedWeight w = Pass.frameWeight w t.tree.source (spanOf t.roots).stop
      (spanOf t.roots).start t.slots := by
    unfold addedWeight
    simp only [hpair, Nat.mul_zero, Nat.add_zero]
    rfl
  omega

/-- **A template in whose text each placeholder stands once** has one slot for each metavariable. -/
theorem nodup_slots {source : String} {ds : List Declaration} (h : compile source ds = .ok t)
    (honce : Metavariable.standOnce t.source.toList = true) : (t.slots.map (·.name)).Nodup := by
  obtain ⟨text, ls, part, nodes, hstands⟩ := exists_stands h
  have hle := Metavariable.occurrences_le_of_standOnce honce hstands.normal
  rw [List.nodup_iff_count]
  intro name
  by_cases hmem : name ∈ t.slots.map (·.name)
  · -- a name with a slot is one of those that are found in the text
    have hname : name ∈ t.placeholderNames := map_name_slots t ▸ hmem
    obtain ⟨v, hv, rfl⟩ := List.mem_map.mp hname
    have hrecorded := List.mem_of_find?_eq_some (placeholdersOfAll_recorded t.roots hv)
    refine Nat.le_trans (Pass.count_le_occurrences ?_ hstands.inOrder_slots ?_ hstands.cuts)
      (hle v hrecorded)
    · unfold Metavariable.placeholder
      rw [String.toList_append, String.toList_append]
      simp [Metavariable.placeholderFront]
    · intro s hs
      obtain ⟨middle, hmiddle, hpiece⟩ := hstands.cuts_of_mem_slots hs
      exact ⟨middle, hmiddle, fun hname => hname ▸ hpiece⟩
  · rw [List.count_eq_zero_of_not_mem hmem]
    exact Nat.zero_le 1

end Template

/-! ## Rules -/

/-- **The texts of a rule with the given imports show that it makes texts lighter**: no placeholder stands twice in its
    after-template, and each of its before-templates, in which there is no comment, outweighs the after-template and
    the imports. -/
def RuleDraft.takesOff (w : Char → Nat) (imports : List ImportSpec) (d : RuleDraft) : Bool :=
  let trimmed (s : String) : List Char := Text.trimEnd (Text.trimStart s.toList)
  match d.after with
  | some after =>
    Metavariable.standOnce (trimmed after) &&
      d.befores.all fun before =>
        !(trimmed before).contains '/' &&
          Nat.blt (weight w (trimmed after) + Imports.declarationsWeight w imports)
            (weight w (trimmed before))
  | none => false

theorem RuleDraft.takesOff_iff {d : RuleDraft} {after : String} {imports : List ImportSpec}
    (hafter : d.after = some after) :
    d.takesOff w imports = true ↔ Metavariable.standOnce (Text.trim after).toList = true ∧
      ∀ before ∈ d.befores, '/' ∉ (Text.trim before).toList ∧
        weight w (Text.trim after).toList + Imports.declarationsWeight w imports <
          weight w (Text.trim before).toList := by
  simp only [takesOff, hafter, Text.trim, String.toList_ofList]
  simp

/-- **A rule whose texts show that it makes texts lighter** does so. -/
theorem RuleDraft.shrinks_of_takesOff (hw : SparesLayout w) (hpair : Pass.pairWeight w = 0)
    {d : RuleDraft} {r : Rule} {imports : List ImportSpec}
    (himports : d.imports.mapM ImportSpec.parse = .ok imports) (hd : d.takesOff w imports = true)
    (h : d.build = .ok r) : r.Shrinks w := by
  obtain ⟨after, hafter, hset, -, hparsed⟩ := build_inv h
  obtain ⟨-, hbefores, hcompiled, -⟩ := TemplateSet.compile_inv hset
  obtain rfl := Except.ok.inj (himports.symm.trans hparsed)
  obtain ⟨honce, hheavier⟩ := (takesOff_iff hafter).mp hd
  have hsource := (Template.compile_inv hcompiled).1
  rw [← hsource] at honce hheavier
  refine ⟨Template.nodup_slots hcompiled honce, ?_⟩
  intro t ht
  obtain ⟨before, hbefore, ht⟩ := Attempts.mem_of_mapM_ok hbefores ht
  obtain ⟨hslash, hlighter⟩ := hheavier before hbefore
  rw [← (Template.compile_inv ht).1] at hslash hlighter
  have hadded := Template.addedWeight_le hw.toSparesNames hpair hcompiled
  have hown := Template.weight_le_ownWeight hw ht hslash
  unfold Rule.margin
  omega

end JavaRefactor

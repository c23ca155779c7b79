import JavaRefactor.Proofs.Match.Binding
import JavaRefactor.Proofs.Syntax.Listing
import JavaRefactor.Proofs.Template.Placeholders

/-!
# `Proofs.Match.Overlay` — a template laid over a candidate

What it means that a template fits a candidate, said without the search for it. A template node is laid
over one candidate node, template siblings are laid over all of a list of candidate siblings: nodes that
stand for no metavariable lie over nodes of their kind and text, a placeholder for one node lies over any
one node, and a placeholder for a run over any number of neighbours. The overlay lists what each
placeholder faces. Which values may be faced, and that one name faces equal values, is said of that list
and not of the overlay.

## Contents
- **`Overlay`** and **`OverlayAll`**.
- **`Overlay.placeholders`**: the list has the placeholders of the template, in their order.
- **`Overlay.shape_eq`**: a placeholder faces a value of its shape.
- **`Overlay.mem_listing`**: what a placeholder faces is below the candidate.
-/

namespace JavaRefactor

open Syntax (Node Label)

mutual

/-- `Overlay t p n fs`: the template node `p` lies over the node `n`, and its placeholders face `fs`. -/
inductive Overlay (t : Template) : Node → Node → List Facing → Prop where
  /-- A placeholder for one node. -/
  | single {p n : Node} {v : Metavariable} (hv : t.metavariableAt? p = some v)
      (hs : v.shape = .single) : Overlay t p n [⟨v, .node n⟩]
  /-- A placeholder for a run, over a run of one node. -/
  | alone {p n : Node} {v : Metavariable} {anchor : Nat} (hv : t.metavariableAt? p = some v)
      (hs : v.shape = .run) : Overlay t p n [⟨v, .run [n] anchor⟩]
  /-- A token, over the same token. -/
  | leaf {l l' : Label} {tr tr' x : String} (hv : t.metavariableAt? (.leaf l tr x) = none)
      (hk : l'.kind = l.kind) : Overlay t (.leaf l tr x) (.leaf l' tr' x) []
  /-- A construct, over one of its kind whose children the template's children lie over. -/
  | branch {l l' : Label} {ps ns : List Node} {fs : List Facing}
      (hv : t.metavariableAt? (.branch l ps) = none) (hk : l'.kind = l.kind)
      (hc : OverlayAll t ps ns fs) : Overlay t (.branch l ps) (.branch l' ns) fs

/-- `OverlayAll t ps ns fs`: the template siblings `ps` lie over all of the siblings `ns`. -/
inductive OverlayAll (t : Template) : List Node → List Node → List Facing → Prop where
  | nil : OverlayAll t [] [] []
  /-- A placeholder for a run takes the next siblings, as many as it likes. -/
  | run {p : Node} {ps xs ns : List Node} {v : Metavariable} {anchor : Nat} {fs : List Facing}
      (hv : t.metavariableAt? p = some v) (hs : v.shape = .run) (hr : OverlayAll t ps ns fs) :
      OverlayAll t (p :: ps) (xs ++ ns) (⟨v, .run xs anchor⟩ :: fs)
  /-- Any other template node takes one sibling. -/
  | node {p n : Node} {ps ns : List Node} {fs gs : List Facing}
      (hp : ∀ v, t.metavariableAt? p = some v → v.shape = .single) (hn : Overlay t p n fs)
      (hr : OverlayAll t ps ns gs) : OverlayAll t (p :: ps) (n :: ns) (fs ++ gs)

end

variable {t : Template}

mutual

/-- What an overlay lists are the placeholders of the template node. -/
theorem Overlay.placeholders {p n : Node} {fs : List Facing} :
    Overlay t p n fs → fs.map (·.placeholder) = t.placeholdersOf p
  | .single hv _ => by rw [Template.placeholdersOf_of_some hv]; rfl
  | .alone hv _ => by rw [Template.placeholdersOf_of_some hv]; rfl
  | .leaf hv _ => by rw [Template.placeholdersOf_leaf hv]; rfl
  | .branch hv _ hc => by rw [Template.placeholdersOf_branch hv]; exact hc.placeholders

/-- What an overlay of siblings lists are the placeholders of the template siblings. -/
theorem OverlayAll.placeholders {ps ns : List Node} {fs : List Facing} :
    OverlayAll t ps ns fs → fs.map (·.placeholder) = t.placeholdersOfAll ps
  | .nil => rfl
  | .run hv _ hr => by
      rw [Template.placeholdersOfAll_cons, Template.placeholdersOf_of_some hv, List.map_cons,
        hr.placeholders]
      rfl
  | .node _ hn hr => by
      rw [Template.placeholdersOfAll_cons, List.map_append, hn.placeholders, hr.placeholders]

end

/-! ## Shapes -/

/-- Whether a value is a node or a run. -/
def Bound.shape : Bound → Shape
  | .node _ => .single
  | .run .. => .run

mutual

/-- A placeholder faces a value of its shape. -/
theorem Overlay.shape_eq {p n : Node} {fs : List Facing} :
    Overlay t p n fs → ∀ f ∈ fs, f.value.shape = f.placeholder.shape
  | .single _ hs, f, hf => by rw [List.mem_singleton.mp hf]; exact hs.symm
  | .alone _ hs, f, hf => by rw [List.mem_singleton.mp hf]; exact hs.symm
  | .leaf _ _, f, hf => absurd hf (by simp)
  | .branch _ _ hc, f, hf => hc.shape_eq f hf

theorem OverlayAll.shape_eq {ps ns : List Node} {fs : List Facing} :
    OverlayAll t ps ns fs → ∀ f ∈ fs, f.value.shape = f.placeholder.shape
  | .nil, f, hf => absurd hf (by simp)
  | .run _ hs hr, f, hf => by
      rcases List.mem_cons.mp hf with rfl | hf
      · exact hs.symm
      · exact hr.shape_eq f hf
  | .node _ hn hr, f, hf => by
      rcases List.mem_append.mp hf with hf | hf
      · exact hn.shape_eq f hf
      · exact hr.shape_eq f hf

end

/-! ## Places -/

mutual

/-- What a placeholder faces is below the candidate, or is it. -/
theorem Overlay.mem_listing {p n : Node} {fs : List Facing} :
    Overlay t p n fs → ∀ f ∈ fs, ∀ k ∈ f.value.nodes, k ∈ n.listing
  | .single _ _, f, hf, k, hk => by
      rw [List.mem_singleton.mp hf] at hk
      rw [List.mem_singleton.mp hk]
      exact Node.mem_listing_self n
  | .alone _ _, f, hf, k, hk => by
      rw [List.mem_singleton.mp hf] at hk
      rw [List.mem_singleton.mp hk]
      exact Node.mem_listing_self n
  | .leaf _ _, f, hf, k, hk => absurd hf (by simp)
  | .branch _ _ hc, f, hf, k, hk => List.mem_cons_of_mem _ (hc.mem_listingAll f hf k hk)

theorem OverlayAll.mem_listingAll {ps ns : List Node} {fs : List Facing} :
    OverlayAll t ps ns fs → ∀ f ∈ fs, ∀ k ∈ f.value.nodes, k ∈ Node.listingAll ns
  | .nil, f, hf, k, hk => absurd hf (by simp)
  | .run _ _ hr, f, hf, k, hk => by
      rw [Node.listingAll_append, List.mem_append]
      rcases List.mem_cons.mp hf with rfl | hf
      · exact Or.inl (Node.mem_listingAll hk (Node.mem_listing_self k))
      · exact Or.inr (hr.mem_listingAll f hf k hk)
  | .node _ hn hr, f, hf, k, hk => by
      rw [Node.listingAll, List.mem_append]
      rcases List.mem_append.mp hf with hf | hf
      · exact Or.inl (hn.mem_listing f hf k hk)
      · exact Or.inr (hr.mem_listingAll f hf k hk)

end

end JavaRefactor

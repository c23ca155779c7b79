import JavaRefactor.Proofs.Match.Sites
import JavaRefactor.Proofs.Match.Soundness
import JavaRefactor.Proofs.Template.Compile

/-!
# `Proofs.Match.Constraints` — which of the declared types a match asks for

A placeholder for one node binds nodes of admitted types only. A placeholder for a run binds any siblings: what is
declared for its name is not looked at. So a template finds the same sites if nothing is declared for its runs.

## Contents
- **`Template.withDeclarations`** and **`Template.withoutRunTypes`**, templates with other declarations.
- **The walk.** `matchNode_withDeclarations` and `matchList_withDeclarations`, by recursion on the template: it is the
  declarations for single nodes that count.
- **The search.** `sitesOfNode_congr` and `sitesInChildren_congr`: equal matches make equal sites.
- **`Returns.facing`**: what is asked of a value that is bound.
- **`match_withoutRunTypes`**, and `run_of_other_type`, a match in which a run takes what its declaration rules out.
-/

namespace JavaRefactor

open JavaRefactor.Types (Typing Constraint)
open Syntax (Node)

/-! ## Declarations -/

namespace Template

/-- The template with other declarations. -/
def withDeclarations (t : Template) (ds : List Declaration) : Template := { t with declarations := ds }

/-- With the other declarations, too, each placeholder for one node admits what it did. -/
def KeepsSingles (t : Template) (ds : List Declaration) : Prop :=
  ∀ v ∈ t.metavariables, v.shape = .single → (t.withDeclarations ds).constraint v.name = t.constraint v.name

/-- Whether the template has a run of this name. -/
def hasRun (t : Template) (name : String) : Bool :=
  t.metavariables.any fun v => v.name == name && v.shape == .run

/-- The template with nothing declared for its runs. -/
def withoutRunTypes (t : Template) : Template :=
  t.withDeclarations (t.declarations.filter fun d => !t.hasRun d.name)

theorem hasRun_iff {t : Template} {name : String} :
    t.hasRun name = true ↔ ∃ v ∈ t.metavariables, v.name = name ∧ v.shape = .run := by
  simp [hasRun]

/-- Nothing is left of what is declared for a run. -/
theorem constraint_of_hasRun {t : Template} {name : String} (h : t.hasRun name = true) :
    t.withoutRunTypes.constraint name = .any := by
  have hnone : t.withoutRunTypes.declarations.reverse.find? (·.name == name) = none := by
    rw [List.find?_eq_none]
    intro d hd hname
    have hkept := (List.mem_filter.mp (List.mem_reverse.mp hd)).2
    rw [beq_iff_eq.mp hname, h] at hkept
    exact absurd hkept (by simp)
  unfold constraint
  rw [hnone]

/-- All is left of what is declared for other names. -/
theorem constraint_of_not_hasRun {t : Template} {name : String} (h : t.hasRun name = false) :
    t.withoutRunTypes.constraint name = t.constraint name := by
  have hsame : t.withoutRunTypes.declarations.reverse.find? (·.name == name) =
      t.declarations.reverse.find? (·.name == name) := by
    show ((t.declarations.filter fun d => !t.hasRun d.name).reverse.find? _) = _
    rw [← List.filter_reverse, List.find?_filter]
    congr 1
    funext d
    by_cases hname : d.name = name
    · simp [hname, h]
    · simp [hname]
  unfold constraint
  rw [hsame]

/-- In a compiled template a name of single nodes is not one of a run, so that it keeps its types. -/
theorem keepsSingles_of_compile {source : String} {ds : List Declaration} {t : Template}
    (h : compile source ds = .ok t) :
    t.KeepsSingles (t.declarations.filter fun d => !t.hasRun d.name) := by
  intro v hv hs
  apply constraint_of_not_hasRun
  rw [Bool.eq_false_iff]
  intro hrun
  obtain ⟨w, hw, hname, hshape⟩ := hasRun_iff.mp hrun
  have hsame := shape_eq_of_name_eq h hw hv hname
  rw [hshape, hs] at hsame
  exact absurd hsame (by simp)

end Template

namespace Matcher

/-! ## The walk -/

theorem recorded_of_metavariableAt? {t : Template} {p : Node} {v : Metavariable}
    (h : t.metavariableAt? p = some v) : v ∈ t.metavariables :=
  List.mem_of_find?_eq_some (Template.metavariableAt?_recorded h)

section Walk

variable {t : Template} {ds : List Declaration} {typing : Typing}

theorem bindNode?_withDeclarations (h : t.KeepsSingles ds) {v : Metavariable} (hv : v ∈ t.metavariables)
    (n : Node) (b : Binding) :
    (Matcher.mk (t.withDeclarations ds) typing).bindNode? v n b = (Matcher.mk t typing).bindNode? v n b := by
  unfold bindNode?
  cases hs : v.shape with
  | single =>
      have hadmits : (Matcher.mk (t.withDeclarations ds) typing).admits v n = (Matcher.mk t typing).admits v n := by
        rw [admits_eq, admits_eq]
        show ((t.withDeclarations ds).constraint v.name).admits _ = (t.constraint v.name).admits _
        rw [h v hv hs]
      simp only [hadmits]
  | run => rfl

mutual

/-- **A node of the template** matches the same with other declarations, if those for single nodes stay. -/
theorem matchNode_withDeclarations (h : t.KeepsSingles ds) : ∀ (p n : Node) (b : Binding),
    (Matcher.mk (t.withDeclarations ds) typing).matchNode p n b = (Matcher.mk t typing).matchNode p n b
  | .leaf l tr x, n, b => by
      have hat : (t.withDeclarations ds).metavariableAt? (.leaf l tr x) = t.metavariableAt? (.leaf l tr x) := rfl
      rw [matchNode, matchNode]
      simp only [hat]
      cases hv : t.metavariableAt? (.leaf l tr x) with
      | some v => exact bindNode?_withDeclarations h (recorded_of_metavariableAt? hv) n b
      | none => rfl
  | .branch l ps, n, b => by
      have hat : (t.withDeclarations ds).metavariableAt? (.branch l ps) = t.metavariableAt? (.branch l ps) := rfl
      unfold matchNode
      simp only [hat]
      cases hv : t.metavariableAt? (.branch l ps) with
      | some v => exact bindNode?_withDeclarations h (recorded_of_metavariableAt? hv) n b
      | none =>
          cases n with
          | leaf l' tr x => rfl
          | branch l' ns => simp only [matchList_withDeclarations h ps _ ns b]

theorem matchList_withDeclarations (h : t.KeepsSingles ds) :
    ∀ (ps : List Node) (stop : Nat) (ns : List Node) (b : Binding),
    (Matcher.mk (t.withDeclarations ds) typing).matchList ps stop ns b = (Matcher.mk t typing).matchList ps stop ns b
  | [], stop, ns, b => by rw [matchList, matchList]
  | p :: ps, stop, ns, b => by
      have hat : (Matcher.mk (t.withDeclarations ds) typing).runAt? p = (Matcher.mk t typing).runAt? p := rfl
      unfold matchList
      simp only [hat]
      cases (Matcher.mk t typing).runAt? p with
      | some v =>
          -- whichever length is tried, what is behind it matches the same
          simp only [matchList_withDeclarations h ps stop]
      | none =>
          cases ns with
          | nil => rfl
          | cons n ns =>
              simp only [matchNode_withDeclarations h p n b]
              cases (Matcher.mk t typing).matchNode p n b with
              | none => rfl
              | some b' => exact matchList_withDeclarations h ps stop ns b'

end

theorem node?_withDeclarations (h : t.KeepsSingles ds) (n : Node) :
    (Matcher.mk (t.withDeclarations ds) typing).node? n = (Matcher.mk t typing).node? n := by
  have hroot : (t.withDeclarations ds).root? = t.root? := rfl
  unfold node?
  simp only [hroot]
  cases t.root? with
  | none => rfl
  | some root => exact matchNode_withDeclarations h root n .empty

theorem siblings?_withDeclarations (h : t.KeepsSingles ds) (ns : List Node) :
    (Matcher.mk (t.withDeclarations ds) typing).siblings? ns = (Matcher.mk t typing).siblings? ns :=
  matchList_withDeclarations h t.roots _ ns .empty

end Walk

/-! ## The search -/

section Search

variable {m m' : Matcher} {accept : Binding → Bool}

mutual

/-- Matchers that match the same nodes have the same sites. -/
theorem sitesOfNode_congr (h : ∀ n, m.node? n = m'.node? n) : ∀ n : Node,
    m.sitesOfNode accept n = m'.sitesOfNode accept n
  | .leaf l tr x => by
      rw [sitesOfNode, sitesOfNode]
      simp only [accepted?, h]
  | .branch l cs => by
      rw [sitesOfNode, sitesOfNode]
      simp only [accepted?, h, sitesOfNodes_congr h cs]

theorem sitesOfNodes_congr (h : ∀ n, m.node? n = m'.node? n) : ∀ ns : List Node,
    m.sitesOfNodes accept ns = m'.sitesOfNodes accept ns
  | [] => rfl
  | n :: ns => by rw [sitesOfNodes, sitesOfNodes, sitesOfNode_congr h n, sitesOfNodes_congr h ns]

end

theorem shortestRun?_congr (h : ∀ ns, m.siblings? ns = m'.siblings? ns) (ns : List Node) :
    m.shortestRun? accept ns = m'.shortestRun? accept ns := by
  cases ns with
  | nil => rfl
  | cons n ns => simp only [shortestRun?, window?, h]

mutual

/-- Matchers that match the same siblings have the same sites. -/
theorem sitesInChildren_congr (h : ∀ ns, m.siblings? ns = m'.siblings? ns) : ∀ n : Node,
    m.sitesInChildren accept n = m'.sitesInChildren accept n
  | .leaf l tr x => rfl
  | .branch l cs => by rw [sitesInChildren, sitesInChildren, sitesInList_congr h 0 cs]

theorem sitesInList_congr (h : ∀ ns, m.siblings? ns = m'.siblings? ns) : ∀ (skip : Nat) (ns : List Node),
    m.sitesInList accept skip ns = m'.sitesInList accept skip ns
  | _, [] => rfl
  | skip + 1, n :: ns => by rw [sitesInList, sitesInList, sitesInList_congr h skip ns]
  | 0, n :: ns => by
      rw [sitesInList, sitesInList, shortestRun?_congr h]
      cases m'.shortestRun? accept (n :: ns) with
      | some found => simp only [sitesInList_congr h (found.1 - 1) ns]
      | none => simp only [sitesInChildren_congr h n, sitesInList_congr h 0 ns]

end

theorem sitesWhere_congr (hnode : ∀ n, m.node? n = m'.node? n)
    (hsiblings : ∀ ns, m.siblings? ns = m'.siblings? ns) (hrun : m.template.isRun = m'.template.isRun)
    (root : Node) :
    m.sitesWhere accept root = m'.sitesWhere accept root := by
  unfold sitesWhere
  rw [hrun, sitesOfNode_congr hnode root, sitesInChildren_congr hsiblings root]

end Search

/-! ## What is asked of a value -/

theorem siblings?_of_run? {m : Matcher} {ns : List Node} {b : Binding} (h : m.run? ns = some b) :
    m.siblings? ns = some b := by
  unfold run? at h
  by_cases hrun : m.template.isRun = true
  · rwa [if_pos hrun] at h
  · rw [if_neg hrun] at h
    exact absurd h (by simp)

/-- A value in a returned binding is explained by a facing, whose placeholder is recorded for the template. -/
theorem Returns.facing {m : Matcher} {b : Binding} (h : m.Returns b) {name : String} {x : Bound}
    (hx : b.get? name = some x) : ∃ v ∈ m.template.metavariables, v.name = name ∧ x.shape = v.shape ∧
      ∀ n, x = .node n → n.isNamed = true ∧ (m.template.constraint name).admits (m.typing.typeOf n) = true := by
  have hfaced : ∃ roots fs, Explained m roots fs b ∧
      fs.map (·.placeholder) = m.template.placeholdersOfAll roots ∧
      ∀ f ∈ fs, f.value.shape = f.placeholder.shape := by
    rcases h with ⟨n, hn⟩ | ⟨ns, hns⟩
    · obtain ⟨root, fs, -, ho, he⟩ := overlay_of_node? hn
      exact ⟨[root], fs, he, by rw [ho.placeholders]; simp, ho.shape_eq⟩
    · obtain ⟨fs, ho, he⟩ := overlay_of_siblings? (siblings?_of_run? hns)
      exact ⟨m.template.roots, fs, he, ho.placeholders, ho.shape_eq⟩
  obtain ⟨roots, fs, he, hplaces, hshape⟩ := hfaced
  obtain ⟨f, hf, hname, rfl⟩ := he.faced name x hx
  have hplace : f.placeholder ∈ m.template.placeholdersOfAll roots := by
    rw [← hplaces]
    exact List.mem_map_of_mem hf
  refine ⟨f.placeholder, ?_, hname, hshape f hf, ?_⟩
  · exact List.mem_of_find?_eq_some (Template.placeholdersOfAll_recorded roots hplace)
  · intro n hn
    have hadmitted := he.admitted f hf n hn
    rw [hname] at hadmitted
    exact hadmitted

/-- **Types are asked of single nodes only.** A compiled template matches the same nodes and siblings and has
    the same sites if nothing is declared for its runs. What a match binds is a run, of whose nodes nothing is
    asked, or a construct of an admitted type. -/
theorem match_withoutRunTypes {source : String} {ds : List Declaration} {t : Template}
    (h : Template.compile source ds = .ok t) (typing : Typing) :
    (∀ n, (Matcher.mk t.withoutRunTypes typing).node? n = (Matcher.mk t typing).node? n) ∧
    (∀ ns, (Matcher.mk t.withoutRunTypes typing).run? ns = (Matcher.mk t typing).run? ns) ∧
    (∀ accept root, (Matcher.mk t.withoutRunTypes typing).sitesWhere accept root =
      (Matcher.mk t typing).sitesWhere accept root) ∧
    ∀ b, (Matcher.mk t typing).Returns b → ∀ name x, b.get? name = some x →
      (∃ ns anchor, x = .run ns anchor ∧ t.withoutRunTypes.constraint name = .any) ∨
      ∃ n, x = .node n ∧ n.isNamed = true ∧ (t.constraint name).admits (typing.typeOf n) = true := by
  have hkeep := Template.keepsSingles_of_compile h
  have hnode : ∀ n, (Matcher.mk t.withoutRunTypes typing).node? n = (Matcher.mk t typing).node? n :=
    node?_withDeclarations hkeep
  have hsiblings : ∀ ns, (Matcher.mk t.withoutRunTypes typing).siblings? ns = (Matcher.mk t typing).siblings? ns :=
    siblings?_withDeclarations hkeep
  refine ⟨hnode, ?_, ?_, ?_⟩
  · intro ns
    show (if t.isRun = true then _ else none) = if t.isRun = true then _ else none
    rw [hsiblings ns]
  · intro accept root
    exact sitesWhere_congr hnode hsiblings rfl root
  · intro b hb name x hx
    obtain ⟨v, hv, hname, hshape, hadmitted⟩ := hb.facing hx
    cases x with
    | node n => exact Or.inr ⟨n, rfl, hadmitted n rfl⟩
    | run ns anchor =>
        have hrun : t.hasRun name = true := Template.hasRun_iff.mpr ⟨v, hv, hname, hshape.symm⟩
        exact Or.inl ⟨ns, anchor, rfl, Template.constraint_of_hasRun hrun⟩

/-- A call with a typed argument in front of a typed run, of which only the argument's type is asked. -/
theorem match_withoutRunTypes_call : ∃ t b n ns anchor,
    Template.compile "f($X, $$$R)" [⟨"X", .primitive .int⟩, ⟨"R", .primitive .int⟩] = .ok t ∧
    (Matcher.mk t .empty).Returns b ∧ b.get? "X" = some (.node n) ∧
    (t.constraint "X").admits (Types.Typing.empty.typeOf n) = true ∧
    b.get? "R" = some (.run ns anchor) ∧ t.withoutRunTypes.constraint "R" = .any := by
  have h : ((Template.compile "f($X, $$$R)" [⟨"X", .primitive .int⟩, ⟨"R", .primitive .int⟩]).toOption.any
      fun t => (Java.parse? "f(1, s);").any fun tree => (tree.root.preorder[2]?).any fun k =>
        ((Matcher.mk t .empty).node? k).any fun b =>
          ((b.get? "X").any fun x => x.shape == .single) && (b.get? "R").any fun y => y.shape == .run) = true := by
    decide +kernel
  obtain ⟨t, ht, h⟩ := (Option.any_eq_true _ _).mp h
  obtain ⟨tree, -, h⟩ := (Option.any_eq_true _ _).mp h
  obtain ⟨k, -, h⟩ := (Option.any_eq_true _ _).mp h
  obtain ⟨b, hb, h⟩ := (Option.any_eq_true _ _).mp h
  obtain ⟨hfirst, hrest⟩ := (Bool.and_eq_true _ _).mp h
  obtain ⟨x, hx, hsingle⟩ := (Option.any_eq_true _ _).mp hfirst
  obtain ⟨y, hy, hrun⟩ := (Option.any_eq_true _ _).mp hrest
  have hcompile := Attempts.toOption_eq_some.mp ht
  have hreturns : (Matcher.mk t .empty).Returns b := Or.inl ⟨k, hb⟩
  have hvalues := (match_withoutRunTypes hcompile .empty).2.2.2 b hreturns
  rcases hvalues "X" x hx with ⟨_, _, rfl, -⟩ | ⟨n, rfl, -, hadmits⟩
  · exact absurd hsingle (by simp [Bound.shape])
  · rcases hvalues "R" y hy with ⟨ns, anchor, rfl, hany⟩ | ⟨_, rfl, -⟩
    · exact ⟨t, b, n, ns, anchor, hcompile, hreturns, hx, hadmits, hy, hany⟩
    · exact absurd hrun (by simp [Bound.shape])

/-- **A run of another type.** The run is declared to be of type `int` and takes a string. -/
theorem run_of_other_type : ∃ t tree s n anchor,
    Template.compile "f($$$ARGS)" [⟨"ARGS", .primitive .int⟩] = .ok t ∧
    Java.parse? "class T \x7b void t() \x7b f(\"s\"); \x7d \x7d" = some tree ∧
    s ∈ (Matcher.mk t (.ofTree tree)).sites tree.root ∧
    s.binding.get? "ARGS" = some (.run [n] anchor) ∧ n.isNamed = true ∧
    (Typing.ofTree tree).typeOf n = some .string ∧
    (t.constraint "ARGS").admits ((Typing.ofTree tree).typeOf n) = false := by
  have h : ((Template.compile "f($$$ARGS)" [⟨"ARGS", .primitive .int⟩]).toOption.any fun t =>
      (Java.parse? "class T \x7b void t() \x7b f(\"s\"); \x7d \x7d").any fun tree =>
        ((Matcher.mk t (.ofTree tree)).sites tree.root).any fun s => (s.binding.get? "ARGS").any fun x =>
          x.shape == .run && x.nodes.length == 1 && x.nodes.all fun n => n.isNamed &&
            (Typing.ofTree tree).typeOf n == some .string &&
            !(t.constraint "ARGS").admits ((Typing.ofTree tree).typeOf n)) = true := by
    decide +kernel
  obtain ⟨t, ht, h⟩ := (Option.any_eq_true _ _).mp h
  obtain ⟨tree, htree, h⟩ := (Option.any_eq_true _ _).mp h
  obtain ⟨s, hs, h⟩ := List.any_eq_true.mp h
  obtain ⟨x, hx, h⟩ := (Option.any_eq_true _ _).mp h
  obtain ⟨h, hnodes⟩ := (Bool.and_eq_true _ _).mp h
  obtain ⟨hshape, hone⟩ := (Bool.and_eq_true _ _).mp h
  cases x with
  | node n => exact absurd (beq_iff_eq.mp hshape) (by simp [Bound.shape])
  | run ns anchor =>
      obtain ⟨n, rfl⟩ := List.length_eq_one_iff.mp (beq_iff_eq.mp hone)
      have hn := List.all_eq_true.mp hnodes n (List.mem_singleton_self n)
      obtain ⟨h, hrefused⟩ := (Bool.and_eq_true _ _).mp hn
      obtain ⟨hnamed, htype⟩ := (Bool.and_eq_true _ _).mp h
      exact ⟨t, tree, s, n, anchor, Attempts.toOption_eq_some.mp ht, htree, hs, hx, hnamed,
        beq_iff_eq.mp htype, by simpa using hrefused⟩

end Matcher

end JavaRefactor

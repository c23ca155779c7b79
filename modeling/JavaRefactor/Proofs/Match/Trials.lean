import JavaRefactor.Proofs.Match.Soundness

/-!
# `Proofs.Match.Trials` — a search that writes into the binding it is handed

The matcher can be run as a search that is handed a binding and writes into it what it binds, in lists by the
numbers of the nodes it has come to. A call that matches a node may write something and fail after that. A
call that matches siblings makes a copy for everything it tries, and puts the copy in the place of what it was
handed only when all has matched.

Such a search comes to an end, as each call descends in the template or goes on behind a template node, and
it finds what the matcher finds. A call that fails on siblings leaves the binding as it was.

## Contents
- **`Trial`**, what a call leaves, and `Binding.write`.
- **The search.** `Siblings`, `Matcher.tryNode` and `Matcher.trySiblings`, whose first argument bounds the
  depth of the calls.
- **Loops.** `pairs_spec` and `firstEnd_spec`.
- **The calls.** `ends_of_fuel`: with the given depth a call ends, and it finds what the matcher finds.
- **`Matcher.trySiblings_traceless`**.
-/

namespace JavaRefactor

open Syntax (Node Label)

/-! ## Bindings that are written into -/

/-- What a call leaves: whether it has matched, and the binding it was handed as it is then. -/
structure Trial where
  matched : Bool
  binding : Binding

/-- The binding of a call that has matched. -/
def Trial.result? (t : Trial) : Option Binding := if t.matched then some t.binding else none

namespace Trial

@[simp] theorem result?_true (b : Binding) : (Trial.mk true b).result? = some b := rfl

@[simp] theorem isSome_result? (t : Trial) : t.result?.isSome = t.matched := by
  obtain ⟨matched, b⟩ := t
  cases matched <;> rfl

theorem result?_of_matched {t : Trial} (h : t.matched = true) : t.result? = some t.binding :=
  if_pos h

/-- What a call is known by: it has matched with the binding of its result, or it has failed. -/
theorem cases_result? (t : Trial) :
    (∃ b, t = ⟨true, b⟩ ∧ t.result? = some b) ∨ t.matched = false ∧ t.result? = none := by
  obtain ⟨matched, b⟩ := t
  cases matched with
  | true => exact Or.inl ⟨b, rfl, rfl⟩
  | false => exact Or.inr ⟨rfl, rfl⟩

/-- Calls with one result leave the same, where a call that fails leaves the binding as it was. -/
theorem eq_of_result? {t t' : Trial} {b : Binding} (h : t.result? = t'.result?)
    (ht : t.matched = false → t.binding = b) (ht' : t'.matched = false → t'.binding = b) : t = t' := by
  obtain ⟨matched, x⟩ := t
  obtain ⟨matched', x'⟩ := t'
  cases matched <;> cases matched' <;> simp_all [result?]

end Trial

namespace Binding

/-- Writes a name with its value, unless the name is bound to something else. -/
def write (b : Binding) (name : String) (value : Bound) : Trial :=
  if name == Metavariable.wildcard then ⟨true, b⟩
  else match b.get? name with
    | none => ⟨true, ⟨b.entries ++ [(name, value)]⟩⟩
    | some known => ⟨known.same value, b⟩

theorem result?_write (b : Binding) (name : String) (value : Bound) :
    (b.write name value).result? = b.insert? name value := by
  unfold write insert?
  split
  · rfl
  · cases b.get? name with
    | none => rfl
    | some known => rfl

/-- Whether every name that is bound in one binding has the same value in another. -/
def Extends (b b' : Binding) : Prop := ∀ name x, b.get? name = some x → b'.get? name = some x

end Binding

/-! ## The search -/

/-- Candidate siblings and the template siblings they are compared with; where there is no candidate, an empty
    run stands at the byte `anchor`. -/
structure Siblings where
  anchor : Nat
  targets : List Node
  pattern : List Node

/-- Where an empty run stands in front of the candidate with a number. -/
def Siblings.anchorAt (s : Siblings) (i : Nat) : Nat :=
  match s.targets[i]? with
  | some next => next.span.start
  | none =>
    match s.targets.getLast? with
    | some last => last.span.stop
    | none => s.anchor

namespace Matcher

/-- Writes a metavariable with the node it faces by itself. -/
def writeNode (m : Matcher) (v : Metavariable) (target : Node) (b : Binding) : Trial :=
  match v.shape with
  | .single =>
    if target.isNamed && m.admits v target then b.write v.name (.node target) else ⟨false, b⟩
  | .run => b.write v.name (.run [target] target.span.start)

/-- Compares nodes one by one, all with the same binding, until a call fails. -/
def pairs (call : Node → Node → Binding → Option Trial) :
    List Node → List Node → Binding → Option Trial
  | target :: targets, p :: ps, b =>
    (call target p b).bind fun t => if t.matched then pairs call targets ps t.binding else some t
  | _, _, b => some ⟨true, b⟩

/-- Makes calls for one number after the other, until one has matched; what the others leave is thrown away. -/
def firstEnd (call : Nat → Option Trial) (b : Binding) : List Nat → Option Trial
  | [] => some ⟨false, b⟩
  | stop :: stops =>
    (call stop).bind fun t => if t.matched then some t else firstEnd call b stops

mutual

/-- Matches a candidate with a node of the template, and writes into the binding it is handed. -/
def tryNode (m : Matcher) : Nat → Node → Node → Binding → Option Trial
  | 0, _, _, _ => none
  | fuel + 1, target, p, b =>
    match m.template.metavariableAt? p with
    | some v => some (m.writeNode v target b)
    | none =>
      if target.kind != p.kind then some ⟨false, b⟩
      else if p.isLeaf || target.isLeaf then some ⟨p.text? == target.text?, b⟩
      else if p.children.any fun c => (m.runAt? c).isSome then
        trySiblings m fuel ⟨target.span.start, target.children, p.children⟩ 0 0 b
      else if target.children.length == p.children.length then
        pairs (tryNode m fuel) target.children p.children b
      else some ⟨false, b⟩

/-- Matches the candidates from the `i`th on with the template siblings from the `j`th on. -/
def trySiblings (m : Matcher) : Nat → Siblings → Nat → Nat → Binding → Option Trial
  | 0, _, _, _, _ => none
  | fuel + 1, s, i, j, b =>
    match s.pattern[j]? with
    | none => some ⟨i == s.targets.length, b⟩
    | some p =>
      match m.runAt? p with
      | some v =>
        -- all lengths of the run, the shortest first, each with a copy
        firstEnd (fun stop =>
          let copy := b.write v.name (.run ((s.targets.take stop).drop i) (s.anchorAt i))
          if copy.matched then trySiblings m fuel s stop (j + 1) copy.binding else some copy)
          b (List.range' i (s.targets.length + 1 - i))
      | none =>
        match s.targets[i]? with
        | none => some ⟨false, b⟩
        | some target =>
          (tryNode m fuel target p b).bind fun copy =>
            if copy.matched then
              (trySiblings m fuel s (i + 1) (j + 1) copy.binding).map fun t =>
                if t.matched then t else ⟨false, b⟩
            else some ⟨false, b⟩

end

/-! ## Loops -/

variable {m : Matcher}

theorem result?_writeNode (v : Metavariable) (target : Node) (b : Binding) :
    (m.writeNode v target b).result? = m.bindNode? v target b := by
  unfold writeNode bindNode?
  cases v.shape with
  | run => exact Binding.result?_write b v.name _
  | single =>
      simp only
      split
      · exact Binding.result?_write b v.name _
      · rfl

/-- **Nodes compared one by one** match if the lists do, where no template node stands for a run. -/
theorem pairs_spec {call : Node → Node → Binding → Option Trial} (stop : Nat) :
    ∀ {ps targets : List Node} {b : Binding}, targets.length = ps.length →
    (∀ p ∈ ps, m.runAt? p = none) →
    (∀ p ∈ ps, ∀ target b, ∃ t, call target p b = some t ∧ t.result? = m.matchNode p target b) →
    ∃ t, pairs call targets ps b = some t ∧ t.result? = m.matchList ps stop targets b
  | [], [], b, _, _, _ => ⟨⟨true, b⟩, by simp [pairs], by simp [matchList]⟩
  | [], _ :: _, _, hlength, _, _ => absurd hlength (by simp)
  | _ :: _, [], _, hlength, _, _ => absurd hlength (by simp)
  | p :: ps, target :: targets, b, hlength, hruns, hcall => by
      obtain ⟨t, ht, hresult⟩ := hcall p (by simp) target b
      have hlist : m.matchList (p :: ps) stop (target :: targets) b
          = (m.matchNode p target b).bind (m.matchList ps stop targets) := by
        rw [matchList, hruns p (by simp)]
        cases m.matchNode p target b <;> rfl
      rw [pairs, ht, Option.bind_some, hlist, ← hresult]
      rcases t.cases_result? with ⟨b', rfl, -⟩ | ⟨hfail, hnone⟩
      · exact pairs_spec stop (by simpa using hlength) (fun q hq => hruns q (by simp [hq]))
          fun q hq => hcall q (by simp [hq])
      · exact ⟨t, by rw [hfail]; rfl, by rw [hnone]; rfl⟩

/-- Lists of different lengths do not match, where no template node stands for a run. -/
theorem matchList_of_length_ne (stop : Nat) : ∀ {ps targets : List Node} {b : Binding},
    targets.length ≠ ps.length → (∀ p ∈ ps, m.runAt? p = none) →
    m.matchList ps stop targets b = none
  | [], [], _, hlength, _ => absurd rfl hlength
  | [], _ :: _, _, _, _ => by simp [matchList]
  | p :: ps, [], _, _, hruns => by rw [matchList, hruns p (by simp)]
  | p :: ps, target :: targets, b, hlength, hruns => by
      rw [matchList, hruns p (by simp)]
      cases m.matchNode p target b with
      | none => rfl
      | some b' =>
          exact matchList_of_length_ne stop (by simpa using hlength) fun q hq => hruns q (by simp [hq])

/-- **Calls for one number after the other** find what the first of them finds that matches, and leave the
    binding as it is if none does. -/
theorem firstEnd_spec {call : Nat → Option Trial} {find : Nat → Option Binding} {b : Binding} :
    ∀ {stops : List Nat}, (∀ stop ∈ stops, ∃ t, call stop = some t ∧ t.result? = find stop) →
    ∃ t, firstEnd call b stops = some t ∧ (t.matched = false → t.binding = b) ∧
      t.result? = stops.findSome? find
  | [], _ => ⟨⟨false, b⟩, rfl, fun _ => rfl, rfl⟩
  | stop :: stops, hcall => by
      obtain ⟨t, ht, hresult⟩ := hcall stop (by simp)
      rw [firstEnd, ht, Option.bind_some, List.findSome?_cons, ← hresult]
      rcases t.cases_result? with ⟨b', rfl, -⟩ | ⟨hfail, hnone⟩
      · exact ⟨⟨true, b'⟩, rfl, fun h => absurd h (by simp), rfl⟩
      · obtain ⟨t', ht', hleft, hresult'⟩ :=
          firstEnd_spec fun k hk => hcall k (List.mem_cons_of_mem stop hk)
        exact ⟨t', by rw [hfail]; exact ht', hleft, by rw [hnone]; exact hresult'⟩

/-! ## The calls -/

theorem anchorAt_eq (s : Siblings) (i : Nat) :
    s.anchorAt i = anchorOf (stopOf s.anchor s.targets) (s.targets.drop i) := by
  unfold Siblings.anchorAt
  cases h : s.targets[i]? with
  | some next => rw [List.drop_eq_getElem?_toList_append, h]; rfl
  | none =>
      have hnil : s.targets.drop i = [] :=
        List.drop_eq_nil_of_le (List.getElem?_eq_none_iff.mp h)
      rw [hnil]
      rfl

/-- What is left of a list from a number on, where there is something with that number. -/
theorem drop_of_getElem? {ns : List Node} {j : Nat} {n : Node} (h : ns[j]? = some n) :
    ns.drop j = n :: ns.drop (j + 1) := by
  obtain ⟨hj, rfl⟩ := List.getElem?_eq_some_iff.mp h
  exact List.drop_eq_getElem_cons hj

/-- Searches along one list find the same if they do at each of its members. -/
theorem findSome?_congr {α β : Type} {f g : α → Option β} {xs : List α} (h : ∀ x ∈ xs, f x = g x) :
    xs.findSome? f = xs.findSome? g := by
  induction xs with
  | nil => rfl
  | cons x xs ih =>
      rw [List.findSome?_cons, List.findSome?_cons, h x (by simp),
        ih fun y hy => h y (List.mem_cons_of_mem x hy)]

/-- What the matcher finds for the candidates from the `i`th on and the template siblings from the `j`th on;
    behind the last candidate there is nothing to match. -/
def findFrom (m : Matcher) (s : Siblings) (i j : Nat) (b : Binding) : Option Binding :=
  if i ≤ s.targets.length then
    m.matchList (s.pattern.drop j) (stopOf s.anchor s.targets) (s.targets.drop i) b
  else none

/-- At the end of the template siblings all candidates have to be matched. -/
theorem findFrom_of_none {s : Siblings} {i j : Nat} (b : Binding) (hj : s.pattern[j]? = none) :
    m.findFrom s i j b = if i == s.targets.length then some b else none := by
  have hnil : s.pattern.drop j = [] := List.drop_eq_nil_of_le (List.getElem?_eq_none_iff.mp hj)
  unfold findFrom
  rw [hnil, matchList]
  by_cases hi : i = s.targets.length
  · simp [hi]
  · rcases Nat.lt_or_gt_of_ne hi with hlt | hgt
    · have hne : s.targets.drop i ≠ [] := by simpa using hlt
      simp [hi, hlt]
    · simp [hi, Nat.not_le_of_gt hgt]

/-- A template node for a run takes the candidates up to some number. -/
theorem findFrom_of_run {s : Siblings} {i j : Nat} {p : Node} {v : Metavariable} (b : Binding)
    (hj : s.pattern[j]? = some p) (hv : m.runAt? p = some v) :
    m.findFrom s i j b = (List.range' i (s.targets.length + 1 - i)).findSome? fun stop =>
      (b.insert? v.name (.run ((s.targets.take stop).drop i) (s.anchorAt i))).bind
        (m.findFrom s stop (j + 1)) := by
  by_cases hi : i ≤ s.targets.length
  · have hcount : s.targets.length + 1 - i = (s.targets.drop i).length + 1 := by
      rw [List.length_drop]
      omega
    rw [findFrom, if_pos hi, drop_of_getElem? hj, hcount, List.range'_eq_map_range,
      List.findSome?_map]
    unfold matchList
    rw [hv]
    refine findSome?_congr fun n hn => ?_
    have hstop : i + n ≤ s.targets.length := by
      rw [List.mem_range, List.length_drop] at hn
      omega
    show _ = (b.insert? v.name (.run ((s.targets.take (i + n)).drop i) (s.anchorAt i))).bind _
    rw [List.drop_take, Nat.add_sub_cancel_left, anchorAt_eq, List.drop_drop]
    cases b.insert? v.name _ with
    | none => rfl
    | some b' =>
        show _ = m.findFrom s (i + n) (j + 1) b'
        rw [findFrom, if_pos hstop]
  · have hcount : s.targets.length + 1 - i = 0 := by omega
    rw [findFrom, if_neg hi, hcount]
    rfl

/-- Any other template node takes one candidate. -/
theorem findFrom_of_node {s : Siblings} {i j : Nat} {p : Node} (b : Binding)
    (hj : s.pattern[j]? = some p) (hp : m.runAt? p = none) :
    m.findFrom s i j b = s.targets[i]?.bind fun target =>
      (m.matchNode p target b).bind (m.findFrom s (i + 1) (j + 1)) := by
  unfold findFrom
  rw [drop_of_getElem? hj]
  cases hi : s.targets[i]? with
  | none =>
      have hnil : s.targets.drop i = [] := List.drop_eq_nil_of_le (List.getElem?_eq_none_iff.mp hi)
      rw [hnil, matchList, hp]
      exact ite_self none
  | some target =>
      obtain ⟨hlt, -⟩ := List.getElem?_eq_some_iff.mp hi
      rw [if_pos (Nat.le_of_lt hlt), drop_of_getElem? hi, matchList, hp, Option.bind_some]
      cases m.matchNode p target b with
      | none => rfl
      | some b' => exact (if_pos hlt).symm

/-- With calls of a depth, a call for a node of the template ends that is small enough for it, and finds what the
    matcher finds. -/
def EndsOnNodes (m : Matcher) (fuel : Nat) : Prop :=
  ∀ p target b, 2 * p.size ≤ fuel →
    ∃ t, m.tryNode fuel target p b = some t ∧ t.result? = m.matchNode p target b

/-- The same for siblings; where the call has failed, the binding is as it was. -/
def EndsOnSiblings (m : Matcher) (fuel : Nat) : Prop :=
  ∀ (s : Siblings) i j b, 2 * Node.sizeAll (s.pattern.drop j) < fuel →
    ∃ t, m.trySiblings fuel s i j b = some t ∧ (t.matched = false → t.binding = b) ∧
      t.result? = m.findFrom s i j b

theorem size_le_sizeAll {p : Node} {ps : List Node} (h : p ∈ ps) : p.size ≤ Node.sizeAll ps := by
  induction ps with
  | nil => exact absurd h (by simp)
  | cons q ps ih =>
      rw [Node.sizeAll]
      rcases List.mem_cons.mp h with rfl | h
      · exact Nat.le_add_right _ _
      · exact Nat.le_trans (ih h) (Nat.le_add_left _ _)

theorem matchNode_of_some {p : Node} {v : Metavariable} (target : Node) (b : Binding)
    (hv : m.template.metavariableAt? p = some v) : m.matchNode p target b = m.bindNode? v target b := by
  cases p <;> unfold matchNode <;> rw [hv]

section

variable {fuel : Nat} {s : Siblings} {i j : Nat} {p : Node} {v : Metavariable} (b : Binding)

theorem tryNode_of_some (target : Node) (hv : m.template.metavariableAt? p = some v) :
    m.tryNode (fuel + 1) target p b = some (m.writeNode v target b) := by
  rw [tryNode, hv]

theorem tryNode_of_none (target : Node) (hv : m.template.metavariableAt? p = none) :
    m.tryNode (fuel + 1) target p b =
      if target.kind != p.kind then some ⟨false, b⟩
      else if p.isLeaf || target.isLeaf then some ⟨p.text? == target.text?, b⟩
      else if p.children.any fun c => (m.runAt? c).isSome then
        m.trySiblings fuel ⟨target.span.start, target.children, p.children⟩ 0 0 b
      else if target.children.length == p.children.length then
        pairs (m.tryNode fuel) target.children p.children b
      else some ⟨false, b⟩ := by
  rw [tryNode, hv]

theorem trySiblings_of_none (hj : s.pattern[j]? = none) :
    m.trySiblings (fuel + 1) s i j b = some ⟨i == s.targets.length, b⟩ := by
  rw [trySiblings, hj]

theorem trySiblings_of_run (hj : s.pattern[j]? = some p) (hv : m.runAt? p = some v) :
    m.trySiblings (fuel + 1) s i j b = firstEnd (fun stop =>
      let copy := b.write v.name (.run ((s.targets.take stop).drop i) (s.anchorAt i))
      if copy.matched then m.trySiblings fuel s stop (j + 1) copy.binding else some copy)
      b (List.range' i (s.targets.length + 1 - i)) := by
  rw [trySiblings, hj]
  simp only [hv]

theorem trySiblings_of_node (hj : s.pattern[j]? = some p) (hp : m.runAt? p = none) :
    m.trySiblings (fuel + 1) s i j b =
      match s.targets[i]? with
      | none => some ⟨false, b⟩
      | some target =>
        (m.tryNode fuel target p b).bind fun copy =>
          if copy.matched then
            (m.trySiblings fuel s (i + 1) (j + 1) copy.binding).map fun t =>
              if t.matched then t else ⟨false, b⟩
          else some ⟨false, b⟩ := by
  rw [trySiblings, hj]
  simp only [hp]

end

/-- **A call for two constructs** that stand for no metavariable, by calls for their children. -/
theorem ends_branch {fuel : Nat} (hnodes : m.EndsOnNodes fuel) (hsiblings : m.EndsOnSiblings fuel)
    {l l' : Label} {ps ts : List Node} (b : Binding)
    (hv : m.template.metavariableAt? (.branch l ps) = none)
    (hfuel : 2 * (Node.branch l ps).size ≤ fuel + 1) :
    ∃ t, m.tryNode (fuel + 1) (.branch l' ts) (.branch l ps) b = some t ∧
      t.result? = m.matchNode (.branch l ps) (.branch l' ts) b := by
  have hsize : 2 * Node.sizeAll ps < fuel := by
    rw [Node.size] at hfuel
    omega
  have hmatch : m.matchNode (.branch l ps) (.branch l' ts) b
      = if l'.kind == l.kind then m.matchList ps (stopOf l'.span.start ts) ts b else none := by
    unfold matchNode
    rw [hv]
  by_cases hkind : l'.kind = l.kind
  · have hsame : ((Node.branch l' ts).kind != (Node.branch l ps).kind) = false := by
      show (l'.kind != l.kind) = false
      simpa using hkind
    rw [hmatch, if_pos (by simpa using hkind), tryNode_of_none b _ hv, hsame, if_neg (by simp),
      if_neg (by simp [Node.isLeaf])]
    show ∃ t, (if (ps.any fun c => (m.runAt? c).isSome) = true then
      m.trySiblings fuel ⟨l'.span.start, ts, ps⟩ 0 0 b else if ts.length == ps.length then
        pairs (m.tryNode fuel) ts ps b else some ⟨false, b⟩) = some t ∧ _
    by_cases hruns : (ps.any fun c => (m.runAt? c).isSome) = true
    · rw [if_pos hruns]
      obtain ⟨t, ht, -, hresult⟩ := hsiblings ⟨l'.span.start, ts, ps⟩ 0 0 b hsize
      exact ⟨t, ht, by rw [hresult, findFrom, if_pos (Nat.zero_le _)]; rfl⟩
    · have hnone : ∀ p ∈ ps, m.runAt? p = none := by simpa using hruns
      rw [if_neg hruns]
      by_cases hlength : ts.length = ps.length
      · rw [if_pos (by simpa using hlength)]
        refine pairs_spec _ hlength hnone fun p hp target b => hnodes p target b ?_
        have hp := size_le_sizeAll hp
        omega
      · rw [if_neg (by simpa using hlength), matchList_of_length_ne _ hlength hnone]
        exact ⟨⟨false, b⟩, rfl, rfl⟩
  · have hdiffer : ((Node.branch l' ts).kind != (Node.branch l ps).kind) = true := by
      show (l'.kind != l.kind) = true
      simpa using hkind
    rw [hmatch, if_neg (by simpa using hkind), tryNode_of_none b _ hv, if_pos hdiffer]
    exact ⟨⟨false, b⟩, rfl, rfl⟩

/-- **A call for a token** that stands for no metavariable, or for a construct and a token. -/
theorem ends_leaf {fuel : Nat} {p target : Node} (b : Binding)
    (hv : m.template.metavariableAt? p = none) (hleaf : p.isLeaf = true ∨ target.isLeaf = true) :
    ∃ t, m.tryNode (fuel + 1) target p b = some t ∧ t.result? = m.matchNode p target b := by
  refine ⟨⟨target.kind == p.kind && p.text? == target.text?, b⟩, ?_, ?_⟩
  · rw [tryNode_of_none b target hv]
    by_cases hkind : target.kind = p.kind
    · rw [if_neg (by simpa using hkind), if_pos (by simpa using hleaf), hkind]
      simp
    · rw [if_pos (by simpa using hkind), beq_false_of_ne hkind, Bool.false_and]
  · unfold matchNode
    cases p with
    | leaf l tr x =>
        simp only [hv]
        rw [Bool.beq_comm (a := Node.text? _)]
        rfl
    | branch l ps =>
        cases target with
        | leaf l' tr' x' =>
            simp only [hv]
            simp [Node.text?, Trial.result?]
        | branch l' ts => exact absurd hleaf (by simp [Node.isLeaf])

/-- **Calls for nodes** end if those one deeper do. -/
theorem endsOnNodes_succ {fuel : Nat} (hnodes : m.EndsOnNodes fuel)
    (hsiblings : m.EndsOnSiblings fuel) : m.EndsOnNodes (fuel + 1) := by
  intro p target b hfuel
  cases hv : m.template.metavariableAt? p with
  | some v =>
      refine ⟨m.writeNode v target b, tryNode_of_some b target hv, ?_⟩
      rw [result?_writeNode, matchNode_of_some target b hv]
  | none =>
      cases p with
      | leaf l tr x => exact ends_leaf b hv (Or.inl rfl)
      | branch l ps =>
          cases target with
          | leaf l' tr' x' => exact ends_leaf b hv (Or.inr rfl)
          | branch l' ts => exact ends_branch hnodes hsiblings b hv hfuel

/-- **Calls for siblings** end if those one deeper do: they descend into one template node, or go on behind
    it. -/
theorem endsOnSiblings_succ {fuel : Nat} (hnodes : m.EndsOnNodes fuel)
    (hsiblings : m.EndsOnSiblings fuel) : m.EndsOnSiblings (fuel + 1) := by
  intro s i j b hfuel
  cases hj : s.pattern[j]? with
  | none =>
      refine ⟨_, trySiblings_of_none b hj, fun _ => rfl, ?_⟩
      rw [findFrom_of_none b hj]
      rfl
  | some p =>
      have hsize : p.size + Node.sizeAll (s.pattern.drop (j + 1)) = Node.sizeAll (s.pattern.drop j) := by
        rw [drop_of_getElem? hj]
        rfl
      have hpos := Node.size_eq p
      cases hv : m.runAt? p with
      | some v =>
          rw [trySiblings_of_run b hj hv, findFrom_of_run b hj hv]
          refine firstEnd_spec fun stop _ => ?_
          rw [← Binding.result?_write]
          rcases (b.write v.name (.run ((s.targets.take stop).drop i) (s.anchorAt i))).cases_result?
            with ⟨b', hcopy, hresult⟩ | ⟨hfail, hnone⟩
          · rw [hresult, hcopy, Option.bind_some]
            obtain ⟨t, ht, -, hfind⟩ := hsiblings s stop (j + 1) b' (by omega)
            exact ⟨t, ht, hfind⟩
          · rw [hnone]
            exact ⟨_, if_neg (by simp [hfail]), hnone⟩
      | none =>
          rw [trySiblings_of_node b hj hv, findFrom_of_node b hj hv]
          cases s.targets[i]? with
          | none => exact ⟨⟨false, b⟩, rfl, fun _ => rfl, rfl⟩
          | some target =>
              obtain ⟨copy, hcopy, hresult⟩ := hnodes p target b (by omega)
              simp only [hcopy, Option.bind_some]
              rw [← hresult]
              rcases copy.cases_result? with ⟨b', rfl, -⟩ | ⟨hfail, hnone⟩
              · obtain ⟨t, ht, -, hfind⟩ := hsiblings s (i + 1) (j + 1) b' (by omega)
                rw [ht, Trial.result?_true, Option.bind_some, ← hfind]
                rcases t.cases_result? with ⟨b'', rfl, -⟩ | ⟨hlast, hnone⟩
                · exact ⟨⟨true, b''⟩, rfl, fun h => absurd h (by simp), rfl⟩
                · exact ⟨⟨false, b⟩, by simp [hlast], fun _ => rfl, hnone.symm⟩
              · exact ⟨⟨false, b⟩, by rw [hfail]; rfl, fun _ => rfl, by rw [hnone]; rfl⟩

/-- **Every call ends** that is given a depth of twice the size of what it matches. -/
theorem ends_of_fuel (m : Matcher) (fuel : Nat) : m.EndsOnNodes fuel ∧ m.EndsOnSiblings fuel := by
  induction fuel with
  | zero =>
      constructor
      · intro p target b hfuel
        have hp := Node.size_eq p
        omega
      · intro s i j b hfuel
        exact absurd hfuel (Nat.not_lt_zero _)
  | succ fuel ih => exact ⟨endsOnNodes_succ ih.1 ih.2, endsOnSiblings_succ ih.1 ih.2⟩

/-! ## What is left -/

theorem extends_of_matchNode {p n : Node} {b b' : Binding} (h : m.matchNode p n b = some b') :
    b.Extends b' := by
  obtain ⟨fs, -, hextend, -⟩ := overlay_of_matchNode m p n h
  exact fun _ _ hx => Binding.get?_of_extend?_mono hextend hx

theorem extends_of_findFrom {s : Siblings} {i j : Nat} {b b' : Binding}
    (h : m.findFrom s i j b = some b') : b.Extends b' := by
  unfold findFrom at h
  split at h
  · obtain ⟨fs, -, hextend, -⟩ := overlay_of_matchList m _ _ _ h
    exact fun _ _ hx => Binding.get?_of_extend?_mono hextend hx
  · exact absurd h (by simp)

/-- **A search that fails on siblings leaves no trace.** With every binding, and from every two numbers on, the
    calls for siblings end, at the latest at a depth of twice the size of the template siblings that are left.
    Whatever depth beyond that they are given, they leave the same: the binding they were handed, if they have
    failed, or else one in which every name that was bound still has its value. They find what the matcher finds.
    The calls for nodes end and find what the matcher finds, too; one that fails may have written
    something. -/
theorem trySiblings_traceless (m : Matcher) :
    (∀ (s : Siblings) (i j : Nat) (b : Binding), ∃ t : Trial,
      (∀ fuel, 2 * Node.sizeAll (s.pattern.drop j) < fuel → m.trySiblings fuel s i j b = some t) ∧
      (t.matched = false → t.binding = b) ∧ (t.matched = true → b.Extends t.binding) ∧
      t.result? = m.findFrom s i j b) ∧
    ∀ (p target : Node) (b : Binding) (fuel : Nat), 2 * p.size ≤ fuel → ∃ t : Trial,
      m.tryNode fuel target p b = some t ∧ (t.matched = true → b.Extends t.binding) ∧
      t.result? = m.matchNode p target b := by
  constructor
  · intro s i j b
    obtain ⟨t, -, hleft, hresult⟩ := (m.ends_of_fuel _).2 s i j b (Nat.lt_succ_self _)
    refine ⟨t, ?_, hleft, ?_, hresult⟩
    · intro fuel hfuel
      obtain ⟨t', ht', hleft', hresult'⟩ := (m.ends_of_fuel fuel).2 s i j b hfuel
      rw [ht', Trial.eq_of_result? (hresult'.trans hresult.symm) hleft' hleft]
    · exact fun hmatched =>
        extends_of_findFrom (hresult.symm.trans (Trial.result?_of_matched hmatched))
  · intro p target b fuel hfuel
    obtain ⟨t, ht, hresult⟩ := (m.ends_of_fuel fuel).1 p target b hfuel
    exact ⟨t, ht, fun hmatched =>
      extends_of_matchNode (hresult.symm.trans (Trial.result?_of_matched hmatched)), hresult⟩

/-- With `$Y` bound to nothing, the arguments `1, 2, 3` are tried in vain with `$X, $$$R, $X`, and `1, 2, 1`
    match. -/
theorem trySiblings_traceless_arguments : ∃ (template : Template) (tree : Syntax.Tree) (p n n' : Node)
    (b : Binding) (t t' t'' : Trial),
    Template.compile "f($X, $$$R, $X)" [] = .ok template ∧
    p ∈ template.tree.root.preorder ∧ p.isKind "argument_list" = true ∧
    Java.parse? "f(1, 2, 3); f(1, 2, 1);" = some tree ∧ n ∈ tree.root.preorder ∧
    n.normalized = "( 1 , 2 , 3 )" ∧ n' ∈ tree.root.preorder ∧ n'.normalized = "( 1 , 2 , 1 )" ∧
    b.entries = [("Y", .run [] 0)] ∧
    (∀ fuel, 2 * Node.sizeAll p.children < fuel →
      (Matcher.mk template .empty).trySiblings fuel ⟨0, n.children, p.children⟩ 0 0 b = some t) ∧
    t.matched = false ∧ t.binding = b ∧
    (∀ fuel, 2 * Node.sizeAll p.children < fuel →
      (Matcher.mk template .empty).trySiblings fuel ⟨0, n'.children, p.children⟩ 0 0 b = some t') ∧
    t'.matched = true ∧ b.Extends t'.binding ∧
    (Matcher.mk template .empty).tryNode (2 * p.size) n' p b = some t'' ∧ t''.matched = true ∧
    b.Extends t''.binding := by
  let b : Binding := ⟨[("Y", .run [] 0)]⟩
  have h : ((Template.compile "f($X, $$$R, $X)" []).toOption.any fun template =>
      (Java.parse? "f(1, 2, 3); f(1, 2, 1);").any fun tree =>
        template.tree.root.preorder.any fun p => tree.root.preorder.any fun n =>
          tree.root.preorder.any fun n' =>
            p.isKind "argument_list" && n.normalized == "( 1 , 2 , 3 )" &&
              n'.normalized == "( 1 , 2 , 1 )" &&
            !((Matcher.mk template .empty).findFrom ⟨0, n.children, p.children⟩ 0 0 b).isSome &&
            ((Matcher.mk template .empty).findFrom ⟨0, n'.children, p.children⟩ 0 0 b).isSome &&
            ((Matcher.mk template .empty).matchNode p n' b).isSome) = true := by
    decide +kernel
  obtain ⟨template, htemplate, h⟩ := (Option.any_eq_true _ _).mp h
  obtain ⟨tree, htree, h⟩ := (Option.any_eq_true _ _).mp h
  obtain ⟨p, hp, h⟩ := List.any_eq_true.mp h
  obtain ⟨n, hn, h⟩ := List.any_eq_true.mp h
  obtain ⟨n', hn', h⟩ := List.any_eq_true.mp h
  simp only [Bool.and_eq_true, beq_iff_eq, Bool.not_eq_true'] at h
  obtain ⟨⟨⟨⟨⟨hlist, htext⟩, htext'⟩, hfails⟩, hmatches⟩, hnode⟩ := h
  obtain ⟨hsiblings, hnodes⟩ := trySiblings_traceless ⟨template, .empty⟩
  obtain ⟨t, ht, hleft, -, hresult⟩ := hsiblings ⟨0, n.children, p.children⟩ 0 0 b
  obtain ⟨t', ht', -, hextends, hresult'⟩ := hsiblings ⟨0, n'.children, p.children⟩ 0 0 b
  obtain ⟨t'', ht'', hextends', hresult''⟩ := hnodes p n' b (2 * p.size) (Nat.le_refl _)
  rw [← hresult, Trial.isSome_result?] at hfails
  rw [← hresult', Trial.isSome_result?] at hmatches
  rw [← hresult'', Trial.isSome_result?] at hnode
  exact ⟨template, tree, p, n, n', b, t, t', t'', Attempts.toOption_eq_some.mp htemplate, hp, hlist, htree,
    hn, htext, hn', htext', rfl, ht, hfails, hleft hfails, ht', hmatches, hextends hmatches, ht'', hnode,
    hextends' hnode⟩

/-- A call for a node that fails may have written something: `f(1, 2)` binds `$X` in `f($X, $X)` before it
    turns out to be another call. -/
example : ((Template.compile "f($X, $X)" []).toOption.any fun template =>
    (Java.parse? "f(1, 2);").any fun tree => template.roots.any fun p =>
      tree.root.preorder.any fun n =>
        ((Matcher.mk template .empty).tryNode (2 * p.size) n p .empty).any fun t =>
          !t.matched && (t.binding.get? "X").isSome) = true := by
  decide +kernel

end Matcher

end JavaRefactor

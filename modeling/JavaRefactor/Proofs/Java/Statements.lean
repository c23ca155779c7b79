import JavaRefactor.Proofs.Java.Derives
import JavaRefactor.Proofs.Java.Symbols
import JavaRefactor.Proofs.Syntax.Listing

/-!
# `Proofs.Java.Statements` — what an expression statement is made of

A statement that is an expression has a semicolon behind it, and in front of the semicolon it has constructs only, no bare
token. So if there is one construct in it, there is nothing else but the semicolon.

## Contents
- **`Closed`**, the nodes of which this holds.
- **`Production.constructs`** and **`Production.closes`**, read off a production: that it yields constructs only, and
  that it puts a semicolon behind each of its expression statements.
- **`named_of_derives`** and **`closed_of_derives`**: so are the nodes that a production reads.
- **`constructs_table`** and **`closes_table`**, for the productions of Java.
- **`closed_of_parse?`**: all nodes of a Java text are closed.
-/

namespace JavaRefactor.Java

open Syntax (Node Kind Tree)

/-- The kind of a statement that is an expression. -/
def statementKind : String := "expression_statement"

/-- Some nodes are constructs but for a semicolon at the end. -/
def EndsInSemicolon (ns : List Node) : Prop :=
  ∃ xs l tr, ns = xs ++ [.leaf l tr ";"] ∧ l.kind.isNamed = false ∧ ∀ x ∈ xs, x.isNamed = true

/-- In and below a node, every expression statement ends in its semicolon. -/
def Closed (n : Node) : Prop :=
  ∀ m ∈ n.listing, ∀ l cs, m = .branch l cs → l.kind = .named statementKind → EndsInSemicolon cs

namespace Closed

theorem leaf (l : Syntax.Label) (tr x : String) : Closed (.leaf l tr x) := by
  intro m hm l' cs hbranch
  rw [Node.listing, List.mem_singleton] at hm
  rw [hm] at hbranch
  exact absurd hbranch (by simp)

theorem branch {l : Syntax.Label} {cs : List Node} (hcs : ∀ c ∈ cs, Closed c)
    (hl : l.kind = .named statementKind → EndsInSemicolon cs) : Closed (.branch l cs) := by
  intro m hm l' cs' hbranch hkind
  rw [Node.listing, List.mem_cons] at hm
  rcases hm with rfl | hm
  · obtain ⟨rfl, rfl⟩ := Node.branch.inj hbranch
    exact hl hkind
  · obtain ⟨c, hc, hm⟩ := Node.mem_listingAll_iff.mp hm
    exact hcs c hc m hm l' cs' hbranch hkind

theorem of_mem_children {n c : Node} (h : Closed n) (hc : c ∈ n.children) : Closed c := by
  intro m hm
  exact h m (Node.mem_listing_trans (Node.mem_listing_of_mem_children hc) hm)

/-- A role changes nothing of this. -/
theorem withField {n : Node} (h : Closed n) (role : String) : Closed (n.withField role) := by
  cases n with
  | leaf l tr x => exact leaf _ tr x
  | branch l cs =>
      exact branch (fun c hc => h.of_mem_children hc) (h _ (Node.mem_listing_self _) l cs rfl)

/-- **An expression statement with one construct** has nothing else but its semicolon. -/
theorem children_of_namedChildren {n only : Node} (h : Closed n)
    (hkind : n.isKind statementKind = true) (honly : n.namedChildren = [only]) :
    ∃ l tr, n.children = [only, .leaf l tr ";"] := by
  cases n with
  | leaf l tr x => exact absurd honly (by simp [Node.namedChildren, Node.children])
  | branch l cs =>
      obtain ⟨xs, l', tr, rfl, htoken, hnamed⟩ :=
        h _ (Node.mem_listing_self _) l cs rfl (beq_iff_eq.mp hkind)
      have hall : xs.filter Node.isNamed = xs := List.filter_eq_self.mpr hnamed
      have hnone : [Node.leaf l' tr ";"].filter Node.isNamed = [] := by
        rw [List.filter_eq_nil_iff]
        intro x hx
        rw [List.mem_singleton.mp hx]
        simp [Node.isNamed, Node.kind, Node.label, htoken]
      unfold Node.namedChildren at honly
      rw [Node.children, List.filter_append, hall, hnone, List.append_nil] at honly
      exact ⟨l', tr, by rw [Node.children, honly]; rfl⟩

end Closed

namespace Production

variable {σ : Type}

/-! ## What can be seen from a production -/

/-- Whether a production yields constructs only, where `whole` tells the symbols that do, and `kept` whether
    what is held are constructs. -/
def constructs (whole : σ → Bool) : Bool → Production σ → Bool
  | _, .nothing | _, .tight | _, .finish | _, .ahead _ | _, .absent _ => true
  | _, .name .. | _, .number | _, .formed .. | _, .node .. => true
  | _, .text _ k | _, .fuse k _ => k.isNamed
  | kept, .seq a b | kept, .either a b => constructs whole kept a && constructs whole kept b
  | kept, .many a | kept, .field _ a | kept, .only _ a | kept, .starting _ _ a =>
    constructs whole kept a
  | _, .ref s => whole s
  | kept, .held => kept
  | kept, .hold a b => constructs whole kept a && constructs whole true b
  | kept, .regrow a => kept && constructs whole true a

/-- Whether a production reads constructs and then a semicolon. -/
def endsInSemicolon (whole : σ → Bool) : Production σ → Bool
  | .seq a (.text content (.token _)) => content == ";" && constructs whole false a
  | _ => false

/-- Whether a production puts a semicolon behind each of its expression statements. -/
def closes (whole : σ → Bool) : Production σ → Bool
  | .node k a => (k != statementKind || endsInSemicolon whole a) && closes whole a
  | .seq a b | .either a b | .hold a b => closes whole a && closes whole b
  | .many a | .field _ a | .only _ a | .starting _ _ a | .regrow a => closes whole a
  | _ => true

/-! ## Reading -/

variable {g : σ → Production σ} {whole : σ → Bool} {p : Production σ} {kept : Bool} {h xs : List Node}
  {ls rest : List Lexeme}

/-- **What a production yields** are constructs, if it yields nothing else. -/
theorem named_of_derives (hwhole : ∀ s, whole s = true → constructs whole false (g s) = true)
    (hd : Derives g p h ls xs rest) (hp : constructs whole kept p = true)
    (hh : kept = true → ∀ n ∈ h, n.isNamed = true) : ∀ n ∈ xs, n.isNamed = true := by
  -- by the ways to read, whatever is held
  induction hd generalizing kept with
  | nothing | tight | finish | ahead | absent => exact fun n hn => absurd hn (by simp)
  | done => exact fun n hn => absurd hn (by simp)
  | text _ | name | number | formed | node _ _ =>
      intro n hn
      rw [List.mem_singleton.mp hn]
      exact hp
  | seq _ _ iha ihb =>
      obtain ⟨ha, hb⟩ := (Bool.and_eq_true _ _).mp hp
      intro n hn
      exact (List.mem_append.mp hn).elim (iha ha hh n) (ihb hb hh n)
  | left _ iha => exact iha ((Bool.and_eq_true _ _).mp hp).1 hh
  | right _ ihb => exact ihb ((Bool.and_eq_true _ _).mp hp).2 hh
  | @more a _ _ _ _ _ _ _ _ iha ihm =>
      have ha : constructs whole kept a = true := hp
      intro n hn
      exact (List.mem_append.mp hn).elim (iha ha hh n) (ihm hp hh n)
  | @field role a _ _ _ _ _ iha =>
      have ha : constructs whole kept a = true := hp
      intro n hn
      obtain ⟨m, hm, rfl⟩ := List.mem_map.mp hn
      have hnamed := iha ha hh m hm
      cases m <;> exact hnamed
  | fuse _ hl _ =>
      intro n hn
      rw [List.mem_singleton.mp hn]
      unfold fused at hl
      split at hl
      · obtain rfl := Option.some.inj hl
        exact hp
      · exact absurd hl (by simp)
  | @ref s _ _ _ _ _ ihs => exact ihs (hwhole s hp) (fun hf => absurd hf (by simp))
  | held => exact hh hp
  | hold _ _ iha ihb =>
      obtain ⟨ha, hb⟩ := (Bool.and_eq_true _ _).mp hp
      exact ihb hb fun _ => iha ha hh
  | kept => exact hh ((Bool.and_eq_true _ _).mp hp).1
  | grown _ _ iha ihr =>
      -- what has grown is held in its turn
      obtain ⟨rfl, ha⟩ := (Bool.and_eq_true _ _).mp hp
      exact ihr hp fun _ => iha ha hh
  | @only _ a _ _ _ _ _ iha | @starting _ _ a _ _ _ _ _ iha =>
      have ha : constructs whole kept a = true := hp
      exact iha ha hh

/-- What is read of a production that ends in a semicolon ends in one. -/
theorem endsInSemicolon_of_derives (hwhole : ∀ s, whole s = true → constructs whole false (g s) = true)
    (hd : Derives g p h ls xs rest) (hp : endsInSemicolon whole p = true) : EndsInSemicolon xs := by
  unfold endsInSemicolon at hp
  split at hp
  · rename_i a content kind
    obtain ⟨hcontent, ha⟩ := (Bool.and_eq_true _ _).mp hp
    cases hd with
    | @seq _ _ _ ys _ _ _ _ hda hdb =>
        cases hdb with
        | @text _ _ _ l _ htext =>
            have hsemicolon : l.text = ";" := htext.trans (beq_iff_eq.mp hcontent)
            refine ⟨ys, ⟨.token kind, none, ⟨l.start, l.stop⟩⟩, l.trivia, ?_, rfl, ?_⟩
            · rw [← hsemicolon]
              rfl
            · exact named_of_derives hwhole hda ha (fun hf => absurd hf (by simp))
  · exact absurd hp (by simp)

/-- **What a production reads** is closed. -/
theorem closed_of_derives (hg : ∀ s, closes whole (g s) = true)
    (hwhole : ∀ s, whole s = true → constructs whole false (g s) = true)
    (hd : Derives g p h ls xs rest) (hp : closes whole p = true) (hh : ∀ n ∈ h, Closed n) :
    ∀ n ∈ xs, Closed n := by
  -- by the ways to read, whatever is held
  induction hd with
  | nothing | tight | finish | ahead | absent | done => exact fun n hn => absurd hn (by simp)
  | text _ | name | number | formed =>
      intro n hn
      rw [List.mem_singleton.mp hn]
      exact .leaf _ _ _
  | seq _ _ iha ihb =>
      obtain ⟨ha, hb⟩ := (Bool.and_eq_true _ _).mp hp
      intro n hn
      exact (List.mem_append.mp hn).elim (iha ha hh n) (ihb hb hh n)
  | left _ iha => exact iha ((Bool.and_eq_true _ _).mp hp).1 hh
  | right _ ihb => exact ihb ((Bool.and_eq_true _ _).mp hp).2 hh
  | more _ _ iha ihm =>
      intro n hn
      exact (List.mem_append.mp hn).elim (iha hp hh n) (ihm hp hh n)
  | field _ iha =>
      intro n hn
      obtain ⟨m, hm, rfl⟩ := List.mem_map.mp hn
      exact (iha hp hh m hm).withField _
  | node hda iha =>
      obtain ⟨hkind, ha⟩ := (Bool.and_eq_true _ _).mp hp
      intro n hn
      rw [List.mem_singleton.mp hn]
      refine .branch (iha ha hh) ?_
      intro hstatement
      obtain rfl := Kind.named.inj hstatement
      exact endsInSemicolon_of_derives hwhole hda (by simpa using hkind)
  | fuse _ hl _ =>
      intro n hn
      rw [List.mem_singleton.mp hn]
      unfold fused at hl
      split at hl
      · obtain rfl := Option.some.inj hl
        exact .leaf _ _ _
      · exact absurd hl (by simp)
  | @ref s _ _ _ _ _ ihs => exact ihs (hg s) (fun n hn => absurd hn (by simp))
  | held | kept => exact hh
  | hold _ _ iha ihb =>
      obtain ⟨ha, hb⟩ := (Bool.and_eq_true _ _).mp hp
      exact ihb hb (iha ha hh)
  | grown _ _ iha ihr => exact ihr hp (iha hp hh)
  | only _ iha | starting _ iha => exact iha hp hh

end Production

/-! ## The table -/

namespace Grammar

open Production

/-- The symbols that yield constructs only. -/
def isConstruct : Symbol → Bool
  | .expression .. | .operand .. | .unary .. | .primary _ | .parenthesized | .stringLiteral
  | .switchExpression | .simpleType _ | .plainType _ | .anyType _ => true
  | _ => false

/-- Whether a production changes an operand into a construct, and closes its statements. -/
def adds (p : Phrase) : Bool := constructs isConstruct true p && closes isConstruct p

/-- **An operand grows by constructs**, whatever the level of the operators. -/
theorem adds_operatorSteps {place : Place} {arrow : Bool} {level : Nat} :
    adds (operatorSteps place arrow level) = true := by
  refine operatorSteps_of_all (P := fun p => adds p = true) rfl ?_ ?_
  · intro a b ha hb
    obtain ⟨hconstructs, hcloses⟩ := (Bool.and_eq_true _ _).mp ha
    obtain ⟨hconstructs', hcloses'⟩ := (Bool.and_eq_true _ _).mp hb
    refine (Bool.and_eq_true _ _).mpr ⟨?_, ?_⟩
    · exact (Bool.and_eq_true _ _).mpr ⟨hconstructs, hconstructs'⟩
    · exact (Bool.and_eq_true _ _).mpr ⟨hcloses, hcloses'⟩
  · cases place <;> cases arrow <;> decide +kernel

/-- **Every production of Java closes its expression statements.** -/
theorem closes_table : ∀ s, closes isConstruct (table s) = true := by
  refine forall_symbols ?_ (by decide +kernel)
  intro place arrow level
  exact ((Bool.and_eq_true _ _).mp adds_operatorSteps).2

/-- **Expressions, and what they are made of, yield constructs only.** -/
theorem constructs_table : ∀ s, isConstruct s = true → constructs isConstruct false (table s) = true := by
  refine forall_symbols ?_ (by decide +kernel)
  intro place arrow level _
  have hadds : constructs isConstruct true (operatorSteps place.inner arrow level) = true :=
    ((Bool.and_eq_true _ _).mp adds_operatorSteps).1
  show (true && (true && constructs isConstruct true _)) = true
  rw [hadds]
  rfl

end Grammar

/-! ## Texts -/

/-- **In a Java text** every expression statement has one semicolon behind its constructs. -/
theorem closed_of_parse? {source : String} {t : Tree} (h : parse? source = some t) : Closed t.root := by
  obtain ⟨ls, trailing, nodes, -, rfl, hd⟩ := derives_of_parse? h
  refine .branch (Production.closed_of_derives Grammar.closes_table Grammar.constructs_table hd rfl ?_) ?_
  · exact fun n hn => absurd hn (by simp)
  · intro hkind
    exact absurd (Kind.named.inj hkind) (by decide)

end JavaRefactor.Java

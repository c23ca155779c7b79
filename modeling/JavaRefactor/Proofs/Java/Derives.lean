import JavaRefactor.Java.Parse

/-!
# `Proofs.Java.Derives` — what a production can read

A reading is bounded in depth, tries the alternatives of a choice in order, and repeats as often as it can.
What it reads in the end was read by the parts of the production, whatever was tried on the way. That is
enough for everything that holds of all nodes of a tree, and it leaves an induction with one case for each
way to read.

## Contents
- **`Production.Derives`**: the nodes that a production can read off a list of lexemes.
- **`Production.derives_of_run`**: what a production reads, it can read.
- **`derives_of_parse?`**: the nodes of a Java text are what the production of a file can read off its lexemes.
-/

namespace JavaRefactor.Java

open Syntax (Node Kind Tree)

namespace Production

variable {σ : Type}

/-- `Derives g p h ls xs rest`: with the nodes `h` held, `p` can read the nodes `xs` off `ls`, up to
    `rest`. -/
inductive Derives (g : σ → Production σ) :
    Production σ → List Node → List Lexeme → List Node → List Lexeme → Prop where
  | nothing {h : List Node} {ls : List Lexeme} : Derives g .nothing h ls [] ls
  | text {content : String} {kind : Kind} {h : List Node} {l : Lexeme} {ls : List Lexeme}
      (hl : l.text = content) : Derives g (.text content kind) h (l :: ls) [leafOf kind l] ls
  | name {kind : String} {reserved : List String} {h : List Node} {l : Lexeme} {ls : List Lexeme}
      (hl : l.form = .word) : Derives g (.name kind reserved) h (l :: ls) [leafOf (.named kind) l] ls
  | number {kind : String} {h : List Node} {l : Lexeme} {ls : List Lexeme} (hl : l.form = .number kind) :
      Derives g .number h (l :: ls) [leafOf (.named kind) l] ls
  | formed {form : Form} {kind : String} {h : List Node} {l : Lexeme} {ls : List Lexeme} (hl : l.form = form) :
      Derives g (.formed form kind) h (l :: ls) [leafOf (.named kind) l] ls
  | tight {h : List Node} {ls : List Lexeme} : Derives g .tight h ls [] ls
  | finish {h : List Node} {ls : List Lexeme} : Derives g .finish h ls [] ls
  | seq {a b : Production σ} {h xs ys : List Node} {ls mid rest : List Lexeme}
      (ha : Derives g a h ls xs mid) (hb : Derives g b h mid ys rest) :
      Derives g (.seq a b) h ls (xs ++ ys) rest
  | left {a b : Production σ} {h xs : List Node} {ls rest : List Lexeme}
      (ha : Derives g a h ls xs rest) : Derives g (.either a b) h ls xs rest
  | right {a b : Production σ} {h xs : List Node} {ls rest : List Lexeme}
      (hb : Derives g b h ls xs rest) : Derives g (.either a b) h ls xs rest
  | done {a : Production σ} {h : List Node} {ls : List Lexeme} : Derives g (.many a) h ls [] ls
  | more {a : Production σ} {h xs ys : List Node} {ls mid rest : List Lexeme}
      (ha : Derives g a h ls xs mid) (hm : Derives g (.many a) h mid ys rest) :
      Derives g (.many a) h ls (xs ++ ys) rest
  | field {role : String} {a : Production σ} {h xs : List Node} {ls rest : List Lexeme}
      (ha : Derives g a h ls xs rest) :
      Derives g (.field role a) h ls (xs.map (Node.withField role)) rest
  | node {kind : String} {a : Production σ} {h xs : List Node} {ls rest : List Lexeme}
      (ha : Derives g a h ls xs rest) : Derives g (.node kind a) h ls [branchOf kind xs] rest
  | fuse {kind : Kind} {a : Production σ} {h xs : List Node} {leaf : Node} {ls rest : List Lexeme}
      (ha : Derives g a h ls xs rest) (hl : fused kind xs = some leaf) :
      Derives g (.fuse kind a) h ls [leaf] rest
  | ref {s : σ} {h xs : List Node} {ls rest : List Lexeme}
      (hs : Derives g (g s) [] ls xs rest) : Derives g (.ref s) h ls xs rest
  | held {h : List Node} {ls : List Lexeme} : Derives g .held h ls h ls
  | hold {a b : Production σ} {h xs ys : List Node} {ls mid rest : List Lexeme}
      (ha : Derives g a h ls xs mid) (hb : Derives g b xs mid ys rest) :
      Derives g (.hold a b) h ls ys rest
  | kept {a : Production σ} {h : List Node} {ls : List Lexeme} : Derives g (.regrow a) h ls h ls
  | grown {a : Production σ} {h xs ys : List Node} {ls mid rest : List Lexeme}
      (ha : Derives g a h ls xs mid) (hr : Derives g (.regrow a) xs mid ys rest) :
      Derives g (.regrow a) h ls ys rest
  | only {kinds : List String} {a : Production σ} {h xs : List Node} {ls rest : List Lexeme}
      (ha : Derives g a h ls xs rest) : Derives g (.only kinds a) h ls xs rest
  | starting {within first : String} {a : Production σ} {h xs : List Node} {ls rest : List Lexeme}
      (ha : Derives g a h ls xs rest) : Derives g (.starting within first a) h ls xs rest
  | ahead {a : Production σ} {h : List Node} {ls : List Lexeme} : Derives g (.ahead a) h ls [] ls
  | absent {a : Production σ} {h : List Node} {ls : List Lexeme} : Derives g (.absent a) h ls [] ls

variable {g : σ → Production σ} {n : Nat} {p : Production σ} {h xs : List Node} {ls rest : List Lexeme}

/-- A production that reads one lexeme at most can read what it reads. -/
theorem derives_of_run_single
    (hp : p matches .nothing | .text .. | .name .. | .number | .formed .. | .tight | .finish)
    (hr : run g (n + 1) p h ls = some (xs, rest)) : Derives g p h ls xs rest := by
  cases p with
  | nothing =>
      obtain ⟨rfl, rfl⟩ : [] = xs ∧ ls = rest := by simpa [run] using hr
      exact .nothing
  | text content kind =>
      cases ls with
      | nil => exact absurd hr (by simp [run])
      | cons l ls =>
          obtain ⟨htext, rfl, rfl⟩ : l.text = content ∧ [leafOf kind l] = xs ∧ ls = rest := by
            simpa [run] using hr
          exact .text htext
  | name kind reserved =>
      cases ls with
      | nil => exact absurd hr (by simp [run])
      | cons l ls =>
          simp only [run, Option.ite_none_right_eq_some, Bool.and_eq_true, beq_iff_eq, Option.some.injEq,
            Prod.mk.injEq] at hr
          obtain ⟨⟨hform, -⟩, rfl, rfl⟩ := hr
          exact .name hform
  | number =>
      cases ls with
      | nil => exact absurd hr (by simp [run])
      | cons l ls =>
          simp only [run] at hr
          split at hr
          · rename_i hform
            obtain ⟨rfl, rfl⟩ := by simpa using hr
            exact .number hform
          · exact absurd hr (by simp)
  | formed form kind =>
      cases ls with
      | nil => exact absurd hr (by simp [run])
      | cons l ls =>
          simp only [run, Option.ite_none_right_eq_some, Option.some.injEq, Prod.mk.injEq] at hr
          obtain ⟨hform, rfl, rfl⟩ := hr
          exact .formed (beq_iff_eq.mp hform)
  | tight =>
      cases ls with
      | nil => exact absurd hr (by simp [run])
      | cons l ls =>
          simp only [run, Option.ite_none_right_eq_some, Option.some.injEq, Prod.mk.injEq] at hr
          obtain ⟨-, rfl, rfl⟩ := hr
          exact .tight
  | finish =>
      simp only [run, Option.ite_none_right_eq_some, Option.some.injEq, Prod.mk.injEq] at hr
      obtain ⟨-, rfl, rfl⟩ := hr
      exact .finish
  | _ => exact absurd hp (by simp)

/-- **What a production reads, it can read.** -/
theorem derives_of_run (hr : run g n p h ls = some (xs, rest)) : Derives g p h ls xs rest := by
  -- by the depth of the reading, whatever is held
  induction n generalizing p h xs ls rest with
  | zero => exact absurd hr (by simp [run])
  | succ n ih =>
      cases p with
      | seq a b =>
          simp only [run] at hr
          split at hr
          · exact absurd hr (by simp)
          · rename_i ys mid hra
            split at hr
            · exact absurd hr (by simp)
            · rename_i zs rest' hrb
              obtain ⟨rfl, rfl⟩ : ys ++ zs = xs ∧ rest' = rest := by simpa using hr
              exact .seq (ih hra) (ih hrb)
      | either a b =>
          simp only [run] at hr
          split at hr
          · rename_i r hra
            exact .left (ih (hra.trans hr))
          · exact .right (ih hr)
      | many a =>
          simp only [run] at hr
          split at hr
          · obtain ⟨rfl, rfl⟩ : [] = xs ∧ ls = rest := by simpa using hr
            exact .done
          · rename_i ys mid hra
            split at hr
            · exact absurd hr (by simp)
            · rename_i zs rest' hrb
              obtain ⟨rfl, rfl⟩ : ys ++ zs = xs ∧ rest' = rest := by simpa using hr
              exact .more (ih hra) (ih hrb)
      | field role a =>
          simp only [run] at hr
          split at hr
          · exact absurd hr (by simp)
          · rename_i ys mid hra
            obtain ⟨rfl, rfl⟩ : ys.map (Node.withField role) = xs ∧ mid = rest := by simpa using hr
            exact .field (ih hra)
      | node kind a =>
          simp only [run] at hr
          split at hr
          · exact absurd hr (by simp)
          · rename_i ys mid hra
            obtain ⟨rfl, rfl⟩ : [branchOf kind ys] = xs ∧ mid = rest := by simpa using hr
            exact .node (ih hra)
      | fuse kind a =>
          simp only [run] at hr
          split at hr
          · exact absurd hr (by simp)
          · rename_i ys mid hra
            obtain ⟨leaf, hleaf, he⟩ := Option.map_eq_some_iff.mp hr
            obtain ⟨rfl, rfl⟩ : [leaf] = xs ∧ mid = rest := by simpa using he
            exact .fuse (ih hra) hleaf
      | ref s => exact .ref (ih (by simpa only [run] using hr))
      | held =>
          obtain ⟨rfl, rfl⟩ : h = xs ∧ ls = rest := by simpa [run] using hr
          exact .held
      | hold a b =>
          simp only [run] at hr
          split at hr
          · exact absurd hr (by simp)
          · rename_i ys mid hra
            exact .hold (ih hra) (ih hr)
      | regrow a =>
          simp only [run] at hr
          split at hr
          · obtain ⟨rfl, rfl⟩ : h = xs ∧ ls = rest := by simpa using hr
            exact .kept
          · rename_i ys mid hra
            exact .grown (ih hra) (ih hr)
      | only kinds a =>
          simp only [run] at hr
          split at hr
          · exact absurd hr (by simp)
          · rename_i ys mid hra
            obtain ⟨-, rfl, rfl⟩ : isOnly kinds ys = true ∧ ys = xs ∧ mid = rest := by simpa using hr
            exact .only (ih hra)
      | starting within first a =>
          simp only [run] at hr
          split at hr
          · exact absurd hr (by simp)
          · rename_i ys mid hra
            obtain ⟨-, rfl, rfl⟩ : headStartsWith within first ys = true ∧ ys = xs ∧ mid = rest := by
              simpa using hr
            exact .starting (ih hra)
      | ahead a =>
          simp only [run] at hr
          split at hr
          · exact absurd hr (by simp)
          · obtain ⟨rfl, rfl⟩ : [] = xs ∧ ls = rest := by simpa using hr
            exact .ahead
      | absent a =>
          simp only [run] at hr
          split at hr
          · obtain ⟨rfl, rfl⟩ : [] = xs ∧ ls = rest := by simpa using hr
            exact .absent
          · exact absurd hr (by simp)
      | _ => exact derives_of_run_single rfl hr

end Production

/-- **The nodes of a Java text** are what the production of a file can read off its lexemes. -/
theorem derives_of_parse? {source : String} {t : Tree} (h : parse? source = some t) :
    ∃ ls trailing nodes, Lexeme.ofText? source = some (ls, trailing) ∧
      t = ⟨source, rootOf source nodes, trailing⟩ ∧
      Production.Derives Grammar.table (.ref .program) [] ls nodes [] := by
  unfold parse? at h
  split at h
  · exact absurd h (by simp)
  · rename_i ls trailing hls
    obtain ⟨nodes, hnodes, rfl⟩ := Option.map_eq_some_iff.mp h
    unfold parseLexemes at hnodes
    split at hnodes
    · rename_i nodes' hr
      obtain rfl := Option.some.inj hnodes
      exact ⟨ls, trailing, nodes', hls, rfl, Production.derives_of_run hr⟩
    · exact absurd hnodes (by simp)

end JavaRefactor.Java

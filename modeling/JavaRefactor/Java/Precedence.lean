import JavaRefactor.Syntax.Node

/-!
# `Java.Precedence` — which expressions need parentheses

## Contents
- **`strength`**: how tightly an expression holds together.
- **`needsParentheses`**: whether an expression of a given strength has to stand in parentheses at a
  place inside another one.
-/

namespace JavaRefactor.Java

open Syntax (Node)

/-- The strength of names, literals, calls and all else that no operator takes apart. -/
def primaryStrength : Nat := 16

/-- The strength of an operator in front of its operand. -/
def unaryStrength : Nat := 14

/-- The strength of a binary operator; comparisons and `instanceof` share one. -/
def operatorStrength (operator : String) : Nat :=
  match operator with
  | "||" => 3
  | "&&" => 4
  | "|" => 5
  | "^" => 6
  | "&" => 7
  | "==" | "!=" => 8
  | "<<" | ">>" | ">>>" => 10
  | "+" | "-" => 11
  | "*" | "/" | "%" => 12
  | _ => 9

/-- How tightly an expression holds together; more is tighter. -/
def strength (n : Node) : Nat :=
  match n.category with
  | .lambda | .assignment => 1
  | .ternary => 2
  | .binary => operatorStrength (((n.child? "operator").bind Node.text?).getD "instanceof")
  | .cast => unaryStrength
  | .unary => if n.isKind "update_expression" then unaryStrength + 1 else unaryStrength
  | _ => primaryStrength

/-- Whether an expression of strength `inner` needs parentheses in the stead of `slot`, a child of
`parent`. -/
def needsParentheses (parent slot : Node) (inner : Nat) : Bool :=
  if primaryStrength ≤ inner then false
  else
    let outer := strength parent
    match parent.category with
    | .binary => inner < outer || (inner == outer && slot.field == some "right")
    | .unary | .cast => inner < unaryStrength
    | .methodCall | .fieldAccess => slot.field == some "object"
    | .arrayAccess => slot.field == some "array"
    | .ternary => if slot.field == some "condition" then inner ≤ 2 else inner < 2
    | _ => false

end JavaRefactor.Java

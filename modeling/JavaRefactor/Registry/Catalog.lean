import JavaRefactor.Registry.Basic

/-!
# `Registry.Catalog` — the rules that are always there

## Contents
- **`catalog`**, the drafts of the built-in rules.
- **`Registry.builtIn`**, the registry of them, and **`Registry.withRules`**, which adds those of a path.
-/

namespace JavaRefactor

namespace Catalog

/-- A draft with a description, its parts in the order of a rule file. -/
def entry (name description : String) (metavariables : List (String × String))
    (befores : List String) (after : String) (predicates imports : List String) : RuleDraft :=
  ⟨name, some description, befores, some after, metavariables, predicates, imports⟩

/-- Assertions that say what they check. -/
def assertions : List RuleDraft :=
  [entry "AssertJEnumerableRules.EnumerableAssertHasSameSizeAsRecipe"
      "Prefer hasSameSizeAs over comparing with Iterables.size"
      [("B", "Iterable<?>")]
      ["assertThat($A).hasSize(Iterables.size($B))"] "assertThat($A).hasSameSizeAs($B)" [] [],
    entry "AssertJIntegerRules.AssertThatIsEvenRecipe"
      "Prefer isEven over a modulo comparison"
      [("X", "int")] ["assertThat($X % 2).isEqualTo(0)"] "assertThat($X).isEven()" [] [],
    entry "AssertJIntegerRules.AssertThatIsOddRecipe"
      "Prefer isOdd over a modulo comparison"
      [("X", "int")] ["assertThat($X % 2).isEqualTo(1)"] "assertThat($X).isOdd()" [] [],
    entry "AssertJBooleanRules.AssertThatIsTrueRecipe"
      "Prefer isTrue over comparing with a literal"
      [] ["assertThat($X).isEqualTo(true)"] "assertThat($X).isTrue()" [] [],
    entry "AssertJBooleanRules.AssertThatIsFalseRecipe"
      "Prefer isFalse over comparing with a literal"
      [] ["assertThat($X).isEqualTo(false)"] "assertThat($X).isFalse()" [] []]

/-- Checks of arguments. -/
def preconditions : List RuleDraft :=
  [entry "PreconditionsRules.CheckIndexConditionalRecipe"
      "Prefer Objects.checkIndex over a hand-written bounds check"
      [("INDEX", "int"), ("SIZE", "int")]
      ["if ($INDEX < 0 || $INDEX >= $SIZE) \x7b throw new IndexOutOfBoundsException(); \x7d",
        "if ($INDEX < 0 || $INDEX >= $SIZE) throw new IndexOutOfBoundsException();"]
      "checkIndex($INDEX, $SIZE);" [] ["static java.util.Objects.checkIndex"],
    entry "PreconditionsRules.RequireNonNullStatementRecipe"
      "Prefer Objects.requireNonNull over a hand-written null check"
      []
      ["if ($X == null) \x7b throw new NullPointerException(); \x7d",
        "if ($X == null) throw new NullPointerException();"]
      "requireNonNull($X);" [] ["static java.util.Objects.requireNonNull"]]

/-- Work on strings. -/
def strings : List RuleDraft :=
  [entry "StringRules.StringIsEmptyRecipe"
      "Prefer String.isEmpty over comparing the length with zero"
      [("S", "String")] ["$S.length() == 0", "0 == $S.length()"] "$S.isEmpty()" [] [],
    entry "StringRules.StringValueOfRecipe"
      "Prefer String.valueOf over concatenating with an empty string"
      [] ["\"\" + $X"] "String.valueOf($X)" ["not_literal($X)", "not_type($X, char[])"] []]

/-- Work on numbers. -/
def numbers : List RuleDraft :=
  [entry "MathRules.MaxTernaryRecipe"
      "Prefer Math.max over a conditional expression"
      [] ["$A > $B ? $A : $B", "$A >= $B ? $A : $B"] "Math.max($A, $B)" ["same_type($A, $B)"] [],
    entry "MathRules.MinTernaryRecipe"
      "Prefer Math.min over a conditional expression"
      [] ["$A < $B ? $A : $B", "$A <= $B ? $A : $B"] "Math.min($A, $B)" ["same_type($A, $B)"] []]

/-- The built-in rules. -/
def drafts : List RuleDraft := assertions ++ preconditions ++ strings ++ numbers

end Catalog

namespace Registry

/-- The registry of the built-in rules. -/
def builtIn : Registry := ofDrafts Catalog.drafts

/-- The built-in rules and those of a path, if one is given. -/
def withRules (disk : Disk) (path : Option String) : Except LoadProblem Registry :=
  match path with
  | none => .ok builtIn
  | some p =>
    match builtIn.loadPath disk p with
    | (r, none) => .ok r
    | (_, some problem) => .error problem

end Registry

end JavaRefactor

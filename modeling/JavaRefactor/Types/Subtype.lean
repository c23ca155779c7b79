import JavaRefactor.Types.Basic

/-!
# `Types.Subtype` — the known part of the class hierarchy

## Contents
- **`hierarchy`**, well-known types with their direct supertypes. Every type is listed above the
  supertypes it names, so that the search for a supertype only goes down the table.
- **`isSubtype`**, which knows nothing of types that the table does not list.
-/

namespace JavaRefactor.Types

/-- Well-known types with their direct supertypes, `Object` left out; subtypes come first. -/
def hierarchy : List (String × List String) :=
  [("Boolean", ["Comparable"]),
    ("Character", ["Comparable"]),
    ("BigDecimal", ["Number", "Comparable"]),
    ("BigInteger", ["Number", "Comparable"]),
    ("Float", ["Number", "Comparable"]),
    ("Double", ["Number", "Comparable"]),
    ("Byte", ["Number", "Comparable"]),
    ("Short", ["Number", "Comparable"]),
    ("Long", ["Number", "Comparable"]),
    ("Integer", ["Number", "Comparable"]),
    ("Number", []),
    ("StringBuilder", ["CharSequence"]),
    ("String", ["CharSequence", "Comparable"]),
    ("Comparable", []),
    ("CharSequence", []),
    ("Stream", []),
    ("Optional", []),
    ("FluentIterable", ["Iterable"]),
    ("ImmutableMultiset", ["ImmutableCollection", "Multiset"]),
    ("Multiset", ["Collection"]),
    ("ImmutableMap", ["Map"]),
    ("ImmutableSortedSet", ["ImmutableSet", "NavigableSet"]),
    ("ImmutableSet", ["ImmutableCollection", "Set"]),
    ("ImmutableList", ["ImmutableCollection", "List"]),
    ("ImmutableCollection", ["Collection"]),
    ("TreeMap", ["NavigableMap"]),
    ("LinkedHashMap", ["HashMap"]),
    ("HashMap", ["Map"]),
    ("NavigableMap", ["SortedMap"]),
    ("SortedMap", ["Map"]),
    ("Map", []),
    ("ArrayDeque", ["Deque"]),
    ("TreeSet", ["NavigableSet"]),
    ("LinkedHashSet", ["HashSet"]),
    ("HashSet", ["Set"]),
    ("LinkedList", ["List", "Deque"]),
    ("ArrayList", ["List"]),
    ("Deque", ["Queue"]),
    ("Queue", ["Collection"]),
    ("NavigableSet", ["SortedSet"]),
    ("SortedSet", ["Set"]),
    ("Set", ["Collection"]),
    ("List", ["Collection"]),
    ("Collection", ["Iterable"]),
    ("Iterable", []),
    ("Object", [])]

/-- Whether a name is one of an array. -/
def isArrayName (name : String) : Bool := [']', '['].isPrefixOf name.toList.reverse

/-- Whether `name` is below `expected` as far as a table of types and supertypes tells; none if the
table does not list `name`. Arrays are below `Object` and themselves alone. -/
def isSubtypeIn : List (String × List String) → String → String → Option Bool
  | table, name, expected =>
    if name == expected || expected == "Object" then some true
    else if isArrayName name || isArrayName expected then some false
    else match table with
      | [] => none
      | (known, supertypes) :: rest =>
        if known == name then
          some (supertypes.any fun parent => (isSubtypeIn rest parent expected).getD false)
        else isSubtypeIn rest name expected

/-- Whether `name` is below `expected`; none if nothing is known of `name`. -/
def isSubtype (name expected : String) : Option Bool := isSubtypeIn hierarchy name expected

end JavaRefactor.Types

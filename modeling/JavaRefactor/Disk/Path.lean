import JavaRefactor.Text.Chars

/-!
# `Disk.Path` — paths as they are written

## Contents
- **Parts.** `parts`, the names between slashes; `names` and `lexical`, those of them that count when
  two paths are compared as they are written.
- **File names.** `extension?`.
- **Joining.** `join`.
-/

namespace JavaRefactor.Disk

/-- The names between the slashes of a path. -/
def parts (path : String) : List String :=
  (Text.splitOn '/' path.toList).map String.ofList

/-- The names of a path, in which nothing is left that leads nowhere. -/
def names (path : String) : List String := (parts path).filter fun p => p != "" && p != "."

/-- Whether a path starts at the root of all files. -/
def isAbsolute (path : String) : Bool := path.toList.head? == some '/'

/-- What counts of a path when it is compared as it is written: not how many slashes stand between two
names or at the end, nor a `.` behind the first name. -/
def lexical (path : String) : Bool × List String :=
  match parts path with
  | "." :: _ => (false, "." :: names path)
  | _ => (isAbsolute path, names path)

/-- What follows the last point of a file name, unless that is its first character. -/
def extension? (name : String) : Option String :=
  let back := name.toList.reverse
  match back.dropWhile (· != '.') with
  | _ :: front =>
    if front.isEmpty || name == ".." then none
    else some (String.ofList (back.takeWhile (· != '.')).reverse)
  | [] => none

/-- The path of a name inside a directory. -/
def join (directory name : String) : String :=
  if directory.toList.getLast? == some '/' then directory ++ name else directory ++ "/" ++ name

end JavaRefactor.Disk

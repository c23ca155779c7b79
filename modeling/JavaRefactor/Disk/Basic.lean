import JavaRefactor.Disk.Path
import JavaRefactor.Sorting

/-!
# `Disk.Basic` — files and directories

A disk is a tree of files with a working directory in it, from which paths lead unless they start at the
root.

## Contents
- **`Fault`**, why a file cannot be read or written.
- **`Content`**, **`Entry`** and **`Disk`**.
- **Finding.** `locate`, which follows a path, and `identify`, which tells when two paths lead to one
  file.
- **Reading.** `read`, `isDirectory`, `listing`.
- **Writing.** `replace`, `remove`.
-/

namespace JavaRefactor

namespace Disk

/-- Why a file cannot be read or written. -/
inductive Fault where
  | notFound
  | isDirectory
  | notDirectory
  /-- The bytes are no text. -/
  | notText
  | other (text : String)
  deriving DecidableEq, Repr, Inhabited

/-- The wording of a fault. -/
def Fault.message : Fault → String
  | notFound => "No such file or directory (os error 2)"
  | isDirectory => "Is a directory (os error 21)"
  | notDirectory => "Not a directory (os error 20)"
  | notText => "stream did not contain valid UTF-8"
  | other text => text

/-- What a file holds: a text, or bytes that are none. -/
inductive Content where
  | text (value : String)
  | binary (bytes : List UInt8)
  deriving DecidableEq, Repr, Inhabited

/-- A file or a directory. -/
inductive Entry where
  | file (content : Content)
  | directory
  deriving DecidableEq, Repr, Inhabited

end Disk

/-- Files and directories, by the names that lead to them from the root. A directory that holds something
need not be listed, nor the working directory. -/
structure Disk where
  entries : List (List String × Disk.Entry)
  /-- The place of the working directory. -/
  home : List String
  deriving Repr, Inhabited

namespace Disk

/-! ## Finding -/

/-- What is at a place. -/
def entry? (d : Disk) (place : List String) : Option Entry :=
  if place.isPrefixOf d.home then some .directory
  else match d.entries.lookup place with
    | some e => some e
    | none => if d.entries.any (place.isPrefixOf ·.1) then some .directory else none

/-- Follows names from a place, each of which but the last must be that of a directory. Above the root
there is nothing but the root. -/
def follow (d : Disk) : List String → List String → Except Fault (List String)
  | place, [] => .ok place
  | place, name :: rest =>
    match d.entry? place with
    | none => .error .notFound
    | some (.file _) => .error .notDirectory
    | some .directory =>
      if name == "" || name == "." then follow d place rest
      else if name == ".." then follow d place.dropLast rest
      else follow d (place ++ [name]) rest

/-- The place that a path leads to and what is there. -/
def locate (d : Disk) (path : String) : Except Fault (List String × Entry) :=
  if path == "" then .error .notFound
  else match d.follow (if isAbsolute path then [] else d.home) (parts path) with
    | .error f => .error f
    | .ok place =>
      match d.entry? place with
      | some e => .ok (place, e)
      | none => .error .notFound

/-- What tells files apart: the place of what exists, and the written path of what does not. -/
inductive Identity where
  | place (names : List String)
  | written (absolute : Bool) (names : List String)
  deriving DecidableEq, Repr

/-- Which file a path is about. -/
def identify (d : Disk) (path : String) : Identity :=
  match d.locate path with
  | .ok (place, _) => .place place
  | .error _ => .written (lexical path).1 (lexical path).2

/-! ## Reading -/

/-- The text of a file. -/
def read (d : Disk) (path : String) : Except Fault String :=
  match d.locate path with
  | .error f => .error f
  | .ok (_, .directory) => .error .isDirectory
  | .ok (_, .file (.binary _)) => .error .notText
  | .ok (_, .file (.text value)) => .ok value

/-- Whether a path leads to a directory. -/
def isDirectory (d : Disk) (path : String) : Except Fault Bool :=
  (d.locate path).map fun (_, e) => e = .directory

/-- The names of the files right inside a directory, in ascending order. -/
def listing (d : Disk) (path : String) : Except Fault (List String) :=
  match d.locate path with
  | .error f => .error f
  | .ok (_, .file _) => .error .notDirectory
  | .ok (place, .directory) =>
    let names := d.entries.filterMap fun (p, e) =>
      match e, p.reverse with
      | .file _, name :: front => if front.reverse == place then some name else none
      | _, _ => none
    .ok (sortWith (fun a b => decide (a ≤ b)) names)

/-! ## Writing -/

/-- Gives an existing file another text, all at once. -/
def replace (d : Disk) (path text : String) : Except Fault Disk :=
  match d.locate path with
  | .error f => .error f
  | .ok (_, .directory) => .error .isDirectory
  | .ok (place, .file _) =>
    let entries := d.entries.map fun (p, e) =>
      if p = place then (p, .file (.text text)) else (p, e)
    .ok { d with entries }

/-- Takes away what a path leads to; the directory it was in stays. -/
def remove (d : Disk) (path : String) : Except Fault Disk :=
  (d.locate path).map fun (place, _) =>
    let left := d.entries.filter fun (p, _) => !place.isPrefixOf p
    { d with entries := left ++ [(place.dropLast, .directory)] }

end Disk

end JavaRefactor

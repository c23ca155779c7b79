import JavaRefactor.Disk.Basic

/-!
# `Disk.Access` — reading and writing that may fail

A file that is there may still not be read, and one that may be written may still be refused. What is read
is then nothing else than what the file holds, and what is written is all of the new text or nothing.

## Contents
- **`Access`**, and **`Access.plain`**, by which nothing fails without a reason on the disk.
-/

namespace JavaRefactor.Disk

/-- How files are read and written, if they can be. -/
structure Access where
  read : Disk → String → Except Fault String
  write : Disk → String → String → Except Fault Disk
  /-- What is read is what the file holds. -/
  reads : ∀ {d path text}, read d path = .ok text → d.read path = .ok text
  /-- What is written replaces the file, all at once. -/
  writes : ∀ {d path text after}, write d path text = .ok after → d.replace path text = .ok after

namespace Access

/-- A file is read and written unless the disk gives a reason not to. -/
def plain : Access := ⟨Disk.read, Disk.replace, id, id⟩

end Access

end JavaRefactor.Disk

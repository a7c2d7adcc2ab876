import SpiceDeck.Text.Utf8

/-!
What a run needs of a file system. Every operation may be refused for a reason that
the system gives.
-/

namespace SpiceDeck
open Text

abbrev Bytes := Utf8.Bytes

inductive Obstacle where
  /-- Something that the path leads through does not exist. -/
  | missing
  /-- The path already leads to something. -/
  | present
  | other
  deriving DecidableEq, Repr

structure Refusal where
  obstacle : Obstacle := .other
  /-- The system's own words, empty if it has none. -/
  reason : Text := []
  deriving DecidableEq, Repr

inductive FileKind where
  | file
  | directory
  deriving DecidableEq, Repr

/-- The operations on files, where `Draft` is what stands for a temporary file. -/
class FileSystem (m : Type → Type) (Draft : outParam Type) where
  /-- What a path leads to, if to anything. -/
  kind? : Text → m (Option FileKind)
  read : Text → m (Except Refusal Bytes)
  /-- Create an empty temporary file in a directory. -/
  createDraft : Text → m (Except Refusal Draft)
  /-- Write to a temporary file. A part of the bytes can be in it when the rest is refused. -/
  fillDraft : Draft → Bytes → m (Except Refusal Unit)
  /-- Move a temporary file to a path, over the file that is there. -/
  persistDraft : Draft → Text → m (Except Refusal Unit)
  /-- Give a temporary file up and remove it. -/
  dropDraft : Draft → m Unit
  /-- The names of the regular files in a directory, in any order. A file to which the
  path of the directory with the file's name does not lead is left out. -/
  fileNames : Text → m (Except Refusal (List Text))
  /-- Create a single directory in one that exists. -/
  makeDirectory : Text → m (Except Refusal Unit)

end SpiceDeck

import SpiceDeck.Files.System
import SpiceDeck.Path

/-!
A file system held as a value: files and directories under one root, and the directory
in which relative paths start.
-/

namespace SpiceDeck
open Text

inductive Node where
  | file (bytes : Bytes)
  | directory
  deriving DecidableEq, Repr

/-- The names that lead from the root to a node. -/
abbrev Place := List Text

structure Tree where
  nodes : List (Place × Node) := []
  /-- Where relative paths start. -/
  working : Place := []
  deriving DecidableEq, Repr

namespace Tree

def nameLimit : Nat := 255

def pathLimit : Nat := 4095

def get? (t : Tree) (place : Place) : Option Node :=
  if place.isEmpty then some .directory else t.nodes.lookup place

/-- A tree with nothing but a working directory and what leads to it. -/
def ofWorking (place : Place) : Tree :=
  { nodes := (List.range place.length).map fun n => (place.take (n + 1), .directory)
    working := place }

/-- What stands below the working directory, with the places from there. -/
def contents (t : Tree) : List (Place × Node) :=
  t.nodes.filterMap fun (place, n) =>
    if t.working.isPrefixOf place && place != t.working then
      some (place.drop t.working.length, n)
    else none

def isDirectory (t : Tree) (place : Place) : Bool := t.get? place == some .directory

def set (t : Tree) (place : Place) (n : Node) : Tree :=
  if (t.nodes.lookup place).isSome then
    { t with nodes := t.nodes.map fun (p, old) => (p, if p = place then n else old) }
  else { t with nodes := t.nodes ++ [(place, n)] }

/-- Follow the parts of a path. Only directories can be passed, also by parts that do
not lead on; the root is its own parent. -/
def walk (t : Tree) (place : Place) : List Text → Except Refusal Place
  | [] => .ok place
  | part :: r =>
      match t.get? place with
      | none => .error { obstacle := .missing }
      | some (.file _) => .error {}
      | some .directory =>
          if Path.isVoid part then walk t place r
          else if part = "..".toList then walk t place.dropLast r
          else if nameLimit < byteLength part then .error {}
          else walk t (place ++ [part]) r

def start (t : Tree) (path : Text) : Place := if Path.isAbsolute path then [] else t.working

def improper? (path : Text) : Option Refusal :=
  if path.contains '\x00' then
    some { reason := "file name contained an unexpected NUL byte".toList }
  else if path.isEmpty then some { obstacle := .missing }
  else if pathLimit < byteLength path then some {}
  else none

/-- The place of a path, at which there need not be anything. -/
def resolve (t : Tree) (path : Text) : Except Refusal Place :=
  match improper? path with
  | some refusal => .error refusal
  | none => t.walk (t.start path) (Path.parts path)

def find (t : Tree) (path : Text) : Except Refusal Node := do
  match t.get? (← t.resolve path) with
  | some n => return n
  | none => throw { obstacle := .missing }

/-- Whether a path leads to a file; one that is refused leads nowhere. -/
def isFile (t : Tree) (path : Text) : Bool :=
  match t.find path with
  | .ok (.file _) => true
  | .ok .directory | .error _ => false

def endsInName (path : Text) : Bool :=
  match (Path.parts path).getLast? with
  | some part => !Path.isVoid part && part != "..".toList
  | none => false

def workingPath (t : Tree) : Text := '/' :: join ['/'] t.working

/-- The tree with a file at the place of a path, which must not be that of a directory. A
file is moved to its path rather than opened there, so a path that cannot be one is refused
without words. -/
def replace (t : Tree) (path : Text) (bytes : Bytes) : Except Refusal Tree :=
  match t.resolve path with
  | .error refusal => .error { refusal with reason := [] }
  | .ok place =>
      if endsInName path && !t.isDirectory place then .ok (t.set place (.file bytes))
      else .error {}

/-- Names for temporary files, of six digits as long as these are enough. -/
def draftName (n : Nat) : Text := ".tmp".toList ++ ofNat (100000 + n)

/-- The first of these names that is free in a directory. -/
def freeName (t : Tree) (dir : Place) : Text :=
  let names := (List.range (t.nodes.length + 1)).map draftName
  (names.find? fun name => (t.get? (dir ++ [name])).isNone).getD []

/-- The path under which the system is asked for a temporary file, from the root. -/
def draftPath (t : Tree) (dir : Text) : Text :=
  let path := Path.child dir (draftName 0)
  if Path.isAbsolute path then path else Path.child t.workingPath path

/-- The tree with an empty file under a free name in a directory, with the place of the
file. There must be room for its path. -/
def createDraft (t : Tree) (dir : Text) : Except Refusal (Place × Tree) :=
  let path := Path.child dir (draftName 0)
  match improper? (t.draftPath dir) with
  | some refusal => .error refusal
  | none =>
      match t.walk (t.start path) (Path.parts path) with
      | .error refusal => .error refusal
      | .ok place =>
          let draft := place.dropLast ++ [t.freeName place.dropLast]
          .ok (draft, t.set draft (.file []))

def fillDraft (t : Tree) (draft : Place) (bytes : Bytes) : Except Refusal Tree :=
  match t.get? draft with
  | some (.file old) => .ok (t.set draft (.file (old ++ bytes)))
  | some .directory | none => .error {}

def remove (t : Tree) (place : Place) : Tree :=
  { t with nodes := t.nodes.filter fun node => node.1 != place }

/-- The tree with a file moved to a path. Moved to its own path it stays. -/
def persistDraft (t : Tree) (draft : Place) (path : Text) : Except Refusal Tree :=
  match t.get? draft with
  | some (.file bytes) =>
      match t.replace path bytes with
      | .error refusal => .error refusal
      | .ok u => .ok (if (t.resolve path).toOption = some draft then u else u.remove draft)
  | some .directory | none => .error {}

def partsToLast (path : Text) : List Text :=
  ((Path.parts path).reverse.dropWhile List.isEmpty).reverse

/-- The tree with a directory. All that stands before its name must exist; a path that
does not end in a name leads to something that does. -/
def makeDirectory (t : Tree) (path : Text) : Except Refusal Tree := do
  if let some refusal := improper? path then throw refusal
  let place ← t.walk (t.start path) (partsToLast path)
  match t.get? place with
  | none => return t.set place .directory
  | some _ => throw { obstacle := .present }

def fileNames (t : Tree) (place : Place) : List Text :=
  t.nodes.filterMap fun
    | (p, .file _) => if p.dropLast = place then p.getLast? else none
    | (_, .directory) => none

end Tree

/-- A change to the tree that leaves it as it was when it is refused. -/
def Tree.attempt (change : Tree → Except Refusal Tree) : StateM Tree (Except Refusal Unit) :=
  fun t =>
    match change t with
    | .ok t => (.ok (), t)
    | .error refusal => (.error refusal, t)

instance : FileSystem (StateM Tree) Place where
  kind? path := do
    match (← get).find path with
    | .ok (.file _) => return some .file
    | .ok .directory => return some .directory
    | .error _ => return none
  read path := do
    match (← get).find path with
    | .ok (.file bytes) => return .ok bytes
    | .ok .directory => return .error {}
    | .error refusal => return .error refusal
  createDraft dir := fun t =>
    match t.createDraft dir with
    | .ok (draft, t) => (.ok draft, t)
    | .error refusal => (.error refusal, t)
  fillDraft draft bytes := Tree.attempt (·.fillDraft draft bytes)
  persistDraft draft path := Tree.attempt (·.persistDraft draft path)
  dropDraft draft := modify (·.remove draft)
  fileNames path := do
    let t ← get
    match t.resolve path with
    | .error refusal => return .error refusal
    | .ok place =>
        if t.isDirectory place then
          return .ok ((t.fileNames place).filter fun name => t.isFile (Path.child path name))
        else return .error {}
  makeDirectory path := Tree.attempt (·.makeDirectory path)

end SpiceDeck

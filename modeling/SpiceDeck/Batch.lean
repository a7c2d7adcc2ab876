import SpiceDeck.Conversion
import SpiceDeck.Files.System
import SpiceDeck.Options.Load
import SpiceDeck.Report

/-!
Conversion of files and directories. Only failures about files are errors; in a
directory they are recorded for the file and do not stop the others.
-/

namespace SpiceDeck
open Text

inductive FileError where
  | read (path : Text) (refusal : Refusal)
  | write (path : Text) (refusal : Refusal)
  | createDirectory (path : Text) (refusal : Refusal)
  | listDirectory (path : Text) (refusal : Refusal)
  | missingInput (path : Text)
  | configuration (refusal : Options.Refusal)
  deriving DecidableEq, Repr

namespace FileError

/-- The path with the system's reason, if it gives one. -/
def subject (path : Text) (refusal : Refusal) : Text :=
  if refusal.reason.isEmpty then path else path ++ ": ".toList ++ refusal.reason

def message : FileError → Text
  | .read path refusal => "cannot read ".toList ++ subject path refusal
  | .write path refusal => "cannot write ".toList ++ subject path refusal
  | .createDirectory path refusal => "cannot create directory ".toList ++ subject path refusal
  | .listDirectory path refusal => "cannot list directory ".toList ++ subject path refusal
  | .missingInput path => "no such file or directory: ".toList ++ path
  | .configuration refusal => "invalid configuration: ".toList ++ refusal.message

end FileError

namespace Batch
variable {m : Type → Type} {Draft : Type} [Monad m] [FileSystem m Draft]

def draftDirectory (path : Text) : Text :=
  if (Path.parent path).isEmpty then ['.'] else Path.parent path

/-- Put a text in place as the whole content of a file: write it to a temporary file beside
it, which is moved over it, or removed when it cannot be written or moved. -/
def write (path content : Text) : m (Except FileError Unit) := do
  match ← FileSystem.createDraft (draftDirectory path) with
  | .error refusal => return .error (.write path refusal)
  | .ok draft =>
      match ← FileSystem.fillDraft draft (Utf8.encode content) with
      | .error refusal =>
          FileSystem.dropDraft draft
          return .error (.write path refusal)
      | .ok () =>
          match ← FileSystem.persistDraft draft path with
          | .error refusal =>
              FileSystem.dropDraft draft
              return .error (.write path refusal)
          | .ok () => return .ok ()

def ensureDirectory (path : Text) : m (Except Refusal Unit) := do
  match ← FileSystem.makeDirectory path with
  | .ok () => return .ok ()
  | .error refusal =>
      if refusal.obstacle = .present && (← FileSystem.kind? path) = some .directory then
        return .ok ()
      else return .error refusal

/-- Create a directory with those it stands in, of which there are at most `depth`.
What has been created stays when a later one is refused. -/
def createFrom : Nat → Text → m (Except Refusal Unit)
  | 0, path => do
      if path.isEmpty then return .ok ()
      ensureDirectory path
  | depth + 1, path => do
      if path.isEmpty then return .ok ()
      match ← ensureDirectory path with
      | .ok () => return .ok ()
      | .error refusal =>
          if refusal.obstacle = .missing then
            match ← createFrom depth (Path.parent path) with
            | .ok () => ensureDirectory path
            | .error refusal => return .error refusal
          else return .error refusal

def createDirectory (path : Text) : m (Except FileError Unit) := do
  match ← createFrom (Path.parts path).length path with
  | .ok () => return .ok ()
  | .error refusal => return .error (.createDirectory path refusal)

/-- Convert one file; the output may be the input. -/
def convertFile (o : Options) (input output : Text) : m (Except FileError Conversion) := do
  match ← FileSystem.read input with
  | .error refusal => return .error (.read input refusal)
  | .ok bytes =>
      let c := Conversion.ofFile o input (Utf8.decodeLossy bytes)
      match ← write output c.content with
      | .ok () => return .ok c
      | .error e => return .error e

/-- Convert one file of a directory, or pass over it. -/
def convertEntry (o : Options) (input output name : Text) : m FileReport := do
  let source := Path.child input name
  if (Path.extension? source).any o.skipsExtension then return { source, outcome := .skipped }
  let target := Path.child output name
  match ← convertFile o source target with
  | .ok c => return { source, outcome := .converted target c.warnings }
  | .error e => return { source, outcome := .failed e.message }

def sortNames (names : List Text) : List Text := names.mergeSort fun a b => !decide (b < a)

/-- Convert every regular file that stands directly in a directory. -/
def convertDirectory (o : Options) (input output : Text) : m (Except FileError Report) := do
  match ← FileSystem.fileNames input with
  | .error refusal => return .error (.listDirectory input refusal)
  | .ok names =>
      match ← createDirectory output with
      | .error e => return .error e
      | .ok () =>
          let files ← (sortNames names).mapM (convertEntry o input output)
          return .ok { files }

/-- Convert a file, in place unless an output is given, or a directory, beside it
unless an output is given. -/
def convertPath (o : Options) (input : Text) (output : Option Text) :
    m (Except FileError Report) := do
  match ← FileSystem.kind? input with
  | none => return .error (.missingInput input)
  | some .directory => convertDirectory o input (output.getD (Path.outputDirectory input))
  | some .file =>
      let target := output.getD input
      match ← convertFile o input target with
      | .error e => return .error e
      | .ok c =>
          return .ok { files := [{ source := input, outcome := .converted target c.warnings }] }

def writeReport (r : Report) (path : Text) : m (Except FileError Unit) := write path r.toJson

/-- Read options from a configuration file, which must be valid UTF-8. -/
def loadOptions (path : Text) : m (Except FileError Options) := do
  match ← FileSystem.read path with
  | .error refusal => return .error (.read path refusal)
  | .ok bytes =>
      match Utf8.decode? bytes with
      | none => return .error (.read path { reason := "stream did not contain valid UTF-8".toList })
      | some t =>
          match Options.ofText t with
          | .ok o => return .ok o
          | .error refusal => return .error (.configuration refusal)

end Batch
end SpiceDeck

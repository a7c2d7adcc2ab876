import SpiceDeck.CommandLine

/-!
The program. It lends the command line the files of the machine and prints what the
run has to say.
-/

namespace SpiceDeck
namespace Main

def entry (path : Text) : IO.FS.DirEntry := { root := String.ofList path, fileName := "" }

def obstacle : IO.Error → Obstacle
  | .noFileOrDirectory .. => .missing
  | .alreadyExists .. => .present
  | _ => .other

def refusing {α : Type} (action : IO α) : IO (Except Refusal α) := do
  match ← action.toBaseIO with
  | .ok a => return .ok a
  | .error e => return .error ⟨obstacle e, e.toString.toList⟩

/-- Create an empty file under a name that is not taken. -/
def createScratch (dir : Text) : IO Text := do
  let scratch := Path.child dir (".s2spice-".toList ++ Text.ofNat (← IO.monoNanosNow))
  let _ ← IO.FS.Handle.mk (entry scratch).root .writeNew
  return scratch

def regularFiles (path : Text) : IO (List Text) := do
  let entries ← (entry path).root.readDir
  let files ← entries.toList.filterM fun e => do
    match ← refusing e.path.metadata with
    | .ok data => return data.type == .file
    | .error _ => return false
  return files.map fun e => e.fileName.toList

instance : FileSystem IO Text where
  kind? path := do
    match ← refusing (entry path).root.metadata with
    | .ok data => return some (if data.type == .dir then .directory else .file)
    | .error _ => return none
  read path := refusing do return (← IO.FS.readBinFile (entry path).root).toList
  createDraft dir := refusing (createScratch dir)
  fillDraft draft bytes := refusing (IO.FS.writeBinFile (entry draft).root ⟨bytes.toArray⟩)
  persistDraft draft path := refusing (IO.FS.rename (entry draft).root (entry path).root)
  dropDraft draft := do
    let _ ← refusing (IO.FS.removeFile (entry draft).root)
  fileNames path := refusing (regularFiles path)
  makeDirectory path := refusing (IO.FS.createDir (entry path).root)

end Main
end SpiceDeck

def main (args : List String) : IO UInt32 := do
  let finish ← SpiceDeck.CommandLine.run (m := IO) (args.map String.toList)
  IO.print (String.ofList finish.output)
  IO.eprint (String.ofList finish.errors)
  return finish.status.toUInt32

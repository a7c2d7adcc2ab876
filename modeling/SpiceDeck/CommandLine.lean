import SpiceDeck.Batch
import SpiceDeck.Text.Visible

/-!
The command line. Arguments are read from left to right and the first one that is
wrong, or that asks for information, decides; a complete set is then carried out.
-/

namespace SpiceDeck
namespace CommandLine
open Text

/-- What has been read of the arguments. -/
structure Draft where
  paths : List Text := []
  verbose : Bool := false
  /-- The dialect option, where `auto` leaves the choice open. -/
  dialect : Option (Option Dialect) := none
  config : Option Text := none
  report : Option Text := none
  deriving DecidableEq, Repr

structure Arguments where
  input : Text
  output : Option Text := none
  dialect : Option Dialect := none
  config : Option Text := none
  report : Option Text := none
  deriving DecidableEq, Repr

inductive Stop where
  | help
  | version
  | misuse
  deriving DecidableEq, Repr

inductive Setting where
  | dialect
  | config
  | report
  deriving DecidableEq, Repr

def Setting.ofName? (name : Text) : Option Setting :=
  if name = "dialect".toList then some .dialect
  else if name = "config".toList then some .config
  else if name = "report".toList then some .report
  else none

def Setting.ofLetter? (c : Char) : Option Setting :=
  if c = 'd' then some .dialect else if c = 'c' then some .config else none

def dialectChoice? (t : Text) : Option (Option Dialect) :=
  if t = "auto".toList then some none
  else if t = "spectre".toList then some (some .spectre)
  else if t = "spice".toList then some (some .spice)
  else none

namespace Draft

/-- An option is given once at most and never an empty value. -/
def set (d : Draft) (s : Setting) (value : Text) : Except Stop Draft :=
  if value.isEmpty then .error .misuse
  else match s with
    | .dialect =>
        match d.dialect, dialectChoice? value with
        | none, some choice => .ok { d with dialect := some choice }
        | _, _ => .error .misuse
    | .config => if d.config.isSome then .error .misuse else .ok { d with config := some value }
    | .report => if d.report.isSome then .error .misuse else .ok { d with report := some value }

def setVerbose (d : Draft) : Except Stop Draft :=
  if d.verbose then .error .misuse else .ok { d with verbose := true }

/-- There is an input and an output, none of them empty. -/
def addPath (d : Draft) (path : Text) : Except Stop Draft :=
  if path.isEmpty || 2 ≤ d.paths.length then .error .misuse
  else .ok { d with paths := d.paths ++ [path] }

/-- Letters behind one dash. A letter that takes a value takes the rest of the word;
if there is no rest it is left waiting for the next word. -/
def readLetters (d : Draft) : Text → Except Stop (Draft × Option Setting)
  | [] => .ok (d, none)
  | c :: r =>
      if c = 'h' then .error .help
      else if c = 'V' then .error .version
      else if c = 'v' then
        match d.setVerbose with
        | .ok d => readLetters d r
        | .error e => .error e
      else match Setting.ofLetter? c, r with
        | none, _ => .error .misuse
        | some s, [] => .ok (d, some s)
        | some s, '=' :: value => (d.set s value).map fun d => (d, none)
        | some s, value => (d.set s value).map fun d => (d, none)

/-- A word behind two dashes, which may hold a value after an equals sign. -/
def readWord (d : Draft) (t : Text) : Except Stop (Draft × Option Setting) :=
  let name := t.takeWhile (· != '=')
  let value := match t.dropWhile (· != '=') with
    | _ :: v => some v
    | [] => none
  match Setting.ofName? name, value with
  | some s, some v => (d.set s v).map fun d => (d, none)
  | some s, none => .ok (d, some s)
  | none, some _ => .error .misuse
  | none, none =>
      if name = "help".toList then .error .help
      else if name = "version".toList then .error .version
      else if name = "verbose".toList then d.setVerbose.map fun d => (d, none)
      else .error .misuse

def addPaths (d : Draft) : List Text → Except Stop Draft
  | [] => .ok d
  | path :: r =>
      match d.addPath path with
      | .ok d => addPaths d r
      | .error e => .error e

/-- Read all arguments; `waiting` is an option whose value comes next. After two
dashes alone there are only paths. -/
def read (d : Draft) (waiting : Option Setting) : List Text → Except Stop Draft
  | [] => if waiting.isSome then .error .misuse else .ok d
  | arg :: r =>
      let next (result : Except Stop (Draft × Option Setting)) : Except Stop Draft :=
        match result with
        | .ok (d, waiting) => read d waiting r
        | .error e => .error e
      match waiting with
      | some s =>
          if startsWith arg ['-'] && arg != ['-'] then .error .misuse
          else next ((d.set s arg).map fun d => (d, none))
      | none =>
          if arg = "--".toList then d.addPaths r
          else match after? "--".toList arg, after? "-".toList arg with
            | some word, _ => next (d.readWord word)
            | none, some (c :: letters) => next (d.readLetters (c :: letters))
            | none, _ => next ((d.addPath arg).map fun d => (d, none))

end Draft

def parse (args : List Text) : Except Stop Arguments :=
  match Draft.read {} none args with
  | .error e => .error e
  | .ok d =>
      match d.paths with
      | [] => .error .misuse
      | input :: rest =>
          .ok
            { input, output := rest.head?, dialect := d.dialect.join, config := d.config
              report := d.report }

/-- What a run leaves: its status and what it writes. -/
structure Finish where
  status : Nat := 0
  output : Text := []
  errors : Text := []
  deriving DecidableEq, Repr

def endLine (t : Text) : Text := t ++ ['\n']

def usage : Text := "Usage: s2spice [OPTIONS] <INPUT> [OUTPUT]".toList

def helpLines : List Text :=
  [ "Convert Spectre/CDL netlists to ngspice syntax".toList, [], usage, [],
    "  -v, --verbose            Trace every classification decision".toList,
    "  -d, --dialect <DIALECT>  Dialect the input starts in: auto, spectre or spice".toList,
    "  -c, --config <CONFIG>    TOML file overriding the conversion tables".toList,
    "      --report <REPORT>    Write a JSON conversion report to this path".toList,
    "  -h, --help               Print help".toList,
    "  -V, --version            Print version".toList ]

def Stop.finish : Stop → Finish
  | .help => { output := helpLines.flatMap endLine }
  | .version => { output := endLine "s2spice 0.2.0".toList }
  | .misuse =>
      { status := 2, errors := endLine "error: invalid arguments".toList ++ endLine usage }

def failure (message : Text) : Text := endLine ("✗ ".toList ++ message)

/-- Further lines of a message stand four blanks in. -/
def indented (message : Text) : Text :=
  message.flatMap fun c => if c = '\n' then "\n    ".toList else [c]

/-- A message in the log. Its line end is a part of it, so a control sequence that the
message leaves open can swallow it. -/
def logRecord (message : Text) : Text :=
  visible (endLine ("[WARN  s2spice] ".toList ++ indented message))

def warningMessage (source : Text) (w : Warning) : Text :=
  source ++
    (match w.line with
      | some n => ':' :: ofNat n
      | none => []) ++ ": ".toList ++ w.message

def fileSummary (f : FileReport) : Text :=
  match f.outcome with
  | .converted output warnings =>
      warnings.flatMap (fun w => logRecord (warningMessage f.source w)) ++
        endLine ("✓ ".toList ++ output)
  | .skipped => endLine ("- ".toList ++ f.source ++ " (skipped)".toList)
  | .failed error => failure (f.source ++ " - ".toList ++ error)

/-- What closes a run over a directory, after an empty line. -/
def batchSummary (r : Report) : Text :=
  endLine [] ++
    endLine
      ("Batch conversion complete: ".toList ++ ofNat r.converted ++ " converted, ".toList ++
        ofNat r.skipped ++ " skipped, ".toList ++ ofNat r.failed ++ " failed (".toList ++
        ofNat r.warningCount ++ " warning(s))".toList)

variable {m : Type → Type} {File : Type} [Monad m] [FileSystem m File]

/-- The options of a run: those of the configuration, with the dialect if one is set. -/
def options (a : Arguments) : m (Except FileError Options) := do
  let loaded ← match a.config with
    | some path => Batch.loadOptions path
    | none => pure (.ok {})
  return loaded.map fun o =>
    match a.dialect with
    | some d => o.withDialect d
    | none => o

def perform (a : Arguments) : m Finish := do
  match ← options a with
  | .error e => return { status := 1, errors := failure e.message }
  | .ok o =>
      match ← Batch.convertPath o a.input a.output with
      | .error e => return { status := 1, errors := failure e.message }
      | .ok report =>
          let batch := match ← FileSystem.kind? a.input with
            | some .directory => batchSummary report
            | some .file | none => []
          let errors := report.files.flatMap fileSummary ++ batch
          let written ← match a.report with
            | some path => Batch.writeReport report path
            | none => pure (.ok ())
          match written with
          | .error e => return { status := 1, errors := errors ++ failure e.message }
          | .ok () => return { status := if report.hasFailures then 1 else 0, errors }

def run (args : List Text) : m Finish :=
  match parse args with
  | .error stop => return stop.finish
  | .ok a => perform a

end CommandLine
end SpiceDeck
